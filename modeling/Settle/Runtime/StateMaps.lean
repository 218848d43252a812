import Settle.Engine.Blocks

/-!
# MAP state fields

`StateMaps` of `src/reducer_runtime/map.rs`: maps from String keys to values in the state of a
group. A journal of the changed entries takes a block back, and a checkpoint writes only the
entries that changed. The `Journal` and the `Unsaved` of the source keep a single element inline;
here they are a list and a set.
-/

namespace Settle

open Std

/-- The index of a MAP field, and a key of it. -/
abbrev MapKey := UInt16 × String

/-- One change of an entry. -/
structure MapChange where
  block : BlockNumber
  key : MapKey
  /-- the value that the change replaced; none if the entry was absent -/
  old : Option Value

/-- The MAP fields of one group. An entry never holds Null. -/
structure StateMaps where
  entries : FxHashMap MapKey Value := ∅
  /-- the block of the changes that come next -/
  block : BlockNumber := 0
  /-- the changes of the blocks not final yet, oldest first -/
  undo : List MapChange := []
  /-- the keys that a final block changed since the last checkpoint -/
  unsaved : FxHashSet MapKey := ∅

/-- A change that a reducer body makes. -/
inductive MapOp where
  | set (key : MapKey) (value : Value)
  | remove (key : MapKey)

def MapOp.key : MapOp → MapKey
  | .set key _ => key
  | .remove key => key

namespace StateMaps

def log (m : StateMaps) (key : MapKey) (old : Option Value) : StateMaps :=
  { m with undo := m.undo ++ [{ block := m.block, key, old }] }

/-- Remove `key`, if it is present. -/
def remove (m : StateMaps) (key : MapKey) : StateMaps :=
  match m.entries[key]? with
  | none => m
  | some old => { m with entries := m.entries.erase key }.log key (some old)

/-- Set `key`; Null removes it. -/
def set (m : StateMaps) (key : MapKey) (value : Value) : StateMaps :=
  if value.isNull then m.remove key
  else { m with entries := m.entries.insert key value }.log key m.entries[key]?

def applyOp (m : StateMaps) : MapOp → StateMaps
  | .set key value => m.set key value
  | .remove key => m.remove key

/-- Start the changes of `block`. -/
def begin (m : StateMaps) (block : BlockNumber) : StateMaps := { m with block := block }

/-- Take one change back. -/
def undoChange (entries : FxHashMap MapKey Value) (c : MapChange) : FxHashMap MapKey Value :=
  match c.old with
  | some old => entries.insert c.key old
  | none => entries.erase c.key

/-- The loop of `rollback`, over the changes newest first. -/
def rollbackLoop (forkPoint : BlockNumber) :
    List MapChange → FxHashMap MapKey Value → List MapChange × FxHashMap MapKey Value
  | [], entries => ([], entries)
  | c :: rest, entries =>
    if forkPoint < c.block then rollbackLoop forkPoint rest (undoChange entries c)
    else (c :: rest, entries)

/-- Undo the changes of the blocks after `forkPoint`, newest first. -/
def rollback (m : StateMaps) (forkPoint : BlockNumber) : StateMaps :=
  let r := rollbackLoop forkPoint m.undo.reverse m.entries
  { m with undo := r.1.reverse, entries := r.2 }

/-- The blocks up to `block` are final: their keys wait for the next checkpoint. -/
def finalize (m : StateMaps) (block : BlockNumber) : StateMaps :=
  { m with
    undo := m.undo.dropWhile (·.block ≤ block)
    unsaved := (m.undo.takeWhile (·.block ≤ block)).foldl
      (fun unsaved c => unsaved.insert c.key) m.unsaved }

/-- The value of an entry as of `finalized`: what the first change after it replaced. -/
def valueAt (m : StateMaps) (finalized : BlockNumber) (key : MapKey) : Option Value :=
  match m.undo.find? fun c => decide (finalized < c.block) && c.key == key with
  | some c => c.old
  | none => m.entries[key]?

/-- The unsaved entries as of `finalized`, each with its value, none if it was absent then. -/
def writeCheckpoint (m : StateMaps) (finalized : BlockNumber) :
    StateMaps × List (MapKey × Option Value) :=
  ({ m with unsaved := ∅ }, m.unsaved.toList.map fun key => (key, m.valueAt finalized key))

end StateMaps

end Settle
