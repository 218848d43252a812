import Settle.Types

/-!
# The change buffer

`src/change.rs`: the records of a call are appended, and `flush` merges the records of each
row into one and makes a batch of them.

A hash index finds the record of a row in the source. It lists the records that did not
cancel out, so a record here carries whether it is listed (`Slot.live`), and the search is
over the listed ones.
-/

namespace Settle

open Std

/-- The records of one call, in the order of their tables. -/
structure ChangeBatch where
  sequence : Nat
  finalizedHead : Option BlockCursor
  latestHead : Option BlockCursor
  tables : FxHashMap String (List ChangeRecord)

def ChangeRecord.table (r : ChangeRecord) : String := r.schema.table

/-- Merge `incoming` into `existing`. None if the records cancel out. -/
def mergeInPlace (existing incoming : ChangeRecord) : Option ChangeRecord :=
  match existing.operation, incoming.operation with
  | .insert, .update => some { existing with values := incoming.values }
  | .insert, .delete => none
  | .update, .update => some { existing with values := incoming.values }
  | .update, .delete => some { existing with operation := .delete, values := incoming.values }
  | .delete, .insert => some { existing with operation := .update, values := incoming.values }
  | _, _ => some incoming

def isCancelled (r : ChangeRecord) : Bool :=
  r.operation == .delete && r.prevValues.isNone && r.values.isEmpty

def sameRow (a b : ChangeRecord) : Bool := a.table == b.table && a.key == b.key

/-- A record of the merge, and whether the index lists it. -/
structure MergeSlot where
  record : ChangeRecord
  live : Bool := true

/-- One pass of the loop of `flush`. -/
def mergeRecord (merged : List MergeSlot) (record : ChangeRecord) : List MergeSlot :=
  match merged.findIdx? fun s => s.live && sameRow s.record record with
  | none => merged ++ [{ record := record }]
  | some i =>
    merged.modify i fun s =>
      match mergeInPlace s.record record with
      | some r => { s with record := r }
      | none =>
        { record := { s.record with operation := .delete, prevValues := none, values := [] },
          live := false }

/-- Group the records by table. -/
def groupByTable (records : List ChangeRecord) : FxHashMap String (List ChangeRecord) :=
  records.foldl (fun tables r => tables.insert r.table (tables[r.table]?.getD [] ++ [r])) ∅

structure ChangeBuffer where
  pending : List ChangeRecord := []
  nextSequence : Nat := 1
  finalizedHead : Option BlockCursor := none
  latestHead : Option BlockCursor := none

namespace ChangeBuffer

def setHeads (b : ChangeBuffer) (finalizedHead latestHead : Option BlockCursor) : ChangeBuffer :=
  { b with finalizedHead := finalizedHead, latestHead := latestHead }

def push (b : ChangeBuffer) (records : List ChangeRecord)
    (finalizedHead latestHead : Option BlockCursor) : ChangeBuffer :=
  { b with
    pending := b.pending ++ records, finalizedHead := finalizedHead, latestHead := latestHead }

/-- The records that `flush` puts into the batch. -/
def merged (b : ChangeBuffer) : List ChangeRecord :=
  ((b.pending.foldl mergeRecord []).map MergeSlot.record).filter (!isCancelled ·)

/-- Merge and drain all pending records. No batch if there are none, or all cancel out. -/
def flush (b : ChangeBuffer) : ChangeBuffer × Option ChangeBatch :=
  if b.pending.isEmpty then (b, none)
  else
    let drained := { b with pending := [] }
    let tables := groupByTable b.merged
    if tables.isEmpty then (drained, none)
    else
      ({ drained with nextSequence := b.nextSequence + 1 },
        some { sequence := b.nextSequence, finalizedHead := b.finalizedHead,
               latestHead := b.latestHead, tables := tables })

/-- A flush takes the next sequence exactly when it gives a batch, and leaves no record. -/
theorem flush_cases (b : ChangeBuffer) :
    ((b.flush).2 = none ∧ (b.flush).1.nextSequence = b.nextSequence ∧ (b.flush).1.pending = []) ∨
    (∃ batch, (b.flush).2 = some batch ∧ batch.sequence = b.nextSequence ∧
      (b.flush).1.nextSequence = b.nextSequence + 1 ∧ (b.flush).1.pending = []) := by
  unfold flush
  split
  · next h => exact Or.inl ⟨rfl, rfl, List.isEmpty_iff.mp h⟩
  · dsimp only
    split
    · exact Or.inl ⟨rfl, rfl, rfl⟩
    · exact Or.inr ⟨_, rfl, rfl, rfl, rfl⟩

end ChangeBuffer

end Settle
