import Settle.Engine.Aggregation
import Settle.Engine.Evict

/-!
# Materialized views

`MVEngine` of `src/engine/mv.rs`: GROUP BY routing, aggregation, rollback, changes,
sliding windows and checkpoints of one view.

`MVShape` is the part of the engine that its definition fixes, `MVEngine` the part that
changes. The touched groups of an ingest are a list in the order of their first touch;
the source keeps them in a hash map with that order beside each. The stored state of a
view is typed here: a group is a list of `StoredAgg`, the record of a window block a
`WindowRecord`.
-/

namespace Settle

open Std

/-! ## Definition -/

inductive SelectExpr where
  | column (name : String)
  | agg (func : AggFunc) (source : Option String)
  | windowFunc (column : String) (intervalSeconds : UInt64)
deriving DecidableEq

structure SelectItem where
  expr : SelectExpr
  aliasName : Option String
deriving DecidableEq

def AggFunc.name : AggFunc → String
  | .sum => "sum"
  | .count => "count"
  | .min => "min"
  | .max => "max"
  | .avg => "avg"
  | .first => "first"
  | .last => "last"

/-- The column of the view that this item gives. -/
def SelectItem.outputName (item : SelectItem) : String :=
  match item.aliasName with
  | some a => a
  | none =>
    match item.expr with
    | .column col => col
    | .agg func (some c) => func.name ++ "_" ++ c
    | .agg func none => func.name
    | .windowFunc column _ => column

structure SlidingWindowDef where
  intervalSeconds : UInt64
  timeColumn : String
deriving DecidableEq

structure MVDef where
  name : String
  source : String
  select : List SelectItem
  groupBy : List String
  slidingWindow : Option SlidingWindowDef
deriving DecidableEq

/-- An aggregation column: its function, the column that feeds it and its type. -/
structure AggFeed where
  func : AggFunc
  sourceCol : Option String
  columnType : ColumnType
deriving DecidableEq

inductive GroupKeyExtractor where
  | column (name : String)
  | window (name : String) (intervalSeconds : UInt64)
deriving DecidableEq

/-- The fields of `MVEngine` that its definition fixes. The feeds stand in `agg_index`
order. -/
structure MVShape where
  name : String
  source : String
  changeSchema : ChangeSchema
  feeds : List AggFeed
  extractors : List GroupKeyExtractor
  slidingWindow : Option SlidingWindowDef
deriving DecidableEq

/-- The first half of `MVEngine::new`. -/
def MVShape.new (d : MVDef) (sourceColumnTypes : FxHashMap String ColumnType) : MVShape where
  name := d.name
  source := d.source
  changeSchema := ChangeSchema.mv d.name (d.select.map fun item =>
    match item.expr with
    | .column _ | .windowFunc _ _ => (item.outputName, true)
    | .agg _ _ => (item.outputName, false))
  feeds := d.select.filterMap fun item =>
    match item.expr with
    | .agg func source =>
      some { func := func, sourceCol := source,
             columnType := (source.bind (sourceColumnTypes[·]?)).getD .float64 }
    | _ => none
  extractors := d.select.filterMap fun item =>
    match item.expr with
    | .column col => some (.column col)
    | .windowFunc col interval => some (.window col interval)
    | .agg _ _ => none
  slidingWindow := d.slidingWindow

/-! ## State -/

/-- One group of a view. -/
structure Group where
  /-- one aggregate per aggregation column -/
  aggs : List Agg
  /-- the checkpoint that last wrote the group; 0 if none did since it loaded -/
  written : Nat

def Group.new (aggs : List Agg) : Group := { aggs := aggs, written := 0 }

/-- The groups that the blocks of an ingest (or a rollback) touched, in the order of their
first touch, each with its aggregation values from before the change (none if the group
did not exist). -/
structure Touched where
  groups : List (GroupKey × Option (List Value)) := []
  /-- record only whether each group existed -/
  existenceOnly : Bool := false

/-- A block that left a sliding window. Its data stays until the block that expired it is
final. -/
structure ExpiredBlock where
  block : BlockNumber
  ts : Int64
  /-- per group, aggregates that hold only this block -/
  groups : List (GroupKey × List Agg)

/-- An entry of `BlockTimes::by_ts`. -/
structure TsBlock where
  ts : Int64
  block : BlockNumber
deriving DecidableEq

instance : Ord TsBlock := ⟨compareLex (compareOn TsBlock.ts) (compareOn TsBlock.block)⟩

instance : TransOrd TsBlock :=
  inferInstanceAs (TransCmp (compareLex (compareOn TsBlock.ts) (compareOn TsBlock.block)))

instance : LawfulEqOrd TsBlock where
  eq_of_compare {a b} h := by
    have h : compareLex (compareOn TsBlock.ts) (compareOn TsBlock.block) a b = .eq := h
    rw [compareLex_eq_eq] at h
    cases a; cases b
    simp only [compareOn] at h
    rw [LawfulEqCmp.eq_of_compare h.1, LawfulEqCmp.eq_of_compare h.2]

/-- The max timestamp (ms) of each block in a sliding window, indexed by block and by
timestamp. -/
structure BlockTimes where
  byBlock : BTreeMap BlockNumber Int64 := ∅
  byTs : ExtTreeSet TsBlock := ∅

namespace BlockTimes

def insert (t : BlockTimes) (block : BlockNumber) (ts : Int64) : BlockTimes :=
  let byTs := match t.byBlock[block]? with
    | some old => t.byTs.erase ⟨old, block⟩
    | none => t.byTs
  { byBlock := t.byBlock.insert block ts, byTs := byTs.insert ⟨ts, block⟩ }

/-- Remove and return the blocks from `block` up. -/
def splitOff (t : BlockTimes) (block : BlockNumber) : BTreeMap BlockNumber Int64 × BlockTimes :=
  let removed := OrdMap.keep t.byBlock (block ≤ ·)
  (removed,
    { byBlock := OrdMap.keep t.byBlock (· < block)
      byTs := removed.toList.foldl (fun s (b, ts) => s.erase ⟨ts, b⟩) t.byTs })

/-- Remove and return the blocks with a timestamp below `cutoff`, in block order. -/
def takeOlderThan (t : BlockTimes) (cutoff : Int64) : List (BlockNumber × Int64) × BlockTimes :=
  let taken := t.byTs.toList.takeWhile fun e => e.ts < cutoff
  let rest : BlockTimes :=
    { byBlock := taken.foldl (fun m e => m.erase e.block) t.byBlock
      byTs := taken.foldl (fun s e => s.erase e) t.byTs }
  ((taken.map fun e => (e.block, e.ts)).mergeSort fun a b => a.1 ≤ b.1, rest)

def maxTs (t : BlockTimes) : Option Int64 := t.byTs.toList.getLast?.map TsBlock.ts

end BlockTimes

/-- The stored record of a window block: its time and the data that each group holds of
it, per aggregate. -/
structure WindowRecord where
  ts : Int64
  groups : List (GroupKey × List (Option BlockData))
deriving DecidableEq

inductive WindowWrite where
  | put (block : BlockNumber) (record : WindowRecord)
  | delete (block : BlockNumber)
deriving DecidableEq

/-- Manages a single materialized view: the fields that change. -/
structure MVEngine where
  groups : FxHashMap GroupKey Group := ∅
  /-- whether a group that is not in memory reads its state from storage -/
  readsStorage : Bool := false
  eviction : Eviction := {}
  /-- block → group keys touched -/
  blockGroups : BTreeMap BlockNumber (FxHashSet GroupKey) := ∅
  blockTimes : BlockTimes := {}
  /-- the maximum timestamp seen across all blocks -/
  currentWatermark : Int64 := 0
  /-- the expired blocks, by the block that expired them -/
  expired : BTreeMap BlockNumber (List ExpiredBlock) := ∅
  /-- sliding windows only: the blocks that storage lacks -/
  unstored : ExtTreeSet BlockNumber := ∅
  /-- the storage writes of the finality advances since the last checkpoint, in order -/
  windowWrites : List WindowWrite := []
  removedGroups : List GroupKey := []
  pendingDurable : FxHashSet GroupKey := ∅
  ingestTouched : Touched := {}

/-- What storage answers to the reads of one view. -/
structure MvReads where
  /-- `has_mv_state` -/
  hasState : Except Error Bool
  /-- `get_mv_state` of a group -/
  group : GroupKey → Except Error (Option (List StoredAgg))
  /-- the records of a sliding window, in key order -/
  window : Except Error (List (BlockNumber × WindowRecord))

/-- A write of `write_checkpoint`. -/
inductive MvWrite where
  | putGroup (key : GroupKey) (state : List StoredAgg)
  | deleteGroup (key : GroupKey)
  | putWindow (block : BlockNumber) (record : WindowRecord)
  | deleteWindow (block : BlockNumber)
deriving DecidableEq

/-! ## Groups and snapshots -/

namespace MVShape

def createAggVec (v : MVShape) : List Agg := v.feeds.map fun f => createAgg f.func f.columnType

/-- `deserialize_mv_group`: one stored aggregate for each aggregation column. -/
def restoreGroup (v : MVShape) (stored : List StoredAgg) : Option (List Agg) :=
  if stored.length ≠ v.feeds.length then none
  else (v.feeds.zip stored).mapM fun (f, s) => restoreAgg f.func s

variable {R : Type} [SourceRow R]

def computeGroupKey (v : MVShape) (row : R) : GroupKey :=
  v.extractors.map fun
    | .column name => SourceRow.column row name
    | .window name interval =>
      let ts := (SourceRow.column row name).asI64.getD 0
      .dateTime (toStartOfInterval ts interval)

/-- The value that a source row feeds to an aggregation column. -/
def feedValue (row : R) (f : AggFeed) : Value :=
  match f.sourceCol with
  | some col => SourceRow.column row col
  | none => .uint64 1

end MVShape

namespace MVEngine

variable (v : MVShape)

def unreadable (what : String) : Error :=
  .storage ("unreadable state of MV '" ++ v.name ++ "': " ++ what)

/-- The stored state of the group `key`, none if storage holds none. -/
def loadGroup (m : MVEngine) (st : MvReads) (key : GroupKey) : Except Error (Option Group) :=
  if !m.readsStorage then .ok none
  else
    match st.group key with
    | .error e => .error e
    | .ok none => .ok none
    | .ok (some stored) =>
      match v.restoreGroup stored with
      | some aggs => .ok (some (Group.new aggs))
      | none => .error (unreadable v "state of group")

/-- Record the aggregation values of a group before its first change. -/
def snapshot (m : MVEngine) (touched : Touched) (key : GroupKey) : Touched :=
  if touched.groups.any fun e => e.1 = key then touched
  else
    let prev := m.groups[key]?.map fun group =>
      if touched.existenceOnly then [] else group.aggs.map Agg.currentValue
    { touched with groups := touched.groups ++ [(key, prev)] }

/-- Whether the group is in memory with an aggregate that has data. -/
def groupHasData (m : MVEngine) (key : GroupKey) : Bool :=
  match m.groups[key]? with
  | some group => group.aggs.any Agg.hasData
  | none => false

def changeRecord (operation : ChangeOp) (key : GroupKey) (values : List Value)
    (prevValues : Option (List Value)) : ChangeRecord :=
  { operation, schema := v.changeSchema, key, values, prevValues }

/-- The change of one touched group against its snapshot. -/
def emitChange (m : MVEngine) (key : GroupKey) (prev : Option (List Value)) :
    MVEngine × Option ChangeRecord :=
  let hasData := m.groupHasData key
  let current := ((m.groups[key]?.map Group.aggs).getD []).map Agg.currentValue
  match prev, hasData with
  | none, true => (m, some (changeRecord v .insert key current none))
  | some prev, true =>
    if current ≠ prev then (m, some (changeRecord v .update key current (some prev))) else (m, none)
  | some prev, false =>
    -- the group became empty: clean up and track for storage deletion
    ({ m with groups := m.groups.erase key, removedGroups := m.removedGroups ++ [key] },
      some (changeRecord v .delete key prev (some prev)))
  | none, false =>
    -- never emitted and already empty; it was never stored
    ({ m with groups := m.groups.erase key }, none)

/-- Emit one change per touched group against its snapshot. -/
def emitChanges (m : MVEngine) : List (GroupKey × Option (List Value)) →
    MVEngine × List ChangeRecord
  | [] => (m, [])
  | (key, prev) :: rest =>
    let (m, change) := emitChange v m key prev
    let (m, changes) := emitChanges m rest
    (m, change.toList ++ changes)

/-- The state changes of `emit_changes`, without its change records. -/
def dropEmptyGroups (m : MVEngine) : List (GroupKey × Option (List Value)) → MVEngine
  | [] => m
  | (key, prev) :: rest =>
    let m :=
      if m.groupHasData key then m
      else
        { m with
          groups := m.groups.erase key
          removedGroups := if prev.isSome then m.removedGroups ++ [key] else m.removedGroups }
    dropEmptyGroups m rest

/-! ## Applying rows -/

section Rows

variable {R : Type} [SourceRow R]

/-- One row of `apply_block`. Err if the group fails to load: the row changed nothing. -/
def applyRow (st : MvReads) (block : BlockNumber) (row : R) (s : MVEngine × Touched) :
    Except Error (MVEngine × Touched) :=
  let (m, touched) := s
  let key := v.computeGroupKey row
  let loaded : Except Error (Option Group) := match m.groups[key]? with
    | some group => .ok (some group)
    | none => loadGroup v m st key
  match loaded with
  | .error e => .error e
  | .ok found =>
    let m : MVEngine := match found with
      | some group => { m with groups := m.groups.insert key group }
      | none => m
    -- snapshot the output before the first mutation of this group
    let touched := snapshot m touched key
    let group := found.getD (Group.new v.createAggVec)
    let aggs := group.aggs.zipWith (fun a f => a.addBlock block [MVShape.feedValue row f]) v.feeds
    .ok ({ m with
           groups := m.groups.insert key { group with aggs := aggs }
           blockGroups := m.blockGroups.alter block fun keys =>
             some ((keys.getD ∅).insert key) }, touched)

/-- The rows of `apply_block`, up to the first whose group fails to load. -/
def applyRowsLoop (st : MvReads) (block : BlockNumber) :
    List R → MVEngine × Touched → (MVEngine × Touched) × Except Error Unit
  | [], s => (s, .ok ())
  | row :: rest, s =>
    match applyRow v st block row s with
    | .error e => (s, .error e)
    | .ok s => applyRowsLoop st block rest s

/-- `i64::saturating_mul`. -/
def i64SaturatingMul (a b : Int64) : Int64 :=
  Int64.ofInt (max (-2 ^ 63) (min (2 ^ 63 - 1) (a.toInt * b.toInt)))

/-- Move the data that `key` holds of `block` out of its group: one step of
`expire_old_blocks`. -/
def expireGroup (block : BlockNumber) (key : GroupKey)
    (s : (MVEngine × Touched) × List (GroupKey × List Agg)) :
    (MVEngine × Touched) × List (GroupKey × List Agg) :=
  let ((m, touched), groups) := s
  let touched := snapshot m touched key
  match m.groups[key]? with
  | none => ((m, touched), groups)
  | some group =>
    let moved := group.aggs.zipWith (fun agg into => agg.moveBlock block into) v.createAggVec
    (({ m with groups := m.groups.insert key { group with aggs := moved.map Prod.fst } }, touched),
      groups ++ [(key, moved.map Prod.snd)])

/-- One expiring block of `expire_old_blocks`. -/
def expireBlock (expiredBy : BlockNumber) (s : MVEngine × Touched) (e : BlockNumber × Int64) :
    MVEngine × Touched :=
  let (m, touched) := s
  let (block, ts) := e
  let keys := (m.blockGroups[block]?.getD ∅).toList
  let m := { m with blockGroups := m.blockGroups.erase block }
  let ((m, touched), groups) := keys.foldl (fun s key => expireGroup v block key s) ((m, touched), [])
  let stash : ExpiredBlock := { block := block, ts := ts, groups := groups }
  ({ m with expired := m.expired.alter expiredBy fun es => some (es.getD [] ++ [stash]) }, touched)

/-- The cutoff of a window: `current_watermark - window_ms`, in wrapping arithmetic. -/
def windowCutoff (sw : SlidingWindowDef) (watermark : Int64) : Int64 :=
  watermark - i64SaturatingMul sw.intervalSeconds.toInt64 1000

/-- Move the blocks whose timestamps have fallen outside the sliding window to `expired`,
and add the groups they held to `touched`. -/
def expireOldBlocks (sw : SlidingWindowDef) (expiredBy : BlockNumber) (s : MVEngine × Touched) :
    MVEngine × Touched :=
  let (m, touched) := s
  let (taken, times) := m.blockTimes.takeOlderThan (windowCutoff sw m.currentWatermark)
  taken.foldl (expireBlock v expiredBy) ({ m with blockTimes := times }, touched)

/-- The largest timestamp of the rows, or the watermark if no row has one. -/
def blockMaxTs (sw : SlidingWindowDef) (watermark : Int64) (rows : List R) : Int64 :=
  ((rows.filterMap fun r => (SourceRow.column r sw.timeColumn).asI64).max?).getD watermark

def applyBlock (st : MvReads) (block : BlockNumber) (rows : List R) (s : MVEngine × Touched) :
    (MVEngine × Touched) × Except Error Unit :=
  match v.slidingWindow with
  | none => applyRowsLoop v st block rows s
  | some sw =>
    let (m, touched) := s
    -- replay protection: skip blocks already in restored state
    if m.blockTimes.byBlock.contains block then (s, .ok ())
    else
      let ts := blockMaxTs sw m.currentWatermark rows
      let m := { m with
        blockTimes := m.blockTimes.insert block ts
        unstored := m.unstored.insert block
        currentWatermark := if m.currentWatermark < ts then ts else m.currentWatermark }
      match applyRowsLoop v st block rows (m, touched) with
      | (s, .error e) => (s, .error e)
      | (s, .ok ()) => (expireOldBlocks v sw block s, .ok ())

/-- Apply the rows of one block of the current ingest; `take_changes` emits their
changes. -/
def applyRows (m : MVEngine) (st : MvReads) (block : BlockNumber) (rows : List R) :
    MVEngine × Except Error Unit :=
  let ((m, touched), result) := applyBlock v st block rows (m, m.ingestTouched)
  ({ m with ingestTouched := touched }, result)

/-- `apply_rows` with no change records, for replay, which discards them. -/
def replayBlock (m : MVEngine) (st : MvReads) (block : BlockNumber) (rows : List R) :
    MVEngine × Except Error Unit :=
  let ((m, touched), result) := applyBlock v st block rows (m, { existenceOnly := true })
  (dropEmptyGroups m touched.groups, result)

end Rows

/-- The changes of the blocks applied since the last call, one per group. -/
def takeChanges (m : MVEngine) : MVEngine × List ChangeRecord :=
  emitChanges v { m with ingestTouched := {} } m.ingestTouched.groups

/-- Forget the changes of a failed ingest, which its undo rolls back. -/
def discardChanges (m : MVEngine) : MVEngine := { m with ingestTouched := {} }

/-! ## Rollback -/

/-- Put back what one group held of an expired block. -/
def restoreGroupBlock (block : BlockNumber) (s : MVEngine × Touched)
    (e : GroupKey × List Agg) : MVEngine × Touched :=
  let (m, touched) := s
  let (key, data) := e
  let touched := snapshot m touched key
  let group := match m.groups[key]? with
    | some group =>
      { group with aggs := data.zipWith (fun src agg => (src.moveBlock block agg).2) group.aggs }
    -- expiry emptied the group and removed it
    | none => Group.new data
  ({ m with
      groups := m.groups.insert key group
      blockGroups := m.blockGroups.alter block fun keys => some ((keys.getD ∅).insert key) },
    touched)

/-- Put back an expired block, unless it is rolled back itself. -/
def restoreExpiredBlock (forkPoint : BlockNumber) (s : MVEngine × Touched) (e : ExpiredBlock) :
    MVEngine × Touched :=
  let (m, touched) := s
  -- rolled back itself: it expired on arrival
  if forkPoint < e.block then (m, touched)
  else
    e.groups.foldl (restoreGroupBlock e.block)
      ({ m with blockTimes := m.blockTimes.insert e.block e.ts }, touched)

/-- Put back the blocks of `unexpired` at or below `forkPoint`. -/
def restoreExpired (unexpired : BTreeMap BlockNumber (List ExpiredBlock))
    (forkPoint : BlockNumber) (s : MVEngine × Touched) : MVEngine × Touched :=
  (unexpired.toList.flatMap Prod.snd).foldl (restoreExpiredBlock forkPoint) s

/-- Drop the blocks after `forkPoint` from the aggregates of the touched groups. -/
def removeBlocksAfter (forkPoint : BlockNumber) (keys : List GroupKey)
    (groups : FxHashMap GroupKey Group) : FxHashMap GroupKey Group :=
  keys.foldl (fun gs key =>
    gs.modify key fun g => { g with aggs := g.aggs.map (·.removeBlocksAfter forkPoint) }) groups

/-- Roll back all blocks after `forkPoint`. Gives the compensating change records. -/
def rollback (m : MVEngine) (forkPoint : BlockNumber) : MVEngine × List ChangeRecord :=
  -- nothing exists after MAX, and `forkPoint + 1` would wrap
  if forkPoint = BlockNumber.max then (m, [])
  else
    let rolledBack := OrdMap.keep m.blockGroups (forkPoint + 1 ≤ ·)
    let unexpired := OrdMap.keep m.expired (forkPoint + 1 ≤ ·)
    let (rolledBackTimes, blockTimes) := m.blockTimes.splitOff (forkPoint + 1)
    let m := { m with
      blockGroups := OrdMap.keep m.blockGroups (· < forkPoint + 1)
      expired := OrdMap.keep m.expired (· < forkPoint + 1)
      blockTimes := blockTimes
      unstored := m.unstored.filter (· < forkPoint + 1) }
    if rolledBack.isEmpty && unexpired.isEmpty && rolledBackTimes.isEmpty then (m, [])
    else
      let keys := rolledBack.toList.flatMap fun (_, keys) => keys.toList
      let touched := keys.foldl (snapshot m) {}
      let m := { m with
        groups := removeBlocksAfter forkPoint (touched.groups.map Prod.fst) m.groups }
      let (m, touched) :=
        if v.slidingWindow.isSome then
          let (m, touched) := restoreExpired unexpired forkPoint (m, touched)
          ({ m with currentWatermark := m.blockTimes.maxTs.getD 0 }, touched)
        else (m, touched)
      emitChanges v m touched.groups

/-! ## Finality and checkpoints -/

/-- The record of `block`: its time and the data that each group holds of it. A group with
no data in the block is left out. -/
def windowRecord (block : BlockNumber) (ts : Int64) (groups : List (GroupKey × List Agg)) :
    WindowRecord where
  ts := ts
  groups := (groups.map fun (key, aggs) => (key, aggs.map (·.writeBlock block))).filter
    fun (_, data) => data.any Option.isSome

/-- Merge the per-block data of blocks up to `block` into finalized state and stop tracking
those blocks for rollback. Gives the groups whose finalized state changed. -/
def finalizeBlocksUpTo (m : MVEngine) (block : BlockNumber) : MVEngine × FxHashSet GroupKey :=
  let finalized := OrdMap.keep m.blockGroups (· < block + 1)
  let changed := (finalized.toList.flatMap fun (_, keys) => keys.toList).foldl
    (fun (s : FxHashSet GroupKey) key => s.insert key) ∅
  ({ m with
      blockGroups := OrdMap.keep m.blockGroups (block + 1 ≤ ·)
      groups := changed.toList.foldl (fun gs key =>
        gs.modify key fun g => { g with aggs := g.aggs.map (·.finalizeUpTo block) }) m.groups },
    changed)

/-- Queue the writes that turn the stored window as of the previous advance into the window
as of `block`. -/
def advanceWindow (m : MVEngine) (block : BlockNumber) : MVEngine :=
  let newlyFinal := m.unstored.filter (· ≤ block)
  let expiredFinal := OrdMap.keep m.expired (· ≤ block)
  let m := { m with
    unstored := m.unstored.filter (block < ·)
    expired := OrdMap.keep m.expired (block < ·) }
  let puts := newlyFinal.toList.filterMap fun b =>
    -- a block without a time is expired
    m.blockTimes.byBlock[b]?.map fun ts =>
      let groups := ((m.blockGroups[b]?.getD ∅).toList).filterMap fun key =>
        m.groups[key]?.map fun g => (key, g.aggs)
      WindowWrite.put b (windowRecord b ts groups)
  -- the window as of `block` still holds these
  let stashed := ((m.expired.toList.flatMap Prod.snd).filter fun e => newlyFinal.contains e.block).map
    fun e => WindowWrite.put e.block (windowRecord e.block e.ts e.groups)
  -- no fork can go below `block` now, so these blocks stay expired
  let deletes :=
    ((expiredFinal.toList.flatMap Prod.snd).filter fun e => !newlyFinal.contains e.block).map
      fun e => WindowWrite.delete e.block
  { m with windowWrites := m.windowWrites ++ puts ++ stashed ++ deletes }

/-- Merge the blocks up to `block` into finalized state, or queue the storage writes that
move the stored window to `block`. -/
def advanceFinality (m : MVEngine) (block : BlockNumber) : MVEngine :=
  if v.slidingWindow.isSome then advanceWindow m block
  else
    let (m, changed) := finalizeBlocksUpTo m block
    { m with pendingDurable := changed.toList.foldl (fun s key => s.insert key) m.pendingDurable }

/-- Write the stored state of the groups of `pending_durable`. -/
def writePending (checkpoint : Nat) (m : MVEngine) : List GroupKey → MVEngine × List MvWrite
  | [] => (m, [])
  | key :: rest =>
    match m.groups[key]? with
    | none => writePending checkpoint m rest -- removed meanwhile
    | some group =>
      let (m, writes) := writePending checkpoint
        { m with groups := m.groups.insert key { group with written := checkpoint } } rest
      (m, .putGroup key (group.aggs.map Agg.writeFinalized) :: writes)

/-- Write the stored state of every group in `pending_durable`, and delete the groups that
emptied, as part of checkpoint number `checkpoint`. -/
def writeCheckpoint (m : MVEngine) (checkpoint : Nat) : MVEngine × List MvWrite :=
  if v.slidingWindow.isSome then
    let writes := m.windowWrites.map fun
      | .put block record => MvWrite.putWindow block record
      | .delete block => MvWrite.deleteWindow block
    ({ m with windowWrites := [], removedGroups := [] }, writes)
  else
    let pending := m.pendingDurable.toList
    let (m, puts) := writePending checkpoint { m with pendingDurable := ∅ } pending
    -- only keys not present now: a key that came back was written above
    let deletes := (m.removedGroups.filter fun key => !m.groups.contains key).map .deleteGroup
    ({ m with removedGroups := [] }, puts ++ deletes)

/-- Once more than `cap` groups are in memory, drop those that storage holds, the least
recently written first. Checkpoint `committed` is the last one on disk. -/
def evict (m : MVEngine) (cap committed : Nat) : MVEngine :=
  if v.slidingWindow.isSome then m
  else
    let count := m.eviction.due m.groups.size cap committed
    if count = 0 then m
    else
      let unfinal := (m.blockGroups.toList.flatMap fun (_, keys) => keys.toList).foldl
        (fun (s : FxHashSet GroupKey) key => s.insert key) ∅
      let stored := fun (e : GroupKey × Group) =>
        e.2.written ≤ committed && !unfinal.contains e.1 && !m.pendingDurable.contains e.1
      let written := (m.groups.toList.filter stored).map fun e => e.2.written
      let m := match Victims.new written count with
        | some victims =>
          { m with
            groups := ExtTreeMap.ofList
              (Victims.retain stored (fun e => e.2.written) victims m.groups.toList) compare
            readsStorage := true }
        | none => m
      { m with eviction := Eviction.done m.groups.size cap committed }

/-! ## Loading -/

/-- Add the data of a block, if any, to an aggregate. -/
def readEntry (block : BlockNumber) : Agg × Option BlockData → Option Agg
  | (agg, some d) => agg.readBlock block d
  | (agg, none) => some agg

/-- Add the data that one group holds of a window block. -/
def readWindowGroup (block : BlockNumber) (m : MVEngine) (e : GroupKey × List (Option BlockData)) :
    Option MVEngine := do
  let (key, data) := e
  let group := m.groups[key]?.getD (Group.new v.createAggVec)
  let aggs ← (group.aggs.zip data).mapM (readEntry block)
  pure { m with
    groups := m.groups.insert key { group with aggs := aggs }
    blockGroups := m.blockGroups.alter block fun keys => some ((keys.getD ∅).insert key) }

/-- Add the block of a record that `window_record` wrote. -/
def readWindowRecord (m : MVEngine) (block : BlockNumber) (record : WindowRecord) :
    Option MVEngine :=
  record.groups.foldlM (readWindowGroup v block)
    { m with blockTimes := m.blockTimes.insert block record.ts }

/-- The loop of `restore_window`. -/
def readWindowRecords (m : MVEngine) : List (BlockNumber × WindowRecord) → Except Error MVEngine
  | [] => .ok m
  | (block, record) :: rest =>
    match readWindowRecord v m block record with
    | some m => readWindowRecords m rest
    | none => .error (unreadable v ("window record of block " ++ toString block))

/-- Load the window as of the durable block. -/
def restoreWindow (m : MVEngine) (st : MvReads) : Except Error MVEngine := do
  let records ← st.window
  let m ← readWindowRecords v m records
  pure { m with currentWatermark := m.blockTimes.maxTs.getD 0 }

/-- Load a sliding window; other views load their groups on demand. -/
def restore (m : MVEngine) (st : MvReads) : Except Error MVEngine :=
  if v.slidingWindow.isSome then restoreWindow v m st
  else
    -- a failed probe counts as yes: the reads of the groups then report the error
    .ok { m with readsStorage := match st.hasState with | .ok b => b | .error _ => true }

/-- `MVEngine::new`, and also `reload`, which drops all in-memory state first. -/
def reload (st : MvReads) : Except Error MVEngine := restore v {} st

end MVEngine

end Settle
