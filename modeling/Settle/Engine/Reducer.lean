import Settle.Engine.Evict
import Settle.Runtime.StateMaps
import Settle.Storage.Batch
import Settle.Storage.Codec

/-!
# Reducers

`ReducerEngine` of `src/engine/reducer.rs`, with the `Emits` of `src/reducer_runtime/mod.rs`. The
body of a reducer is a deterministic function of the state of its group and the row (`Runtime`);
an external reducer gets the rows of a block group by group, the others row by row.

`ReducerShape` is the part of the engine that its definition fixes. A reducer without MAP fields
has no `StateMaps`: here its groups have empty ones.
-/

namespace Settle

open Std

/-- What the body of a reducer does to its group and its output. -/
structure BodyResult where
  /-- the STATE fields after it -/
  values : List Value
  maps : List MapOp
  /-- the emitted rows by column name -/
  emits : List (List (String × Value))
  error : Option Error

/-- The limit on the distinct column names of the emits of a reducer. -/
def maxEmitColumns : Nat := 1024

/-- A deterministic body, for a reducer with `mapFields` MAP fields. It gets the STATE values as a
slice, so it keeps their number, and reaches only the MAP fields that there are. -/
structure Runtime (mapFields : Nat) where
  process : List Value → (MapKey → Option Value) → Row → BodyResult
  batched : Bool
  values_length : ∀ values maps row, (process values maps row).values.length = values.length
  maps_mem : ∀ values maps row, ∀ op ∈ (process values maps row).maps, op.key.1.toNat < mapFields

/-- `values_length` of a body that returns the values it got. -/
theorem Runtime.length_same (values : List Value) (_ : MapKey → Option Value) (_ : Row) :
    values.length = values.length :=
  rfl

/-- `maps_mem` of a body that writes no MAP field. -/
theorem Runtime.mem_nil (_ : List Value) (_ : MapKey → Option Value) (_ : Row) :
    ∀ op ∈ ([] : List MapOp), op.key.1.toNat < 0 := by
  simp

/-- The fields of `ReducerEngine` that its definition fixes. -/
structure ReducerShape where
  name : String
  source : String
  groupBy : List String
  defaultState : List Value
  mapFields : Nat
  runtime : Runtime mapFields

/-! ## Emits -/

/-- The rows that a reducer emits, by column position. -/
structure Emits where
  columns : List String
  /-- each with the input row that it came from -/
  rows : List (Nat × List Value) := []
  /-- the first column that found no room -/
  overflow : Option String := none

namespace Emits

/-- The position of column `name`, added on first use. -/
def column (e : Emits) (name : String) : Emits × Option Nat :=
  match (ColumnRegistry.mk e.columns).getId name with
  | some id => (e, some id)
  | none =>
    if e.columns.length < maxEmitColumns then
      ({ e with columns := e.columns ++ [name] }, some e.columns.length)
    else ({ e with overflow := e.overflow.or (some name) }, none)

/-- `values[id] = value`, with Nulls up to `id`. -/
def setAt (values : List Value) (id : Nat) (value : Value) : List Value :=
  (values ++ List.replicate (id + 1 - values.length) Value.null).set id value

/-- The fields of one row. -/
def setFields : List (String × Value) → Emits × List Value → Emits × List Value
  | [], s => s
  | (name, value) :: rest, (e, values) =>
    match e.column name with
    | (e, some id) => setFields rest (e, setAt values id value)
    | (e, none) => setFields rest (e, values)

/-- Emit a row by column name. -/
def pushNamed (e : Emits) (source : Nat) (fields : List (String × Value)) : Emits :=
  let r := setFields fields (e, [])
  { r.1 with rows := r.1.rows ++ [(source, r.2)] }

/-- Err if an emit asked for a column past the limit. -/
def check (e : Emits) : Except Error Unit :=
  match e.overflow with
  | none => .ok ()
  | some name =>
    .error (.reducer ("emit column '" ++ name ++ "' is past the limit of " ++
      toString maxEmitColumns ++ " distinct emit columns: the keys of an emit must be column " ++
      "names, not data"))

/-- The emitted rows, padded to all the columns. -/
def take (e : Emits) : List (Nat × List Value) :=
  e.rows.map fun (source, values) =>
    (source, values ++ List.replicate (e.columns.length - values.length) .null)

end Emits

/-! ## The engine -/

/-- One group of a reducer. -/
structure ReducerGroup where
  key : List UInt8
  state : List Value
  /-- the state before each block that changed it and is not final yet -/
  undo : Blocks (List Value) := .new
  pendingDurable : Bool := false
  /-- the checkpoint that last wrote the state -/
  written : Nat := 0
  maps : StateMaps := {}

/-- Whether storage holds the state of the group, once checkpoint `committed` is on disk. -/
def ReducerGroup.stored (g : ReducerGroup) (committed : Nat) : Bool :=
  g.undo.isEmpty && !g.pendingDurable && decide (g.written ≤ committed)

/-- The part of `ReducerEngine` that changes. -/
structure ReducerEngine where
  /-- the groups in memory; an id is an index here -/
  all : List ReducerGroup := []
  ids : FxHashMap (List UInt8) Nat := ∅
  readsStorage : Bool
  eviction : Eviction := {}
  /-- the groups that each block not final yet changed -/
  blockGroups : BTreeMap BlockNumber (List Nat) := ∅
  /-- groups finalized since the last checkpoint -/
  pendingDurable : List Nat := []
  /-- the columns of the emits -/
  columns : List String
  /-- the emit width before each block that added columns -/
  emitGrowth : BTreeMap BlockNumber Nat := ∅

/-- `stores_state`. -/
def Store.storesState (s : Store) (reducer : String) : Bool :=
  s.reducerFinalized.toList.any fun e => e.1.1 == reducer

namespace ReducerEngine

variable (v : ReducerShape)

/-- `ReducerEngine::build`. -/
def new (st : Store) : ReducerEngine where
  readsStorage := st.storesState v.name
  columns := v.groupBy

/-! ## Group keys -/

/-- Positions of the group-by columns in the rows of a block (`resolve_source`). -/
def groupByIds (rows : List Row) : List (Option Nat) :=
  match rows.head? with
  | some first => v.groupBy.map first.registry.getId
  | none => v.groupBy.map fun _ => none

/-- `write_group_key`: the raw bytes of a single String group-by column, else the encoded
group-by values. -/
def groupKey (ids : List (Option Nat)) (row : Row) : List UInt8 :=
  let value (id : Option Nat) : Value := (id.bind (row.values[·]?)).getD .null
  match ids with
  | [] => []
  | [id] =>
    match value id with
    | .string s => s.toUTF8.toList
    | other => encodeGroupKey [other]
  | ids => encodeGroupKey (ids.map value)

/-! ## Loading -/

/-- `decode_state`. -/
def decodeState (datum : Datum) : Except Error (List Value) :=
  match datum with
  | .values values =>
    if values.length ≠ v.defaultState.length then
      .error (.storage ("unreadable state of reducer '" ++ v.name ++ "': " ++
        toString values.length ++ " values for " ++ toString v.defaultState.length ++
        " state fields"))
    else .ok values
  | _ => .error (.storage ("unreadable state of reducer '" ++ v.name ++ "'"))

/-- `load_map_entries`. -/
def loadMapEntries : List (MapKey × Datum) → StateMaps → Except Error StateMaps
  | [], maps => .ok maps
  | (key, datum) :: rest, maps =>
    if v.mapFields ≤ key.1.toNat then
      .error (.storage ("unreadable Map entry of reducer '" ++ v.name ++ "': Map field " ++
        toString key.1.toNat ++ " of " ++ toString v.mapFields))
    else
      match datum with
      | .value value => loadMapEntries rest { maps with entries := maps.entries.insert key value }
      | _ => .error (.storage ("unreadable Map entry of reducer '" ++ v.name ++ "'"))

/-- `load_state_from`: the finalized state in storage, else the default. -/
def loadState (r : ReducerEngine) (st : Store) (key : List UInt8) :
    Except Error (List Value × StateMaps) :=
  if r.readsStorage then
    match st.reducerFinalized[(v.name, key)]? with
    | some datum => do
      let state ← decodeState v datum
      let maps ← loadMapEntries v (st.reducerMaps[(v.name, key)]?.getD ∅).toList {}
      .ok (state, maps)
    | none => .ok (v.defaultState, {})
  else .ok (v.defaultState, {})

/-- `Groups::id`: the id of the group `key`. On its first row it loads its state. -/
def groupId (r : ReducerEngine) (st : Store) (key : List UInt8) :
    Except Error (ReducerEngine × Nat) :=
  match r.ids[key]? with
  | some id => .ok (r, id)
  | none =>
    match r.loadState v st key with
    | .error e => .error e
    | .ok (state, maps) =>
      .ok ({ r with
        all := r.all ++ [{ key, state, maps }]
        ids := r.ids.insert key r.all.length }, r.all.length)

/-! ## Processing -/

/-- `Groups::change` on the group. -/
def changeGroup (block : BlockNumber) (g : ReducerGroup) : ReducerGroup :=
  if g.undo.lastBlock = some block then g
  else { g with undo := g.undo.insert block g.state, maps := g.maps.begin block }

/-- `Groups::change`: the first change in the block keeps the state before it. -/
def change (r : ReducerEngine) (block : BlockNumber) (id : Nat) : ReducerEngine :=
  match r.all[id]? with
  | none => r
  | some g =>
    if g.undo.lastBlock = some block then r
    else { r with
      all := r.all.modify id (changeGroup block)
      blockGroups := r.blockGroups.insert block (r.blockGroups[block]?.getD [] ++ [id]) }

/-- The body on a group. -/
def runBody (g : ReducerGroup) (row : Row) : ReducerGroup × BodyResult :=
  let result := v.runtime.process g.state (g.maps.entries[·]?) row
  ({ g with state := result.values, maps := result.maps.foldl StateMaps.applyOp g.maps }, result)

/-- One row of a group: the body, its emits, and the check of the columns. -/
def processRow (r : ReducerEngine) (emits : Emits) (id index : Nat) (row : Row) :
    ReducerEngine × Emits × Except Error Unit :=
  match r.all[id]? with
  | none => (r, emits, .ok ())
  | some g =>
    let ran := runBody v g row
    let r := { r with all := r.all.modify id fun g => (runBody v g row).1 }
    let emits := ran.2.emits.foldl (fun e fields => e.pushNamed index fields) emits
    match ran.2.error with
    | some e => (r, emits, .error e)
    | none => (r, emits, emits.check)

/-- `process_block_per_row`, over the rows with their indices. -/
def processPerRow (st : Store) (block : BlockNumber) (ids : List (Option Nat)) :
    List (Row × Nat) → ReducerEngine → Emits → ReducerEngine × Emits × Except Error Unit
  | [], r, emits => (r, emits, .ok ())
  | (row, index) :: rest, r, emits =>
    match r.groupId v st (groupKey ids row) with
    | .error e => (r, emits, .error e)
    | .ok (r, id) =>
      match (r.change block id).processRow v emits id index row with
      | (r, emits, .error e) => (r, emits, .error e)
      | (r, emits, .ok ()) => processPerRow st block ids rest r emits

/-- The groups of the rows of a block, loaded. -/
def loadGroups (st : Store) (ids : List (Option Nat)) :
    List Row → ReducerEngine → ReducerEngine × Except Error (List Nat)
  | [], r => (r, .ok [])
  | row :: rest, r =>
    match r.groupId v st (groupKey ids row) with
    | .error e => (r, .error e)
    | .ok (r, id) =>
      match loadGroups st ids rest r with
      | (r, .error e) => (r, .error e)
      | (r, .ok groups) => (r, .ok (id :: groups))

/-- The rows of one group, in order (`process_grouped`). -/
def processGroup (id : Nat) :
    List (Row × Nat) → ReducerEngine → Emits → ReducerEngine × Emits × Except Error Unit
  | [], r, emits => (r, emits, .ok ())
  | (row, index) :: rest, r, emits =>
    match r.processRow v emits id index row with
    | (r, emits, .error e) => (r, emits, .error e)
    | (r, emits, .ok ()) => processGroup id rest r emits

/-- The groups of a block, each with its rows. -/
def processGrouped (rows : List ((Row × Nat) × Nat)) :
    List Nat → ReducerEngine → Emits → ReducerEngine × Emits × Except Error Unit
  | [], r, emits => (r, emits, .ok ())
  | id :: rest, r, emits =>
    let own := (rows.filter fun e => e.2 == id).map Prod.fst
    match processGroup v id own r emits with
    | (r, emits, .error e) => (r, emits, .error e)
    | (r, emits, .ok ()) => processGrouped rows rest r emits

/-- The distinct ids, in order of first use. -/
def firstUses : List Nat → List Nat
  | [] => []
  | id :: rest => id :: (firstUses rest).filter (· != id)

/-- `process_block_batched`. -/
def processBatched (st : Store) (block : BlockNumber) (rows : List Row)
    (ids : List (Option Nat)) (r : ReducerEngine) (emits : Emits) :
    ReducerEngine × Emits × Except Error Unit :=
  match loadGroups v st ids rows r with
  | (r, .error e) => (r, emits, .error e)
  | (r, .ok groups) =>
    let r := { r with blockGroups := r.blockGroups.insertIfNew block [] }
    let r := (firstUses groups).foldl (fun r id => r.change block id) r
    processGrouped v (rows.zipIdx.zip groups) (firstUses groups) r emits

/-- One emitted row: a group-by column that it left Null comes from its input row. -/
def outputRow (ids : List (Option Nat)) (columns : List String) (rows : List Row)
    (emitted : Nat × List Value) : Row where
  registry := ⟨columns⟩
  values :=
    let input := (rows[emitted.1]?.map Row.values).getD []
    emitted.2.zipIdx.map fun (value, i) =>
      match value.isNull, (ids[i]?).join with
      | true, some id => input[id]?.getD .null
      | _, _ => value

/-- `take_output`: the emits of the block in input order, as rows. -/
def takeOutput (ids : List (Option Nat)) (rows : List Row) (emits : Emits) : List Row :=
  (emits.take.mergeSort fun a b => a.1 ≤ b.1).map (outputRow ids emits.columns rows)

/-- `process_block`. -/
def processBlock (r : ReducerEngine) (st : Store) (block : BlockNumber) (rows : List Row) :
    ReducerEngine × Except Error (List Row) :=
  let ids := groupByIds v rows
  let emits : Emits := { columns := r.columns }
  let processed :=
    if v.runtime.batched then processBatched v st block rows ids r emits
    else
      processPerRow v st block ids rows.zipIdx
        { r with blockGroups := r.blockGroups.insertIfNew block [] } emits
  match processed with
  | (r', _, .error e) => ({ r' with columns := r.columns }, .error e)
  | (r', emits, .ok ()) =>
    ({ r' with
        columns := emits.columns
        emitGrowth := if r.columns.length < emits.columns.length then
          r'.emitGrowth.insertIfNew block r.columns.length else r'.emitGrowth },
      .ok (takeOutput ids rows emits))

/-! ## Rollback, finality and checkpoints -/

/-- The rollback of a group. -/
def rollbackGroup (forkPoint : BlockNumber) (g : ReducerGroup) : ReducerGroup :=
  let removed := g.undo.removeAbove forkPoint
  { g with undo := removed.2, state := removed.1.getD g.state, maps := g.maps.rollback forkPoint }

/-- Roll back all blocks after `forkPoint`. -/
def rollback (r : ReducerEngine) (forkPoint : BlockNumber) : ReducerEngine :=
  if forkPoint = BlockNumber.max then r
  else
    let grown := OrdMap.keep r.emitGrowth (forkPoint < ·)
    let rolledBack := OrdMap.keep r.blockGroups (forkPoint < ·)
    { r with
      columns := match (grown.toList.map Prod.snd).head? with
        | some width => r.columns.take width
        | none => r.columns
      emitGrowth := OrdMap.keep r.emitGrowth (· ≤ forkPoint)
      blockGroups := OrdMap.keep r.blockGroups (· ≤ forkPoint)
      all := (rolledBack.toList.flatMap Prod.snd).foldl
        (fun all id => all.modify id (rollbackGroup forkPoint)) r.all }

/-- Drop all in-memory state. -/
def reload (r : ReducerEngine) (st : Store) : ReducerEngine where
  readsStorage := st.storesState v.name
  columns := r.columns.take v.groupBy.length

/-- The finality of a group. -/
def finalizeGroup (block : BlockNumber) (g : ReducerGroup) : ReducerGroup :=
  { g with
    undo := (g.undo.drainUpTo block).2
    maps := g.maps.finalize block
    pendingDurable := true }

/-- Merge the blocks up to `block` into finalized state. -/
def advanceFinality (r : ReducerEngine) (block : BlockNumber) : ReducerEngine :=
  -- `block + 1` wraps at `u64::MAX`
  let finalized := OrdMap.keep r.blockGroups (· < block + 1)
  (finalized.toList.flatMap Prod.snd).foldl (fun r id =>
    match r.all[id]? with
    | none => r
    | some g => { r with
        all := r.all.modify id (finalizeGroup block)
        pendingDurable := if g.pendingDurable then r.pendingDurable else r.pendingDurable ++ [id] })
    { r with blockGroups := OrdMap.keep r.blockGroups (block + 1 ≤ ·) }

/-- The writes of one group. -/
def groupWrites (finalized : BlockNumber) (g : ReducerGroup) : WriteBatch :=
  .setReducerFinalized v.name g.key
      (.values ((g.undo.firstAbove finalized).getD g.state)) ::
    (g.maps.writeCheckpoint finalized).2.map fun (key, value) =>
      match value with
      | some value => .putReducerMapEntry v.name g.key key.1 key.2 (.value value)
      | none => .deleteReducerMapEntry v.name g.key key.1 key.2

/-- A group after its checkpoint. -/
def savedGroup (finalized : BlockNumber) (checkpoint : Nat) (g : ReducerGroup) : ReducerGroup :=
  { g with
    pendingDurable := false
    written := checkpoint
    maps := (g.maps.writeCheckpoint finalized).1 }

/-- Write the state as of `finalized` of every group in `pendingDurable`. -/
def writeCheckpoint (r : ReducerEngine) (finalized : BlockNumber) (checkpoint : Nat) :
    ReducerEngine × WriteBatch :=
  r.pendingDurable.foldl (fun s id =>
    match s.1.all[id]? with
    | none => s
    | some g =>
      ({ s.1 with all := s.1.all.modify id (savedGroup finalized checkpoint) },
        s.2 ++ groupWrites v finalized g))
    ({ r with pendingDurable := [] }, [])

/-! ## Eviction -/

/-- Which of the groups leave, in order. -/
def leaving (committed : Nat) : Victims → List ReducerGroup → List Bool
  | _, [] => []
  | victims, g :: gs =>
    if g.stored committed then
      let picked := victims.pick g.written
      picked.1 :: leaving committed picked.2 gs
    else false :: leaving committed victims gs

/-- The groups that stay. -/
def staying : List ReducerGroup → List Bool → List ReducerGroup
  | g :: gs, leaves :: rest => if leaves then staying gs rest else g :: staying gs rest
  | _, _ => []

/-- `new_ids`: the position of a group among those that stay; none if it leaves. -/
def newId (leave : List Bool) (id : Nat) : Option Nat :=
  match leave[id]? with
  | some false => some ((leave.take id).count false)
  | _ => none

/-- `Groups::evict`, and the new ids of the groups that are pinned: one that left would get
`usize::MAX`. -/
def evictGroups (r : ReducerEngine) (leave : List Bool) : ReducerEngine :=
  let pinned (id : Nat) : Nat := (newId leave id).getD 18446744073709551615
  { r with
    all := staying r.all leave
    ids := OrdMap.mapEntries r.ids fun _ id => newId leave id
    blockGroups := OrdMap.mapEntries r.blockGroups fun _ ids => some (ids.map pinned)
    pendingDurable := r.pendingDurable.map pinned
    readsStorage := true }

/-- Once more than `cap` groups are in memory, drop those that storage holds. -/
def evict (r : ReducerEngine) (cap committed : Nat) : ReducerEngine :=
  let count := r.eviction.due r.all.length cap committed
  if count = 0 then r
  else
    let written := (r.all.filter (·.stored committed)).map ReducerGroup.written
    let r' := match Victims.new written count with
      | none => r
      | some victims => r.evictGroups (leaving committed victims r.all)
    { r' with eviction := Eviction.done r'.all.length cap committed }

end ReducerEngine

end Settle
