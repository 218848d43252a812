import Settle.Engine.Dag
import Settle.Storage.Format
import Settle.Storage.RawReads

/-!
# Opening the pipeline

`SettleEngine::new` of `src/engine/dag.rs`, the restore of the watermarks of a reopened store, and
the replay of the blocks above the durable one.

A replay reads the raw rows of each table a part at a time (`ReplayCursor`) and feeds the blocks
of all tables in ascending order. `replayLoop` is that loop over any read of raw rows and any
state that takes the rows of a block. It runs on fuel, one unit for each block that it feeds.
-/

namespace Settle

open Std

/-- How the engine makes its nodes, and how an MV takes a replayed block. -/
class NodeBuild (R V : Type) where
  /-- `ReducerEngine::new`: the source is a raw table -/
  newReducer : ReducerDef → Store → ColumnRegistry → List (String × String) → Except Error R
  /-- the source is another reducer -/
  newChained : ReducerDef → Store → List (String × String) → Except Error R
  /-- `MVEngine::new`, with the types of the columns of its source -/
  newView : MVDef → Store → FxHashMap String ColumnType → Except Error V
  replayBlock : V → Store → BlockNumber → List Row → Except Error V

/-! ## Building -/

/-- The column types of each table. -/
def Schema.tableColumnTypes (schema : Schema) : FxHashMap String (FxHashMap String ColumnType) :=
  ExtTreeMap.ofList (schema.tables.map fun t =>
    (t.name, ExtTreeMap.ofList (t.columns.map fun c => (c.name, c.columnType)) compare)) compare

/-- The column types of the rows that a reducer emits: its state, and its keys if its source is
a table. -/
def Schema.reducerOutput (schema : Schema) (r : ReducerDef) : FxHashMap String ColumnType :=
  let fields : FxHashMap String ColumnType :=
    ExtTreeMap.ofList ((r.state.filter (!·.map)).map fun s => (s.name, s.columnType)) compare
  match schema.tableColumnTypes[r.source]? with
  | none => fields
  | some columns =>
    r.groupBy.foldl (fun fields column =>
      match columns[column]? with
      | some columnType => fields.insert column columnType
      | none => fields) fields

def Schema.reducerColumnTypes (schema : Schema) : FxHashMap String (FxHashMap String ColumnType) :=
  ExtTreeMap.ofList (schema.reducers.map fun r => (r.name, schema.reducerOutput r)) compare

/-- The column types of the source of an MV: a table before a reducer. -/
def Schema.sourceColumnTypes (schema : Schema) (source : String) : FxHashMap String ColumnType :=
  ((schema.tableColumnTypes[source]?).or schema.reducerColumnTypes[source]?).getD ∅

/-- One `retain` of the reducers that wait for their source: those that are ready, in order, and
those that still wait. -/
def emitReady (schema : Schema) : List String → List String → List String × List String
  | [], emitted => (emitted, [])
  | name :: rest, emitted =>
    let source := ((schema.reducers.find? (·.name == name)).map ReducerDef.source).getD ""
    if (schema.tables.map TableDef.name).contains source || emitted.contains source then
      emitReady schema rest (emitted ++ [name])
    else
      let r := emitReady schema rest emitted
      (r.1, name :: r.2)

/-- The rounds of `emitReady`, until one makes no progress. -/
def emitReducers (schema : Schema) : Nat → List String → List String → List String
  | 0, _, emitted => emitted
  | fuel + 1, remaining, emitted =>
    let r := emitReady schema remaining emitted
    if r.2.isEmpty || r.2.length == remaining.length then r.1
    else emitReducers schema fuel r.2 r.1

/-- `build_pipeline`: the tables, the reducers after their sources, and the MVs, those of tables
before those of reducers. -/
def buildPipeline (schema : Schema) : List PipelineNode :=
  let tables := schema.tables.map TableDef.name
  let ofTable := schema.materializedViews.partition fun d => tables.contains d.source
  tables.map .rawTable ++
    (emitReducers schema schema.reducers.length (schema.reducers.map ReducerDef.name) []).map
      .reducer ++
    ofTable.1.map (fun d => .mv d.name) ++ ofTable.2.map fun d => .mv d.name

namespace SettleEngine

variable {R V : Type} [ReducerNode R] [ViewNode V] [NodeBuild R V]

def newRawTables (schema : Schema) : FxHashMap String RawTableEngine :=
  ExtTreeMap.ofList (schema.tables.map fun t =>
    (t.name, { name := t.name, registry := ⟨t.columns.map ColumnDef.name⟩ })) compare

/-- The reducers of the schema. The first that cannot be built is the error. -/
def newReducers (schema : Schema) (store : Store) (rawTables : FxHashMap String RawTableEngine) :
    Except Error (FxHashMap String R) :=
  let modules := schema.modules.map fun m => (m.name, m.script)
  schema.reducers.foldlM (fun reducers d => do
    let reducer ← match rawTables[d.source]? with
      | some raw => NodeBuild.newReducer V d store raw.registry modules
      | none => NodeBuild.newChained V d store modules
    .ok (reducers.insert d.name reducer)) ∅

/-- The MVs of the schema, each with its stored state. -/
def newMvs (schema : Schema) (store : Store) : Except Error (FxHashMap String V) :=
  schema.materializedViews.foldlM (fun mvs d => do
    let mv ← NodeBuild.newView R d store (schema.sourceColumnTypes d.source)
    .ok (mvs.insert d.name mv)) ∅

/-- `SettleEngine::new`. -/
def new (schema : Schema) (store : Store) (rayon : Bool) : Except Error (SettleEngine R V) := do
  let rawTables := newRawTables schema
  let reducers ← newReducers (R := R) (V := V) schema store rawTables
  let mvs ← newMvs (R := R) (V := V) schema store
  let pipeline := buildPipeline schema
  let mvsOf (name : String) : List String := pipeline.filterMap fun node =>
    match node with
    | .mv mv => if (mvs[mv]?.map ViewNode.source) = some name then some mv else none
    | _ => none
  .ok {
    rawTables := rawTables
    virtualTables := ExtTreeSet.ofList
      ((schema.tables.filter TableDef.virtualTable).map TableDef.name) compare
    pipeline := pipeline
    directMvs := pipeline.filterMap fun node =>
      match node with
      | .mv mv =>
        match mvs[mv]? with
        | some v => if reducers.contains (ViewNode.source v) then none else some mv
        | none => none
      | _ => none
    branches := pipeline.filterMap fun node =>
      match node with
      | .reducer name => some (name, mvsOf name)
      | _ => none
    nodes := { reducers := reducers, mvs := mvs }
    rayon := rayon
    deferAllowed := mvs.toList.all fun (_, v) => !ViewNode.isSliding v }

/-! ## Restoring -/

def setLatestBlock (e : SettleEngine R V) (block : BlockNumber) : SettleEngine R V :=
  { e with latestBlock := some block }

/-- Restore the durable block of a reopened store, with finality at it. -/
def restoreDurableBlock (e : SettleEngine R V) (block : BlockNumber) : SettleEngine R V :=
  { e with finalizedBlock := block, durableBlock := some block, hasFinalized := true }

def restoreBlockHashes (e : SettleEngine R V) (hashes : BTreeMap BlockNumber String) :
    SettleEngine R V :=
  { e with blockHashes := hashes }

/-- Restore the finality of a reopened store, after the replay of the blocks above the durable
block. While an external reducer has no callback, the nodes stay final at the durable block. -/
def restoreFinality (e : SettleEngine R V) (block : BlockNumber) : SettleEngine R V :=
  let skipped := match e.durableBlock, e.latestBlock with
    | some durable, some latest => decide (durable < min latest block)
    | _, _ => false
  if !skipped || e.reducerWithoutCallback.isNone then e.advanceFinality block
  else { e with nodesFinalAt := e.durableBlock, finalizedBlock := block }.pruneBlockHashes

end SettleEngine

/-! ## Replay -/

/-- The raw rows of one table during replay, read a part at a time. -/
structure ReplayCursor where
  table : String
  /-- the first block of the next read; none once the range is read -/
  nextFrom : Option BlockNumber
  rows : List (BlockNumber × List Row) := []

/-- A read of the rows of a table: from a block to a block, of at most so many blocks. -/
abbrev RawReader :=
  String → BlockNumber → BlockNumber → Nat → Except Error (List (BlockNumber × List Row))

namespace ReplayCursor

/-- Read the next part when the rows of the last one are used up. -/
def refill (read : RawReader) (readBlocks : Nat) (toBlock : BlockNumber) (c : ReplayCursor) :
    Except Error ReplayCursor :=
  match c.nextFrom, c.rows with
  | some fromBlock, [] => do
    let part ← read c.table fromBlock toBlock readBlocks
    .ok { c with
      nextFrom := match part.getLast? with
        | some (last, _) =>
          if part.length = readBlocks ∧ last < toBlock then some (last + 1) else none
        | none => none
      rows := part }
  | _, _ => .ok c

def frontBlock (c : ReplayCursor) : Option BlockNumber := c.rows.head?.map Prod.fst

end ReplayCursor

section Loop

variable {σ : Type} (feed : σ → String → BlockNumber → List Row → Except Error σ)

/-- Feed the rows of every cursor that stands at `block`. -/
def feedBlock (block : BlockNumber) : List ReplayCursor → σ → Except Error (List ReplayCursor × σ)
  | [], s => .ok ([], s)
  | c :: rest, s =>
    match c.rows with
    | (b, rows) :: more =>
      if b = block then do
        let s ← feed s c.table block rows
        let r ← feedBlock block rest s
        .ok ({ c with rows := more } :: r.1, r.2)
      else do
        let r ← feedBlock block rest s
        .ok (c :: r.1, r.2)
    | [] => do
      let r ← feedBlock block rest s
      .ok (c :: r.1, r.2)

/-- The loop of `replay_unfinalized_inner`: each block in order, with the rows of every table
that has data in it. None if the fuel ends first. -/
def replayLoop (read : RawReader) (readBlocks : Nat) (toBlock : BlockNumber) :
    Nat → List ReplayCursor → σ → Option (Except Error σ)
  | 0, _, _ => none
  | fuel + 1, cursors, s =>
    match cursors.mapM (ReplayCursor.refill read readBlocks toBlock) with
    | .error e => some (.error e)
    | .ok cursors =>
      match (cursors.filterMap ReplayCursor.frontBlock).min? with
      | none => some (.ok s)
      | some block =>
        match feedBlock feed block cursors s with
        | .error e => some (.error e)
        | .ok (cursors, s) => replayLoop read readBlocks toBlock fuel cursors s

/-- `replay_unfinalized_inner` over some tables. -/
def replayTables (read : RawReader) (readBlocks : Nat) (fuel : Nat) (tables : List String)
    (fromBlock toBlock : BlockNumber) (s : σ) : Option (Except Error σ) :=
  if toBlock < fromBlock then some (.ok s)
  else
    replayLoop feed read readBlocks toBlock fuel
      (tables.map fun table => { table, nextFrom := some fromBlock }) s

end Loop

/-- Replay reads the raw rows of each table this many blocks at a time. -/
def replayReadBlocks : Nat := 64

namespace Nodes

variable {R V : Type} [ReducerNode R] [ViewNode V] [NodeBuild R V]

/-- `replay_table_block`: the rows of one table at a block through the reducers and MVs, with no
change records. An external reducer without a callback produces nothing. -/
def replayTableBlock (store : Store) (block : BlockNumber) (onlyNodes : Option (List String)) :
    List PipelineNode → Nodes R V → OutputRows → Except Error (Nodes R V)
  | [], nodes, _ => .ok nodes
  | .rawTable _ :: rest, nodes, outputRows =>
    replayTableBlock store block onlyNodes rest nodes outputRows
  | .reducer name :: rest, nodes, outputRows =>
    if onlyNodes.any (!·.contains name) then
      replayTableBlock store block onlyNodes rest nodes outputRows
    else if (nodes.reducers[name]?.map ReducerNode.needsHostCallback).getD false then
      replayTableBlock store block onlyNodes rest nodes outputRows
    else
      match nodes.processReducer store block name outputRows with
      | (_, .error e) => .error e
      | (nodes, .ok enriched) =>
        let outputRows := if enriched.isEmpty then outputRows else outputRows.insert name enriched
        replayTableBlock store block onlyNodes rest nodes outputRows
  | .mv name :: rest, nodes, outputRows =>
    if onlyNodes.any (!·.contains name) then
      replayTableBlock store block onlyNodes rest nodes outputRows
    else
      match nodes.mvs[name]? with
      | none => replayTableBlock store block onlyNodes rest nodes outputRows
      | some mv =>
        match outputRows[ViewNode.source mv]? with
        | none => replayTableBlock store block onlyNodes rest nodes outputRows
        | some rows => do
          let mv ← NodeBuild.replayBlock R mv store block rows
          replayTableBlock store block onlyNodes rest
            { nodes with mvs := nodes.mvs.insert name mv } outputRows

end Nodes

namespace SettleEngine

variable {R V : Type} [ReducerNode R] [ViewNode V] [NodeBuild R V]

/-- `RawTableEngine::get_rows` of a table of the engine, with the memory backend. -/
def readRows (e : SettleEngine R V) (store : Store) : RawReader :=
  fun table fromBlock toBlock maxBlocks =>
    match e.rawTables[table]? with
    | none => .ok []
    | some raw =>
      (store.getRawRowsLimited raw.name fromBlock toBlock maxBlocks).mapM fun (block, data) => do
        let rows ← decodeRows raw.registry data
        .ok (block, rows)

/-- `replay_unfinalized`: replay the blocks of a range from the raw rows in storage. Every round
feeds a stored block, so the fuel does not end. -/
def replayUnfinalized (e : SettleEngine R V) (store : Store) (fromBlock toBlock : BlockNumber) :
    Except Error (SettleEngine R V) := do
  let feed (nodes : Nodes R V) (table : String) (block : BlockNumber) (rows : List Row) :=
    Nodes.replayTableBlock store block none e.pipeline nodes
      ((∅ : Nodes.OutputRows).insert table rows)
  let nodes ← (replayTables feed (e.readRows store) replayReadBlocks (store.raw.size + 1)
    (e.rawTables.toList.map Prod.fst) fromBlock toBlock e.nodes).getD (.ok e.nodes)
  .ok { e with nodes := nodes }

/-! ## The replay of a chain -/

/-- `replay_unfinalized_inner`. -/
def replayUnfinalizedInner (e : SettleEngine R V) (store : Store) (fromBlock toBlock : BlockNumber)
    (onlyNodes : Option (List String)) : Except Error (SettleEngine R V) := do
  let feed (nodes : Nodes R V) (table : String) (block : BlockNumber) (rows : List Row) :=
    Nodes.replayTableBlock store block onlyNodes e.pipeline nodes
      ((∅ : Nodes.OutputRows).insert table rows)
  let nodes ← (replayTables feed (e.readRows store) replayReadBlocks (store.raw.size + 1)
    (e.rawTables.toList.map Prod.fst) fromBlock toBlock e.nodes).getD (.ok e.nodes)
  .ok { e with nodes := nodes }

theorem replayUnfinalized_inner (e : SettleEngine R V) (store : Store)
    (fromBlock toBlock : BlockNumber) :
    e.replayUnfinalized store fromBlock toBlock
      = e.replayUnfinalizedInner store fromBlock toBlock none :=
  rfl

/-- The reducers that feed a reducer, the closest first. Each is before the one that it feeds in
the pipeline, so a fuel of its length does not end. -/
def upstream (e : SettleEngine R V) : Nat → String → List String
  | 0, _ => []
  | fuel + 1, name =>
    match e.nodes.sourceOf (.reducer name) with
    | some source =>
      if e.nodes.reducers.contains source then source :: e.upstream fuel source else []
    | none => []

/-- One node of the loop over the reducers downstream. -/
def addBelow (e : SettleEngine R V) (downstream : List String) : PipelineNode → List String
  | .reducer name =>
    if (e.nodes.sourceOf (.reducer name)).any (downstream.contains ·) then downstream ++ [name]
    else downstream
  | _ => downstream

/-- A reducer and those below it. The pipeline lists each reducer after its source. -/
def downstream (e : SettleEngine R V) (name : String) : List String :=
  e.pipeline.foldl e.addBelow [name]

/-- The views of some reducers. -/
def viewsOf (e : SettleEngine R V) (reducers : List String) : List String :=
  e.pipeline.filterMap fun node =>
    match node with
    | .mv v => if (e.nodes.sourceOf (.mv v)).any (reducers.contains ·) then some v else none
    | _ => none

/-- The nodes that `replay_reducer_chain` rolls back, in its order. -/
def chainOrder (e : SettleEngine R V) (name : String) : List PipelineNode :=
  (e.upstream e.pipeline.length name ++ e.downstream name).map .reducer ++
    (e.viewsOf (e.downstream name)).map .mv

/-- The names of these nodes. -/
def chainNames (e : SettleEngine R V) (name : String) : List String :=
  e.upstream e.pipeline.length name ++ e.downstream name ++ e.viewsOf (e.downstream name)

/-- The rollbacks of `replay_reducer_chain`. The records of the views go nowhere. -/
def rolledBackChain (e : SettleEngine R V) (name : String) (p : BlockNumber) : Nodes R V :=
  (Nodes.stepNodes (fun r => (ReducerNode.rollback r p, []))
    (fun v => ((ViewNode.rollback v p).1, [])) (e.chainOrder name) e.nodes).1

/-- `replay_reducer_chain`: rebuild the unfinalized state of a reducer, of what feeds it and of what
depends on it. -/
def replayReducerChain (e : SettleEngine R V) (store : Store) (name : String)
    (finalized latest : BlockNumber) : Except Error (SettleEngine R V) :=
  if !e.nodes.reducers.contains name then
    .error (.invalidOperation ("replay: unknown reducer '" ++ name ++ "'"))
  else if latest ≤ finalized then .ok e
  else
    { e with nodes := e.rolledBackChain name finalized }.replayUnfinalizedInner store
      (finalized + 1) latest (some (e.chainNames name))

end SettleEngine

/-- A pipeline without derived nodes is built from tables only. -/
instance : NodeBuild Empty Empty where
  newReducer d _ _ _ := .error (.reducer d.name)
  newChained d _ _ := .error (.reducer d.name)
  newView d _ _ := .error (.invalidOperation d.name)
  replayBlock := nofun

end Settle
