import Settle.Db.Calls
import Settle.Engine.RawTable

/-!
# The pipeline

`SettleEngine` of `src/engine/dag.rs`: the graph of raw tables, reducers and materialized views
(MVs), the blocks and hashes that it has on record, and the finality and durable watermarks.

The engine is generic in its nodes. `ReducerNode` and `ViewNode` list the calls that it makes to
them; a node may read the committed store, and what it writes are states of its own. The nodes
stand in maps by name. The source keeps a reducer and the MVs below it in a `PipelineBranch`,
and the others in maps: here a branch lists the names of its nodes.
-/

namespace Settle

open Std

/-- A write of the state of a reducer or an MV. -/
def BatchOp.isNodeState {D : Type} : BatchOp D → Bool
  | .setReducerFinalized .. | .putReducerMapEntry .. | .deleteReducerMapEntry ..
  | .putMvState .. | .deleteMvState .. => true
  | _ => false

theorem BatchOp.isNodeData_of_isNodeState {D : Type} {op : BatchOp D} (h : op.isNodeState) :
    op.isNodeData := by
  cases op <;> first | rfl | cases h

/-- The calls of the engine to a reducer. -/
class ReducerNode (R : Type) where
  source : R → String
  isExternal : R → Bool
  /-- external, and no callback is attached -/
  needsHostCallback : R → Bool
  /-- the emitted rows -/
  processBlock : R → Store → BlockNumber → List Row → R × Except Error (List Row)
  rollback : R → BlockNumber → R
  reload : R → Store → R
  advanceFinality : R → BlockNumber → R
  writeCheckpoint : R → BlockNumber → Nat → R × WriteBatch
  evict : R → Nat → Nat → R
  writeCheckpoint_state : ∀ r finalized checkpoint,
    ∀ op ∈ (writeCheckpoint r finalized checkpoint).2, op.isNodeState

/-- The calls of the engine to a materialized view. -/
class ViewNode (V : Type) where
  source : V → String
  isSliding : V → Bool
  applyRows : V → Store → BlockNumber → List Row → V × Except Error Unit
  takeChanges : V → V × List ChangeRecord
  discardChanges : V → V
  rollback : V → BlockNumber → V × List ChangeRecord
  reload : V → Store → V × Except Error Unit
  advanceFinality : V → BlockNumber → V
  writeCheckpoint : V → Nat → V × WriteBatch
  evict : V → Nat → Nat → V
  writeCheckpoint_state : ∀ v checkpoint, ∀ op ∈ (writeCheckpoint v checkpoint).2, op.isNodeState

/-- Processing order node. -/
inductive PipelineNode where
  | rawTable (name : String)
  | reducer (name : String)
  | mv (name : String)
deriving DecidableEq

/-- The reducers and MVs of a pipeline, by name. -/
structure Nodes (R V : Type) where
  reducers : FxHashMap String R := ∅
  mvs : FxHashMap String V := ∅

/-- `SettleEngine`. -/
structure SettleEngine (R V : Type) where
  rawTables : FxHashMap String RawTableEngine
  virtualTables : FxHashSet String
  /-- topologically sorted -/
  pipeline : List PipelineNode
  /-- MVs that source from raw tables -/
  directMvs : List String
  /-- each reducer with the MVs below it -/
  branches : List (String × List String)
  nodes : Nodes R V
  /-- the `rayon` feature -/
  rayon : Bool
  latestBlock : Option BlockNumber := none
  finalizedBlock : BlockNumber := 0
  /-- the highest block whose derived state is on disk -/
  durableBlock : Option BlockNumber := none
  rawRetentionBlocks : UInt64 := 1000
  /-- the highest block whose raw rows a write batch deletes -/
  rawPurgedThrough : Option BlockNumber := none
  deferAllowed : Bool
  /-- the durable block, while an open waits for callbacks below finality -/
  nodesFinalAt : Option BlockNumber := none
  hasFinalized : Bool := false
  blockHashes : BTreeMap BlockNumber String := ∅
  /-- blocks whose hash changed since the last `takeHashChanges` -/
  hashChanges : FxHashSet BlockNumber := ∅
  checkpoints : Nat := 0
  committedCheckpoint : Nat := 0
  maxResidentGroups : Nat := 1000000

variable {R V : Type} [ReducerNode R] [ViewNode V]

/-! ## Processing -/

namespace Nodes

/-- The rows that the nodes of a block read: those of its table, and what reducers emitted. -/
abbrev OutputRows := FxHashMap String (List Row)

/-- A reducer on the rows of its source. -/
def processReducer (nodes : Nodes R V) (store : Store) (block : BlockNumber) (name : String)
    (outputRows : OutputRows) : Nodes R V × Except Error (List Row) :=
  match nodes.reducers[name]? with
  | none => (nodes, .ok [])
  | some reducer =>
    match outputRows[ReducerNode.source reducer]? with
    | none => (nodes, .ok [])
    | some rows =>
      let r := ReducerNode.processBlock reducer store block rows
      ({ nodes with reducers := nodes.reducers.insert name r.1 }, r.2)

/-- An MV on the rows of its source. -/
def processMv (nodes : Nodes R V) (store : Store) (block : BlockNumber) (name : String)
    (outputRows : OutputRows) : Nodes R V × Except Error Unit :=
  match nodes.mvs[name]? with
  | none => (nodes, .ok ())
  | some mv =>
    match outputRows[ViewNode.source mv]? with
    | none => (nodes, .ok ())
    | some rows =>
      let r := ViewNode.applyRows mv store block rows
      ({ nodes with mvs := nodes.mvs.insert name r.1 }, r.2)

/-- The sequential loop over the pipeline. It stops at the first node that fails. -/
def processSequential (store : Store) (block : BlockNumber) : List PipelineNode → Nodes R V →
    OutputRows → Nodes R V × Except Error Unit
  | [], nodes, _ => (nodes, .ok ())
  | .rawTable _ :: rest, nodes, outputRows => processSequential store block rest nodes outputRows
  | .reducer name :: rest, nodes, outputRows =>
    match nodes.processReducer store block name outputRows with
    | (nodes, .error e) => (nodes, .error e)
    | (nodes, .ok enriched) =>
      let outputRows := if enriched.isEmpty then outputRows else outputRows.insert name enriched
      processSequential store block rest nodes outputRows
  | .mv name :: rest, nodes, outputRows =>
    match nodes.processMv store block name outputRows with
    | (nodes, .error e) => (nodes, .error e)
    | (nodes, .ok ()) => processSequential store block rest nodes outputRows

/-- Some MVs on the same rows, in order. It stops at the first that fails. -/
def processMvs (store : Store) (block : BlockNumber) (outputRows : OutputRows) :
    List String → Nodes R V → Nodes R V × Except Error Unit
  | [], nodes => (nodes, .ok ())
  | name :: rest, nodes =>
    match nodes.processMv store block name outputRows with
    | (nodes, .error e) => (nodes, .error e)
    | (nodes, .ok ()) => processMvs store block outputRows rest nodes

/-- `PipelineBranch::process_block`: run the reducer on its source rows and feed its output to
the MVs of the branch. -/
def processBranch (store : Store) (block : BlockNumber) (outputRows : OutputRows)
    (branch : String × List String) (nodes : Nodes R V) : Nodes R V × Except Error Unit :=
  match nodes.processReducer store block branch.1 outputRows with
  | (nodes, .error e) => (nodes, .error e)
  | (nodes, .ok enriched) =>
    if enriched.isEmpty then (nodes, .ok ())
    else
      processMvs store block ((∅ : OutputRows).insert branch.1 enriched) branch.2 nodes

/-- The branches, each on its own nodes: every branch runs, and the error is that of the first
branch in order that failed. -/
def processBranches (store : Store) (block : BlockNumber) (outputRows : OutputRows) :
    List (String × List String) → Nodes R V → Nodes R V × Except Error Unit
  | [], nodes => (nodes, .ok ())
  | branch :: rest, nodes =>
    let r := processBranch store block outputRows branch nodes
    let r' := processBranches store block outputRows rest r.1
    (r'.1, match r.2 with
      | .error e => .error e
      | .ok () => r'.2)

/-- The parallel path: the direct MVs, then the branches. -/
def processParallel (store : Store) (block : BlockNumber) (directMvs : List String)
    (branches : List (String × List String)) (outputRows : OutputRows) (nodes : Nodes R V) :
    Nodes R V × Except Error Unit :=
  match processMvs store block outputRows directMvs nodes with
  | (nodes, .error e) => (nodes, .error e)
  | (nodes, .ok ()) => processBranches store block outputRows branches nodes

/-- One step on a node, with what it writes. -/
def stepNode (reducer : R → R × WriteBatch) (mv : V → V × WriteBatch) (nodes : Nodes R V) :
    PipelineNode → Nodes R V × WriteBatch
  | .rawTable _ => (nodes, [])
  | .reducer name =>
    match nodes.reducers[name]? with
    | none => (nodes, [])
    | some r => ({ nodes with reducers := nodes.reducers.insert name (reducer r).1 }, (reducer r).2)
  | .mv name =>
    match nodes.mvs[name]? with
    | none => (nodes, [])
    | some v => ({ nodes with mvs := nodes.mvs.insert name (mv v).1 }, (mv v).2)

/-- One step on each of some nodes. -/
def stepNodes (reducer : R → R × WriteBatch) (mv : V → V × WriteBatch) :
    List PipelineNode → Nodes R V → Nodes R V × WriteBatch
  | [], nodes => (nodes, [])
  | node :: rest, nodes =>
    let r := nodes.stepNode reducer mv node
    let r' := stepNodes reducer mv rest r.1
    (r'.1, r.2 ++ r'.2)

/-- The source of a node. -/
def sourceOf (nodes : Nodes R V) : PipelineNode → Option String
  | .rawTable _ => none
  | .reducer name => nodes.reducers[name]?.map ReducerNode.source
  | .mv name => nodes.mvs[name]?.map ViewNode.source

end Nodes

namespace SettleEngine

/-- Whether the branches process in parallel: two or more, all reducers source from raw tables
and none is external. -/
def parallelBranches (e : SettleEngine R V) : Bool :=
  e.rayon && decide (2 ≤ e.branches.length) && e.branches.all fun branch =>
    match e.nodes.reducers[branch.1]? with
    | some r => e.rawTables.contains (ReducerNode.source r) && !ReducerNode.isExternal r
    | none => true

/-- `process_batch_inner` with a write batch. -/
def processBatchDeferred (e : SettleEngine R V) (store : Store) (table : String)
    (block : BlockNumber) (rows : List Row) :
    SettleEngine R V × WriteBatch × Except Error (List ChangeRecord) :=
  match e.rawTables[table]? with
  | none => (e, [], .error (.invalidOperation ("unknown table: " ++ table)))
  | some raw =>
    let ingested := raw.ingestToBatch block rows (e.virtualTables.contains table)
    let outputRows : Nodes.OutputRows := (∅ : Nodes.OutputRows).insert table rows
    let processed :=
      if e.parallelBranches then
        Nodes.processParallel store block e.directMvs e.branches outputRows e.nodes
      else Nodes.processSequential store block e.pipeline e.nodes outputRows
    match processed with
    | (nodes, .error err) => ({ e with nodes := nodes }, ingested.1, .error err)
    | (nodes, .ok ()) =>
      ({ e with
          nodes := nodes
          latestBlock := some (match e.latestBlock with
            | some latest => max latest block
            | none => block)
          -- the state of this block is not on disk
          durableBlock := match e.durableBlock with
            | some d =>
              if block ≤ d then (if block = 0 then none else some (block - 1)) else some d
            | none => none },
        ingested.1, .ok ingested.2)

/-- The names of the MVs, in pipeline order. -/
def mvNames (e : SettleEngine R V) : List String :=
  e.pipeline.filterMap fun node =>
    match node with
    | .mv name => some name
    | _ => none

/-- The MV changes of some views. -/
def takeChangesOf : List String → Nodes R V → Nodes R V × List ChangeRecord
  | [], nodes => (nodes, [])
  | name :: rest, nodes =>
    match nodes.mvs[name]? with
    | none => takeChangesOf rest nodes
    | some mv =>
      let r := ViewNode.takeChanges mv
      let r' := takeChangesOf rest { nodes with mvs := nodes.mvs.insert name r.1 }
      (r'.1, r.2 ++ r'.2)

/-- The MV changes of the blocks processed since the last call, in pipeline order. -/
def takeChanges (e : SettleEngine R V) : SettleEngine R V × List ChangeRecord :=
  let r := takeChangesOf e.mvNames e.nodes
  ({ e with nodes := r.1 }, r.2)

/-- Forget the MV changes of a failed ingest. -/
def discardChanges (e : SettleEngine R V) : SettleEngine R V :=
  { e with
    nodes := (Nodes.stepNodes (fun r => (r, [])) (fun v => (ViewNode.discardChanges v, []))
      (e.mvNames.map .mv) e.nodes).1 }

/-! ## Rollback -/

/-- Err if a rollback to `forkPoint` is not allowed. Above the latest block it does nothing. -/
def checkRollbackTarget (e : SettleEngine R V) (forkPoint : BlockNumber) : Except Error Unit :=
  if e.latestBlock.getD 0 < forkPoint then .ok ()
  else if forkPoint < e.finalizedBlock then
    .error (.invalidOperation ("rollback target block " ++ toString forkPoint.toNat ++
      " is below finalized block " ++ toString e.finalizedBlock.toNat ++
      " — finalized state is irreversible"))
  else .ok ()

/-- The loop of `unwind_to`: it stops at the first raw table whose rows it cannot read. -/
def unwindNodes (e : SettleEngine R V) (store : Store) (pending : List WriteBatch)
    (forkPoint : BlockNumber) : List PipelineNode → Nodes R V →
    Nodes R V × WriteBatch × Except Error (List ChangeRecord)
  | [], nodes => (nodes, [], .ok [])
  | .mv name :: rest, nodes =>
    match nodes.mvs[name]? with
    | none => unwindNodes e store pending forkPoint rest nodes
    | some mv =>
      let r := ViewNode.rollback mv forkPoint
      match unwindNodes e store pending forkPoint rest
          { nodes with mvs := nodes.mvs.insert name r.1 } with
      | (nodes, writes, .ok changes) => (nodes, writes, .ok (r.2 ++ changes))
      | (nodes, writes, .error err) => (nodes, writes, .error err)
  | .reducer name :: rest, nodes =>
    match nodes.reducers[name]? with
    | none => unwindNodes e store pending forkPoint rest nodes
    | some reducer =>
      unwindNodes e store pending forkPoint rest
        { nodes with reducers := nodes.reducers.insert name (ReducerNode.rollback reducer forkPoint) }
  | .rawTable name :: rest, nodes =>
    match e.rawTables[name]? with
    | none => unwindNodes e store pending forkPoint rest nodes
    | some raw =>
      match raw.rollbackToBatch store pending forkPoint with
      | (writes, .error err) => (nodes, writes, .error err)
      | (writes, .ok changes) =>
        match unwindNodes e store pending forkPoint rest nodes with
        | (nodes, writes', .ok changes') =>
          (nodes, writes ++ writes',
            .ok ((if e.virtualTables.contains name then [] else changes) ++ changes'))
        | (nodes, writes', .error err) => (nodes, writes ++ writes', .error err)

/-- Roll every pipeline node back to `forkPoint`, in reverse pipeline order, and make it the
latest block. -/
def unwindTo (e : SettleEngine R V) (store : Store) (pending : List WriteBatch)
    (forkPoint : BlockNumber) : SettleEngine R V × WriteBatch × Except Error (List ChangeRecord) :=
  match e.unwindNodes store pending forkPoint e.pipeline.reverse e.nodes with
  | (nodes, writes, .error err) => ({ e with nodes := nodes }, writes, .error err)
  | (nodes, writes, .ok changes) =>
    ({ e with nodes := nodes, latestBlock := some forkPoint }, writes, .ok changes)

/-- Drop the hashes from `block` on. -/
def dropHashes (e : SettleEngine R V) (block : BlockNumber) : SettleEngine R V :=
  { e with
    blockHashes := OrdMap.keep e.blockHashes (· < block)
    hashChanges := ((e.blockHashes.toList.map Prod.fst).filter (block ≤ ·)).foldl
      (fun changes b => changes.insert b) e.hashChanges }

/-- `rollback_inner`: the hashes above `fork_point` go with its blocks. -/
def rollbackToBatch (e : SettleEngine R V) (store : Store) (pending : List WriteBatch)
    (forkPoint : BlockNumber) : SettleEngine R V × WriteBatch × Except Error (List ChangeRecord) :=
  match e.checkRollbackTarget forkPoint with
  | .error err => (e, [], .error err)
  | .ok () =>
    if e.latestBlock.getD 0 < forkPoint then (e, [], .ok [])
    else
      match e.unwindTo store pending forkPoint with
      | (e, writes, .error err) => (e, writes, .error err)
      -- `fork_point + 1` wraps at `u64::MAX`
      | (e, writes, .ok changes) => (e.dropHashes (forkPoint + 1), writes, .ok changes)

/-- Reload every node from storage. It stops at the first MV that cannot read its state. -/
def reloadNodes (store : Store) : List PipelineNode → Nodes R V → Nodes R V × Except Error Unit
  | [], nodes => (nodes, .ok ())
  | .rawTable _ :: rest, nodes => reloadNodes store rest nodes
  | .reducer name :: rest, nodes =>
    match nodes.reducers[name]? with
    | none => reloadNodes store rest nodes
    | some r =>
      reloadNodes store rest
        { nodes with reducers := nodes.reducers.insert name (ReducerNode.reload r store) }
  | .mv name :: rest, nodes =>
    match nodes.mvs[name]? with
    | none => reloadNodes store rest nodes
    | some v =>
      let r := ViewNode.reload v store
      let nodes := { nodes with mvs := nodes.mvs.insert name r.1 }
      match r.2 with
      | .error e => (nodes, .error e)
      | .ok () => reloadNodes store rest nodes

/-- The order in which the engine visits its nodes: each reducer with the MVs of its branch,
then the other reducers and the other MVs. -/
def nodeOrder (e : SettleEngine R V) : List PipelineNode :=
  e.branches.flatMap (fun branch => .reducer branch.1 :: branch.2.map .mv) ++
    ((e.nodes.reducers.toList.map Prod.fst).filter fun name =>
      !(e.branches.map Prod.fst).contains name).map .reducer ++
    ((e.nodes.mvs.toList.map Prod.fst).filter fun name =>
      !(e.branches.flatMap Prod.snd).contains name).map .mv

/-- Undo the in-memory effects of a failed ingest, back to `block`. -/
def undoIngest (e : SettleEngine R V) (store : Store) (pending : List WriteBatch)
    (block : Option BlockNumber) : SettleEngine R V × Except Error Unit :=
  let e := e.discardChanges
  match block with
  | none =>
    match reloadNodes store e.nodeOrder e.nodes with
    | (nodes, .error err) => ({ e with nodes := nodes }, .error err)
    | (nodes, .ok ()) => ({ e with nodes := nodes, latestBlock := none }, .ok ())
  | some block =>
    if e.latestBlock.getD 0 < block then (e, .ok ())
    else
      match e.unwindTo store pending block with
      | (e, _, .error err) => (e, .error err)
      | (e, _, .ok _) => (e, .ok ())

/-! ## Finality and checkpoints -/

/-- Fork resolution stops at finality: of the hashes below it only those of the durable and of
the latest block stay. -/
def pruneBlockHashes (e : SettleEngine R V) : SettleEngine R V :=
  let kept (block : BlockNumber) : Bool :=
    decide (e.finalizedBlock ≤ block) || e.durableBlock == some block || e.latestBlock == some block
  { e with
    blockHashes := OrdMap.keep e.blockHashes kept
    hashChanges := ((e.blockHashes.toList.map Prod.fst).filter (!kept ·)).foldl
      (fun changes b => changes.insert b) e.hashChanges }

/-- Whether the durable state is at or above `block`. -/
def durableThrough (e : SettleEngine R V) (block : BlockNumber) : Bool :=
  match e.durableBlock with
  | some d => decide (block ≤ d)
  | none => false

/-- Merge every node's blocks up to `block` into finalized state. -/
def advanceFinality (e : SettleEngine R V) (block : BlockNumber) : SettleEngine R V :=
  if e.hasFinalized && block == e.finalizedBlock && e.durableThrough block then e
  else
    pruneBlockHashes
      { e with
        nodes := (Nodes.stepNodes (fun r => (ReducerNode.advanceFinality r block, []))
          (fun v => (ViewNode.advanceFinality v block, [])) e.nodeOrder e.nodes).1
        nodesFinalAt := none
        finalizedBlock := block
        hasFinalized := true }

/-- Delete the raw rows that nothing reads any more, in steps of a tenth of the margin. -/
def purgeRawRows (e : SettleEngine R V) : SettleEngine R V × WriteBatch :=
  match e.durableBlock.bind fun durable =>
      if durable < e.rawRetentionBlocks then none else some (durable - e.rawRetentionBlocks) with
  | none => (e, [])
  | some through =>
    let step := max (e.rawRetentionBlocks / 10) 1
    let delete (fromBlock : BlockNumber) : SettleEngine R V × WriteBatch :=
      ({ e with rawPurgedThrough := some through },
        e.rawTables.toList.map fun (table, _) => .deleteRawRows table fromBlock through)
    match e.rawPurgedThrough with
    | some purged =>
      -- `saturating_add`
      if through.toNat < min (purged.toNat + step.toNat) (2 ^ 64 - 1) then (e, [])
      else delete (purged + 1)
    | none => delete 0

/-- Write the derived state of every block up to finality, and move the durable watermark
there. -/
def writeCheckpoint (e : SettleEngine R V) : SettleEngine R V × WriteBatch :=
  if e.durableThrough e.finalizedBlock then (e, [])
  else
    let checkpoint := e.checkpoints + 1
    let written := Nodes.stepNodes
      (fun r => ReducerNode.writeCheckpoint r e.finalizedBlock checkpoint)
      (fun v => ViewNode.writeCheckpoint v checkpoint) e.nodeOrder e.nodes
    let e := { e with
      checkpoints := checkpoint
      nodes := written.1
      durableBlock := match e.latestBlock with
        | some latest => some (min e.finalizedBlock latest)
        | none => e.durableBlock }
    let purged := e.purgeRawRows
    (purged.1.pruneBlockHashes, written.2 ++ purged.2)

/-- Drop from memory the groups that storage holds. -/
def evictGroups (e : SettleEngine R V) : SettleEngine R V :=
  { e with
    nodes := (Nodes.stepNodes
      (fun r => (ReducerNode.evict r e.maxResidentGroups e.committedCheckpoint, []))
      (fun v => (ViewNode.evict v e.maxResidentGroups e.committedCheckpoint, []))
      e.nodeOrder e.nodes).1 }

/-! ## Block hashes -/

def latestCursor (e : SettleEngine R V) : Option BlockCursor :=
  e.latestBlock.map fun block => { number := block, hash := e.blockHashes[block]?.getD "" }

def finalizedCursor (e : SettleEngine R V) : Option BlockCursor :=
  e.blockHashes[e.finalizedBlock]?.map fun hash => { number := e.finalizedBlock, hash := hash }

/-- Store block hashes from the rollback chain and the finalized head. -/
def setRollbackChain (e : SettleEngine R V) (chain : List (BlockNumber × String)) :
    SettleEngine R V :=
  chain.foldl (fun e (number, hash) =>
    if e.blockHashes[number]? = some hash then e
    else { e with
      blockHashes := e.blockHashes.insert number hash
      hashChanges := e.hashChanges.insert number }) e

/-- The blocks whose hash changed since the last call, each with its hash now. -/
def takeHashChanges (e : SettleEngine R V) :
    SettleEngine R V × List (BlockNumber × Option String) :=
  ({ e with hashChanges := ∅ },
    e.hashChanges.toList.map fun block => (block, e.blockHashes[block]?))

/-- The blocks up to `upTo` whose stored hash differs from the supplied one. -/
def hashConflicts (e : SettleEngine R V) (supplied : List (BlockNumber × String))
    (upTo : BlockNumber) : List BlockNumber :=
  (supplied.filter fun (number, hash) =>
    decide (number ≤ upTo) && match e.blockHashes[number]? with
      | some stored => stored != hash
      | none => false).map Prod.fst

def lowestHashConflict (e : SettleEngine R V) (supplied : List (BlockNumber × String))
    (upTo : BlockNumber) : Option BlockNumber :=
  (e.hashConflicts supplied upTo).min?

/-- The first of the supplied cursors, at or above finality and up to the latest block, whose
hash is on record. -/
def resolveForkCursorBounded (e : SettleEngine R V) (previous : List (BlockNumber × String)) :
    Option BlockCursor :=
  (previous.find? fun (number, hash) =>
    !(decide (e.latestBlock.getD 0 < number) || decide (number < e.finalizedBlock)) &&
      e.blockHashes[number]? == some hash).map fun (number, hash) => { number, hash }

/-! ## Callbacks -/

/-- The first external reducer, in pipeline order, that has no callback. -/
def reducerWithoutCallback (e : SettleEngine R V) : Option String :=
  e.pipeline.findSome? fun node =>
    match node with
    | .reducer name =>
      match e.nodes.reducers[name]? with
      | some r => if ReducerNode.needsHostCallback r then some name else none
      | none => none
    | _ => none

/-- While `restore_finality` waits: the first external reducer that has no callback. -/
def awaitedCallback (e : SettleEngine R V) : Option String :=
  e.nodesFinalAt.bind fun _ => e.reducerWithoutCallback

/-! ## What the engine writes -/

theorem ingestToBatch_data (t : RawTableEngine) (block : BlockNumber) (rows : List Row)
    (virtualTable : Bool) : ∀ op ∈ (t.ingestToBatch block rows virtualTable).1, op.isNodeData := by
  intro op hop
  unfold RawTableEngine.ingestToBatch at hop
  split at hop
  · cases hop
  · rw [List.mem_singleton.mp hop]
    rfl

theorem processBatchDeferred_data (e : SettleEngine R V) (store : Store) (table : String)
    (block : BlockNumber) (rows : List Row) :
    ∀ op ∈ (e.processBatchDeferred store table block rows).2.1, op.isNodeData := by
  intro op hop
  unfold processBatchDeferred at hop
  split at hop
  · cases hop
  · dsimp only at hop
    split at hop <;> exact ingestToBatch_data _ _ _ _ op hop

theorem unwindNodes_writes (e : SettleEngine R V) (store : Store) (pending : List WriteBatch)
    (forkPoint : BlockNumber) (order : List PipelineNode) (nodes : Nodes R V) :
    ∀ op ∈ (e.unwindNodes store pending forkPoint order nodes).2.1,
      ∃ table, op = .deleteRawRowsAfter table forkPoint := by
  induction order generalizing nodes with
  | nil => simp [unwindNodes]
  | cons node rest ih =>
    intro op hop
    cases node with
    | mv name =>
      simp only [unwindNodes] at hop
      split at hop
      · exact ih _ op hop
      · next mv _ =>
        have ih := ih { nodes with
          mvs := nodes.mvs.insert name (ViewNode.rollback mv forkPoint).1 }
        split at hop
        · next hr =>
          rw [hr] at ih
          exact ih op hop
        · next hr =>
          rw [hr] at ih
          exact ih op hop
    | reducer name =>
      simp only [unwindNodes] at hop
      split at hop
      · exact ih _ op hop
      · exact ih _ op hop
    | rawTable name =>
      simp only [unwindNodes] at hop
      split at hop
      · exact ih _ op hop
      · next raw _ =>
        have hraw : ∀ op ∈ (raw.rollbackToBatch store pending forkPoint).1,
            ∃ table, op = .deleteRawRowsAfter table forkPoint := by
          intro op hop
          unfold RawTableEngine.rollbackToBatch at hop
          split at hop
          · cases hop
          · exact ⟨raw.name, List.mem_singleton.mp hop⟩
        split at hop
        · next hr =>
          rw [hr] at hraw
          exact hraw op hop
        · next hr =>
          rw [hr] at hraw
          have ih := ih nodes
          split at hop
          · next hr' =>
            rw [hr'] at ih
            rcases List.mem_append.mp hop with hop | hop
            · exact hraw op hop
            · exact ih op hop
          · next hr' =>
            rw [hr'] at ih
            rcases List.mem_append.mp hop with hop | hop
            · exact hraw op hop
            · exact ih op hop

theorem rollbackToBatch_data (e : SettleEngine R V) (store : Store) (pending : List WriteBatch)
    (forkPoint : BlockNumber) :
    ∀ op ∈ (e.rollbackToBatch store pending forkPoint).2.1, op.isNodeData := by
  intro op hop
  have hwrites := e.unwindNodes_writes store pending forkPoint e.pipeline.reverse e.nodes
  have hall : ∀ op ∈ (e.unwindTo store pending forkPoint).2.1, op.isNodeData := by
    intro op hop
    unfold unwindTo at hop
    split at hop
    · next hr =>
      rw [hr] at hwrites
      obtain ⟨table, rfl⟩ := hwrites op hop
      rfl
    · next hr =>
      rw [hr] at hwrites
      obtain ⟨table, rfl⟩ := hwrites op hop
      rfl
  unfold rollbackToBatch at hop
  split at hop
  · cases hop
  · split at hop
    · cases hop
    · split at hop
      · next hr =>
        rw [hr] at hall
        exact hall op hop
      · next hr =>
        rw [hr] at hall
        exact hall op hop

omit [ReducerNode R] [ViewNode V] in
/-- A step on the nodes writes what its steps on them write. -/
theorem stepNodes_writes {P : BatchOp Datum → Prop} {reducer : R → R × WriteBatch}
    {mv : V → V × WriteBatch} (hr : ∀ r, ∀ op ∈ (reducer r).2, P op)
    (hv : ∀ v, ∀ op ∈ (mv v).2, P op) (order : List PipelineNode) (nodes : Nodes R V) :
    ∀ op ∈ (Nodes.stepNodes reducer mv order nodes).2, P op := by
  induction order generalizing nodes with
  | nil => simp [Nodes.stepNodes]
  | cons node rest ih =>
    intro op hop
    rw [Nodes.stepNodes] at hop
    rcases List.mem_append.mp hop with hop | hop
    · unfold Nodes.stepNode at hop
      split at hop
      · cases hop
      · split at hop
        · cases hop
        · exact hr _ op hop
      · split at hop
        · cases hop
        · exact hv _ op hop
    · exact ih _ op hop

omit [ReducerNode R] [ViewNode V] in
theorem purgeRawRows_writes (e : SettleEngine R V) :
    ∀ op ∈ e.purgeRawRows.2, ∃ table fromBlock toBlock,
      op = .deleteRawRows table fromBlock toBlock := by
  intro op hop
  unfold purgeRawRows at hop
  split at hop
  · cases hop
  · dsimp only at hop
    split at hop
    · split at hop
      · cases hop
      · obtain ⟨t, -, rfl⟩ := List.mem_map.mp hop
        exact ⟨_, _, _, rfl⟩
    · obtain ⟨t, -, rfl⟩ := List.mem_map.mp hop
      exact ⟨_, _, _, rfl⟩

theorem writeCheckpoint_data (e : SettleEngine R V) :
    ∀ op ∈ e.writeCheckpoint.2, op.isNodeData := by
  intro op hop
  unfold writeCheckpoint at hop
  split at hop
  · cases hop
  · rcases List.mem_append.mp hop with hop | hop
    · refine stepNodes_writes (P := fun op => op.isNodeData) ?_ ?_ _ _ op hop
      · exact fun r op hop =>
          BatchOp.isNodeData_of_isNodeState (ReducerNode.writeCheckpoint_state r _ _ op hop)
      · exact fun v op hop =>
          BatchOp.isNodeData_of_isNodeState (ViewNode.writeCheckpoint_state v _ op hop)
    · obtain ⟨t, f, th, rfl⟩ := purgeRawRows_writes _ op hop
      rfl

end SettleEngine

/-- **The pipeline is the engine of the database.** -/
instance : Engine (SettleEngine R V) where
  awaitedCallback := SettleEngine.awaitedCallback
  finalizedBlock := SettleEngine.finalizedBlock
  hasFinalized := SettleEngine.hasFinalized
  latestBlockIfAny := SettleEngine.latestBlock
  durableBlock := SettleEngine.durableBlock
  finalizedCursor := SettleEngine.finalizedCursor
  latestCursor := SettleEngine.latestCursor
  deferAllowed := SettleEngine.deferAllowed
  tableRegistry e table := e.rawTables[table]?.map RawTableEngine.registry
  lowestHashConflict := SettleEngine.lowestHashConflict
  resolveForkCursorBounded := SettleEngine.resolveForkCursorBounded
  checkRollbackTarget := SettleEngine.checkRollbackTarget
  rollbackToBatch := SettleEngine.rollbackToBatch
  processBatchDeferred := SettleEngine.processBatchDeferred
  undoIngest := SettleEngine.undoIngest
  takeChanges := SettleEngine.takeChanges
  setRollbackChain := SettleEngine.setRollbackChain
  advanceFinality := SettleEngine.advanceFinality
  writeCheckpoint := SettleEngine.writeCheckpoint
  evictGroups := SettleEngine.evictGroups
  takeHashChanges := SettleEngine.takeHashChanges
  checkpoints := SettleEngine.checkpoints
  setCommittedCheckpoint e checkpoint :=
    { e with committedCheckpoint := max e.committedCheckpoint checkpoint }
  rollbackToBatch_data := SettleEngine.rollbackToBatch_data
  processBatchDeferred_data := SettleEngine.processBatchDeferred_data
  writeCheckpoint_data := SettleEngine.writeCheckpoint_data

/-! ## A pipeline without derived nodes -/

instance : ReducerNode Empty where
  source := nofun
  isExternal := nofun
  needsHostCallback := nofun
  processBlock := nofun
  rollback := nofun
  reload := nofun
  advanceFinality := nofun
  writeCheckpoint := nofun
  evict := nofun
  writeCheckpoint_state := nofun

instance : ViewNode Empty where
  source := nofun
  isSliding := nofun
  applyRows := nofun
  takeChanges := nofun
  discardChanges := nofun
  rollback := nofun
  reload := nofun
  advanceFinality := nofun
  writeCheckpoint := nofun
  evict := nofun
  writeCheckpoint_state := nofun

/-- `SettleEngine::new` for a schema with the one table `trades(block_number, price)`. -/
def tradesEngine : SettleEngine Empty Empty where
  rawTables := (∅ : FxHashMap String RawTableEngine).insert "trades"
    { name := "trades", registry := ⟨["block_number", "price"]⟩ }
  virtualTables := ∅
  pipeline := [.rawTable "trades"]
  directMvs := []
  branches := []
  nodes := {}
  rayon := true
  deferAllowed := true

/-- A database of `tradesEngine`, opened on an empty store. -/
def tradesDb (journal : Bool) : Db (SettleEngine Empty Empty) where
  engine := tradesEngine
  maxPendingBatches := 16
  backfillCheckpointInterval := 1
  stamp := []
  journal := journal

/-- One trade in `block`. -/
def tradeIn (block price : UInt64) : Db.InputData :=
  .rows ((∅ : FxHashMap String (BTreeMap BlockNumber (List Row))).insert "trades"
    ((∅ : BTreeMap BlockNumber (List Row)).insert block
      [{ registry := ⟨["block_number", "price"]⟩, values := [.uint64 block, .uint64 price] }]))

end Settle
