import Settle.Db.Open
import Settle.Engine.BlockBounds
import Settle.Engine.PipelineNodes

/-!
# The calls of the engine and their block bounds

The engine makes exclusive bounds out of inclusive ones: `b + 1` is the first block that a rollback
to `b` drops, the first one that finality at `b` leaves, the first one that a purge through `b` has
not deleted, the first one that a replay above `b` reads. Blocks are `u64`, and the last one has no
next.

`callStep` is a call of the database to an engine with the reducers and views of the source.
`exactStep` is the call with bounds that are exact at every block.
-/

namespace Settle

open Std

/-! ## Exact calls -/

/-- The calls to a reducer, with bounds that are exact at every block. -/
@[reducible] def exactReducer : ReducerNode PipelineReducer :=
  { (inferInstance : ReducerNode PipelineReducer) with
    rollback := fun r forkPoint => { r with engine := r.engine.rollbackAbove forkPoint }
    advanceFinality := fun r block => { r with engine := r.engine.finalizeThrough block } }

/-- The calls to a view, with bounds that are exact at every block. -/
@[reducible] def exactView [ViewStorage] : ViewNode PipelineView :=
  { (inferInstance : ViewNode PipelineView) with
    rollback := fun v forkPoint =>
      let rolledBack := v.engine.rollbackAbove v.shape forkPoint
      ({ v with engine := rolledBack.1 }, rolledBack.2)
    advanceFinality := fun v block => { v with engine := v.engine.finalizeThrough v.shape block } }

/-- `set_runtime`, with whether the new runtime is external and has no callback. -/
def PipelineReducer.setRuntime (r : PipelineReducer)
    (runtime : (mapFields : Nat) → Runtime mapFields) (missingHostCallback : Bool) :
    PipelineReducer :=
  { r with
    shape := { r.shape with runtime := runtime r.shape.mapFields }
    needsHostCallback := missingHostCallback }

/-- An engine with the reducers and views of the source. -/
abbrev PipelineEngine := SettleEngine PipelineReducer PipelineView

namespace SettleEngine

variable [ViewStorage] [NodeBuild PipelineReducer PipelineView]

/-- Drop the hashes above `block`. -/
def dropHashesAbove (e : PipelineEngine) (block : BlockNumber) : PipelineEngine :=
  { e with
    blockHashes := OrdMap.keep e.blockHashes (· ≤ block)
    hashChanges := ((e.blockHashes.toList.map Prod.fst).filter (block < ·)).foldl
      (fun changes b => changes.insert b) e.hashChanges }

/-- `rollback_inner`, exact. -/
def exactRollback (e : PipelineEngine) (store : Store) (pending : List WriteBatch)
    (forkPoint : BlockNumber) :
    PipelineEngine × WriteBatch × Except Error (List ChangeRecord) :=
  match e.checkRollbackTarget forkPoint with
  | .error err => (e, [], .error err)
  | .ok () =>
    if e.latestBlock.getD 0 < forkPoint then (e, [], .ok [])
    else
      match @unwindTo _ _ exactReducer exactView e store pending forkPoint with
      | (e, writes, .error err) => (e, writes, .error err)
      | (e, writes, .ok changes) => (e.dropHashesAbove forkPoint, writes, .ok changes)

/-- `purge_raw_rows`, exact: it deletes the rows above the ones that it deleted before. -/
def exactPurge (e : PipelineEngine) : PipelineEngine × WriteBatch :=
  match e.durableBlock.bind fun durable =>
      if durable < e.rawRetentionBlocks then none else some (durable - e.rawRetentionBlocks) with
  | none => (e, [])
  | some through =>
    let step := max (e.rawRetentionBlocks / 10) 1
    let purged : PipelineEngine := { e with rawPurgedThrough := some through }
    let delete (fromBlock : BlockNumber) : WriteBatch :=
      e.rawTables.toList.map fun (table, _) => .deleteRawRows table fromBlock through
    match e.rawPurgedThrough with
    | some before =>
      if through.toNat < min (before.toNat + step.toNat) (2 ^ 64 - 1) then (e, [])
      else (purged, if through ≤ before then [] else delete (before + 1))
    | none => (purged, delete 0)

/-- `write_checkpoint`, with the exact purge. -/
def exactCheckpoint (e : PipelineEngine) : PipelineEngine × WriteBatch :=
  if e.durableThrough e.finalizedBlock then (e, [])
  else
    let checkpoint := e.checkpoints + 1
    let written := Nodes.stepNodes
      (fun r => ReducerNode.writeCheckpoint r e.finalizedBlock checkpoint)
      (fun v => ViewNode.writeCheckpoint v checkpoint) e.nodeOrder e.nodes
    let e := { e with
      checkpoints := checkpoint
      nodes := written.1
      durableBlock := match e.latestBlock with
        | some latest => some (min e.finalizedBlock latest)
        | none => e.durableBlock }
    let purged := e.exactPurge
    (purged.1.pruneBlockHashes, written.2 ++ purged.2)

/-- The blocks that `open` replays: above the durable block, or all. -/
def replayRange (e : PipelineEngine) : Option (BlockNumber × BlockNumber) :=
  let replayFrom := (e.durableBlock.map (· + 1)).getD 0
  let latest := e.latestBlock.getD 0
  if replayFrom ≤ latest then some (replayFrom, latest) else none

/-- The blocks that `open` replays, exact: none above the last block. -/
def exactReplayRange (e : PipelineEngine) : Option (BlockNumber × BlockNumber) :=
  let latest := e.latestBlock.getD 0
  match e.durableBlock with
  | some durable => if durable < latest then some (durable + 1, latest) else none
  | none => some (0, latest)

/-- The rollbacks of `replay_reducer_chain`, exact. -/
def exactRolledBackChain (e : PipelineEngine) (name : String) (p : BlockNumber) :
    Nodes PipelineReducer PipelineView :=
  (Nodes.stepNodes (fun r => (exactReducer.rollback r p, []))
    (fun v => ((exactView.rollback v p).1, [])) (e.chainOrder name) e.nodes).1

/-- The blocks that the replay of a chain reads: its first one does not wrap, since a block is
above it. -/
def chainRange (finalized latest : BlockNumber) : Option (BlockNumber × BlockNumber) :=
  if latest ≤ finalized then none else some (finalized + 1, latest)

/-- `replay_reducer_chain`, with exact rollbacks. -/
def exactReplayChain (e : PipelineEngine) (store : Store) (name : String)
    (finalized latest : BlockNumber) : Except Error PipelineEngine :=
  if !e.nodes.reducers.contains name then
    .error (.invalidOperation ("replay: unknown reducer '" ++ name ++ "'"))
  else
    match chainRange finalized latest with
    | none => .ok e
    | some (fromBlock, toBlock) =>
      { e with nodes := e.exactRolledBackChain name finalized }.replayUnfinalizedInner store
        fromBlock toBlock (some (e.chainNames name))

/-- Replay the blocks of a range. -/
def replayBlocks (e : PipelineEngine) (store : Store) :
    Option (BlockNumber × BlockNumber) → Except Error PipelineEngine
  | some (fromBlock, toBlock) => e.replayUnfinalized store fromBlock toBlock
  | none => .ok e

/-- **The range is the one of `open`.** -/
theorem restoreEngine_replayRange (e : PipelineEngine) (store : Store) :
    Db.restoreEngine e store = (do
      let latest ← Db.metaBlock store metaLatestBlock
      let e := (latest.map e.setLatestBlock).getD e
      let durable ← Db.metaBlock store metaDurableBlock
      let e := (durable.map e.restoreDurableBlock).getD e
      let e := e.restoreBlockHashes store.blockHashes
      let e ← e.replayBlocks store e.replayRange
      let finality ← Db.metaBlock store metaFinalityBlock
      .ok ((finality.map e.restoreFinality).getD e)) := by
  have hreplay : ∀ e : PipelineEngine, e.replayBlocks store e.replayRange
      = if (e.durableBlock.map (· + 1)).getD 0 ≤ e.latestBlock.getD 0 then
          e.replayUnfinalized store ((e.durableBlock.map (· + 1)).getD 0) (e.latestBlock.getD 0)
        else .ok e := by
    intro e
    simp only [replayRange]
    split <;> rfl
  simp only [hreplay]
  unfold Db.restoreEngine
  cases Db.metaBlock store metaLatestBlock with
  | error err => rfl
  | ok latest =>
    cases Db.metaBlock store metaDurableBlock with
    | error err => rfl
    | ok durable =>
      let e₁ := (latest.map e.setLatestBlock).getD e
      let e₂ := ((durable.map e₁.restoreDurableBlock).getD e₁).restoreBlockHashes store.blockHashes
      dsimp only [bind, Except.bind]
      by_cases h : (e₂.durableBlock.map (· + 1)).getD 0 ≤ e₂.latestBlock.getD 0
      · rw [if_pos h]
        exact if_pos h
      · rw [if_neg h]
        exact if_neg h

end SettleEngine

/-! ## Steps -/

/-- A call of the database to the engine it opened. `add_reducer`, which changes the pipeline, is not
among them. -/
inductive EngineCall where
  | processBatch (store : Store) (table : String) (block : BlockNumber) (rows : List Row)
  | undoIngest (store : Store) (pending : List WriteBatch) (block : Option BlockNumber)
  | takeChanges
  | rollback (store : Store) (pending : List WriteBatch) (forkPoint : BlockNumber)
  | setRollbackChain (chain : List (BlockNumber × String))
  | takeHashChanges
  | advanceFinality (block : BlockNumber)
  | writeCheckpoint
  | setCommittedCheckpoint (checkpoint : Nat)
  | evictGroups
  | setLatestBlock (block : BlockNumber)
  | restoreDurableBlock (block : BlockNumber)
  | restoreBlockHashes (hashes : BTreeMap BlockNumber String)
  | replay (store : Store)
  | restoreFinality (block : BlockNumber)
  | setReducerRuntime (name : String) (runtime : (mapFields : Nat) → Runtime mapFields)
      (missingHostCallback : Bool)
  | replayReducerChain (store : Store) (name : String) (finalized latest : BlockNumber)

/-- What a call does besides the change of the engine. -/
structure CallEffect where
  writes : WriteBatch := []
  result : Except Error (List ChangeRecord) := .ok []
  hashes : List (BlockNumber × Option String) := []
  /-- the first and the last block that it replays -/
  replayed : Option (BlockNumber × BlockNumber) := none

namespace SettleEngine

variable [ViewStorage] [NodeBuild PipelineReducer PipelineView]

/-- A replay over a range. -/
def replayStep (e : PipelineEngine) (store : Store) (range : Option (BlockNumber × BlockNumber)) :
    PipelineEngine × CallEffect :=
  match e.replayBlocks store range with
  | .ok e' => (e', { replayed := range })
  | .error err => (e, { result := .error err, replayed := range })

/-- `set_reducer_runtime`. -/
def setReducerRuntime (e : PipelineEngine) (name : String)
    (runtime : (mapFields : Nat) → Runtime mapFields) (missingHostCallback : Bool) :
    PipelineEngine :=
  match e.nodes.reducers[name]? with
  | some r =>
    { e with nodes := { e.nodes with
        reducers := e.nodes.reducers.insert name (r.setRuntime runtime missingHostCallback) } }
  | none => e

/-- The effect of a replay: a failed one leaves nodes that the poisoned instance does not use. -/
def chainStep (e : PipelineEngine) (replayed : Except Error PipelineEngine) :
    PipelineEngine × CallEffect :=
  match replayed with
  | .ok e' => (e', {})
  | .error err => (e, { result := .error err })

/-- One call of the code. -/
def callStep (e : PipelineEngine) : EngineCall → PipelineEngine × CallEffect
  | .processBatch store table block rows =>
    let r := e.processBatchDeferred store table block rows
    (r.1, { writes := r.2.1, result := r.2.2 })
  | .undoIngest store pending block =>
    let r := e.undoIngest store pending block
    (r.1, { result := r.2.map fun _ => [] })
  | .takeChanges =>
    let r := e.takeChanges
    (r.1, { result := .ok r.2 })
  | .rollback store pending forkPoint =>
    let r := e.rollbackToBatch store pending forkPoint
    (r.1, { writes := r.2.1, result := r.2.2 })
  | .setRollbackChain chain => (e.setRollbackChain chain, {})
  | .takeHashChanges =>
    let r := e.takeHashChanges
    (r.1, { hashes := r.2 })
  | .advanceFinality block => (e.advanceFinality block, {})
  | .writeCheckpoint =>
    let r := e.writeCheckpoint
    (r.1, { writes := r.2 })
  | .setCommittedCheckpoint checkpoint =>
    ({ e with committedCheckpoint := max e.committedCheckpoint checkpoint }, {})
  | .evictGroups => (e.evictGroups, {})
  | .setLatestBlock block => (e.setLatestBlock block, {})
  | .restoreDurableBlock block => (e.restoreDurableBlock block, {})
  | .restoreBlockHashes hashes => (e.restoreBlockHashes hashes, {})
  | .replay store => e.replayStep store e.replayRange
  | .restoreFinality block => (e.restoreFinality block, {})
  | .setReducerRuntime name runtime missing => (e.setReducerRuntime name runtime missing, {})
  | .replayReducerChain store name finalized latest =>
    e.chainStep (e.replayReducerChain store name finalized latest)

/-- One call with bounds that are exact at every block. The other calls compute none. -/
def exactStep (e : PipelineEngine) : EngineCall → PipelineEngine × CallEffect
  | .undoIngest store pending block =>
    let r := @undoIngest _ _ exactReducer exactView e store pending block
    (r.1, { result := r.2.map fun _ => [] })
  | .rollback store pending forkPoint =>
    let r := e.exactRollback store pending forkPoint
    (r.1, { writes := r.2.1, result := r.2.2 })
  | .advanceFinality block => (@advanceFinality _ _ exactReducer exactView e block, {})
  | .writeCheckpoint =>
    let r := e.exactCheckpoint
    (r.1, { writes := r.2 })
  | .replay store => e.replayStep store e.exactReplayRange
  | .restoreFinality block => (@restoreFinality _ _ exactReducer exactView e block, {})
  | .replayReducerChain store name finalized latest =>
    e.chainStep (e.exactReplayChain store name finalized latest)
  | call => e.callStep call

end SettleEngine

end Settle
