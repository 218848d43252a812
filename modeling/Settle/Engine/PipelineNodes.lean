import Settle.Engine.Dag
import Settle.Engine.Reducer
import Settle.Engine.View

/-!
# The nodes of a pipeline

The reducers and views of `src/engine/reducer.rs` and `src/engine/mv.rs` as the nodes of the engine
of `src/engine/dag.rs`.

A reducer reads and writes its storage itself. What a view reads and writes are states of its
own: `ViewStorage` is how they stand in the store.
-/

namespace Settle

open Std

/-- A `ReducerEngine` with what its definition fixes. -/
structure PipelineReducer where
  shape : ReducerShape
  isExternal : Bool
  /-- external, and no callback is attached -/
  needsHostCallback : Bool
  engine : ReducerEngine

/-- A `MVEngine` with what its definition fixes. -/
structure PipelineView where
  shape : MVShape
  engine : MVEngine

/-- The state of the views in the store. -/
class ViewStorage where
  reads : MVShape → Store → MvReads
  write : MVShape → MvWrite → BatchOp Datum
  write_state : ∀ v w, (write v w).isNodeState
  /-- what `reload` leaves in memory when it cannot read the state -/
  unreadable : MVShape → Store → MVEngine

theorem ReducerEngine.groupWrites_state (v : ReducerShape) (finalized : BlockNumber)
    (g : ReducerGroup) : ∀ op ∈ groupWrites v finalized g, op.isNodeState := by
  intro op hop
  rw [groupWrites, List.mem_cons, List.mem_map] at hop
  obtain rfl | ⟨⟨key, value⟩, -, rfl⟩ := hop
  · rfl
  · cases value <;> rfl

/-- The writes of some groups are state of reducers. -/
theorem ReducerEngine.foldl_groupWrites_state (v : ReducerShape) (finalized : BlockNumber)
    (checkpoint : Nat) (ids : List Nat) (s : ReducerEngine × WriteBatch)
    (hs : ∀ op ∈ s.2, op.isNodeState) :
    ∀ op ∈ (ids.foldl (fun s id =>
      match s.1.all[id]? with
      | none => s
      | some g =>
        ({ s.1 with all := s.1.all.modify id (savedGroup finalized checkpoint) },
          s.2 ++ groupWrites v finalized g)) s).2, op.isNodeState := by
  induction ids generalizing s with
  | nil => exact hs
  | cons id ids ih =>
    rw [List.foldl_cons]
    apply ih
    cases s.1.all[id]? with
    | none => exact hs
    | some g =>
      intro op hop
      obtain h | h := List.mem_append.mp hop
      · exact hs op h
      · exact groupWrites_state v finalized g op h

/-- A checkpoint of a reducer writes the state of reducers. -/
theorem ReducerEngine.writeCheckpoint_state (v : ReducerShape) (r : ReducerEngine)
    (finalized : BlockNumber) (checkpoint : Nat) :
    ∀ op ∈ (r.writeCheckpoint v finalized checkpoint).2, op.isNodeState := by
  exact foldl_groupWrites_state v finalized checkpoint _ _ (by simp)

instance : ReducerNode PipelineReducer where
  source r := r.shape.source
  isExternal := PipelineReducer.isExternal
  needsHostCallback := PipelineReducer.needsHostCallback
  processBlock r store block rows :=
    let processed := r.engine.processBlock r.shape store block rows
    ({ r with engine := processed.1 }, processed.2)
  rollback r forkPoint := { r with engine := r.engine.rollback forkPoint }
  reload r store := { r with engine := r.engine.reload r.shape store }
  advanceFinality r block := { r with engine := r.engine.advanceFinality block }
  writeCheckpoint r finalized checkpoint :=
    let written := r.engine.writeCheckpoint r.shape finalized checkpoint
    ({ r with engine := written.1 }, written.2)
  evict r cap committed := { r with engine := r.engine.evict cap committed }
  writeCheckpoint_state r finalized checkpoint :=
    r.engine.writeCheckpoint_state r.shape finalized checkpoint

instance [ViewStorage] : ViewNode PipelineView where
  source v := v.shape.source
  isSliding v := v.shape.slidingWindow.isSome
  applyRows v store block rows :=
    let applied := v.engine.applyRows v.shape (ViewStorage.reads v.shape store) block rows
    ({ v with engine := applied.1 }, applied.2)
  takeChanges v :=
    let taken := v.engine.takeChanges v.shape
    ({ v with engine := taken.1 }, taken.2)
  discardChanges v := { v with engine := v.engine.discardChanges }
  rollback v forkPoint :=
    let rolledBack := v.engine.rollback v.shape forkPoint
    ({ v with engine := rolledBack.1 }, rolledBack.2)
  reload v store :=
    match MVEngine.reload v.shape (ViewStorage.reads v.shape store) with
    | .ok m => ({ v with engine := m }, .ok ())
    | .error e => ({ v with engine := ViewStorage.unreadable v.shape store }, .error e)
  advanceFinality v block := { v with engine := v.engine.advanceFinality v.shape block }
  writeCheckpoint v checkpoint :=
    let written := v.engine.writeCheckpoint v.shape checkpoint
    ({ v with engine := written.1 }, written.2.map (ViewStorage.write v.shape))
  evict v cap committed := { v with engine := v.engine.evict v.shape cap committed }
  writeCheckpoint_state v checkpoint := by
    intro op hop
    obtain ⟨w, -, rfl⟩ := List.mem_map.mp hop
    exact ViewStorage.write_state v.shape w

end Settle
