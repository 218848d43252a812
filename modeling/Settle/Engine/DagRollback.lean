import Settle.Engine.Dag

/-!
# What a rollback of the pipeline does

`RolledBack` says what a rollback to block `p` leaves: the latest block is `p`, finality is as it
was, every reducer and MV is rolled back to `p`, the hashes on record are those of the blocks up
to `p`, and the rows of the blocks above `p` leave storage with the write batch.

A rollback fails part way only on raw rows that it cannot decode (`RowsReadable`).
-/

namespace Settle

open Std

variable {R V : Type} [ReducerNode R] [ViewNode V]

namespace SettleEngine

/-- Every reducer and MV of the pipeline rolled back to `p`, in reverse pipeline order. -/
def rolledBackNodes (e : SettleEngine R V) (p : BlockNumber) : Nodes R V :=
  (Nodes.stepNodes (fun r => (ReducerNode.rollback r p, [])) (fun v => ((ViewNode.rollback v p).1, []))
    e.pipeline.reverse e.nodes).1

/-- The name under which a node of the pipeline stores its rows, if it is a raw table. -/
def storedTable (e : SettleEngine R V) : PipelineNode → Option String
  | .rawTable name => e.rawTables[name]?.map RawTableEngine.name
  | _ => none

/-- Every raw row of a table of the pipeline, on disk or in a pending batch, decodes. -/
def RowsReadable (e : SettleEngine R V) (store : Store) (pending : List WriteBatch) : Prop :=
  ∀ name raw, PipelineNode.rawTable name ∈ e.pipeline → e.rawTables[name]? = some raw →
    ∀ (block : BlockNumber) data,
      (store.commit pending.flatten).raw[(raw.name, block)]? = some data →
        ∃ rows, decodeRows raw.registry data = .ok rows

omit [ReducerNode R] [ViewNode V] in
/-- Rows that all decode with the columns of every table are readable. -/
theorem rowsReadable_of_all {e : SettleEngine R V} {store : Store} {pending : List WriteBatch}
    (h : (e.rawTables.toList.all fun t => (store.commit pending.flatten).raw.toList.all fun row =>
      (decodeRows t.2.registry row.2).toBool) = true) : e.RowsReadable store pending := by
  intro name raw _ hraw block data hdata
  simp only [List.all_eq_true] at h
  have hok := h (name, raw) (ExtTreeMap.mem_toList_iff_getElem?_eq_some.mpr hraw)
    ((raw.name, block), data) (ExtTreeMap.mem_toList_iff_getElem?_eq_some.mpr hdata)
  cases hd : decodeRows raw.registry data with
  | error err =>
    simp only [hd] at hok
    cases hok
  | ok rows => exact ⟨rows, rfl⟩

/-- The blocks and nodes after a rollback to `p`. -/
structure Unwound (e e' : SettleEngine R V) (p : BlockNumber) : Prop where
  latestBlock : e'.latestBlock = some p
  finalizedBlock : e'.finalizedBlock = e.finalizedBlock
  nodes : e'.nodes = e.rolledBackNodes p

/-- What a rollback to `p` should make of an engine: the hashes on record are those of the
blocks up to `p`. -/
structure RolledBack (e e' : SettleEngine R V) (p : BlockNumber) : Prop extends
    Unwound e e' p where
  hashes : ∀ b, e'.blockHashes[b]? = if b ≤ p then e.blockHashes[b]? else none

/-- The write batch of a rollback to `p` deletes the rows of the blocks above `p` and no others. -/
def DeletesAbove (e : SettleEngine R V) (writes : WriteBatch) (p : BlockNumber) : Prop :=
  ∀ (s : Store) (table : String) (block : BlockNumber),
    (s.commit writes).raw[(table, block)]?
      = if table ∈ e.pipeline.filterMap e.storedTable ∧ p < block then none
        else s.raw[(table, block)]?

/-! ## Raw tables -/

theorem deleteChanges_ok {t : RawTableEngine} {rows : List (BlockNumber × Datum)}
    (h : ∀ e ∈ rows, ∃ rs, decodeRows t.registry e.2 = .ok rs) :
    ∃ changes, t.deleteChanges rows = .ok changes := by
  induction rows with
  | nil => exact ⟨[], rfl⟩
  | cons e rows ih =>
    obtain ⟨rs, hrs⟩ := h e (by simp)
    obtain ⟨changes, hchanges⟩ := ih fun e' he' => h e' (List.mem_cons_of_mem _ he')
    exact ⟨rs.zipIdx.map (t.rowRecord .delete e.1) ++ changes, by
      simp [RawTableEngine.deleteChanges, hrs, hchanges, bind, Except.bind]⟩

theorem rawRollback_ok {t : RawTableEngine} {store : Store} {pending : List WriteBatch}
    (h : ∀ (block : BlockNumber) data,
      (store.commit pending.flatten).raw[(t.name, block)]? = some data →
        ∃ rows, decodeRows t.registry data = .ok rows) (p : BlockNumber) :
    ∃ changes, (t.rollbackToBatch store pending p).2 = .ok changes := by
  unfold RawTableEngine.rollbackToBatch
  split
  · exact ⟨[], rfl⟩
  · apply deleteChanges_ok
    rintro ⟨block, data⟩ hmem
    have hdata := ExtTreeMap.mem_toList_iff_getElem?_eq_some.mp hmem
    rw [getElem?_pendingRawRowsAfter] at hdata
    split at hdata
    · exact h block data hdata
    · cases hdata

theorem rawRollback_writes (t : RawTableEngine) (store : Store) (pending : List WriteBatch)
    (p : BlockNumber) (s : Store) (table : String) (block : BlockNumber) :
    (s.commit (t.rollbackToBatch store pending p).1).raw[(table, block)]?
      = if table = t.name ∧ p < block then none else s.raw[(table, block)]? := by
  unfold RawTableEngine.rollbackToBatch
  split
  · next hp =>
    have hmax : ¬ p < block := by
      rw [hp]
      intro hlt
      exact absurd (UInt64.lt_iff_toNat_lt.mp hlt)
        (Nat.not_lt.mpr (Nat.le_of_lt_succ (UInt64.toNat_lt_size block)))
    simp [hmax]
  · simp only [Store.commit_cons, Store.commit_nil, Store.apply, OrdMap.getElem?_keep]
    by_cases ht : table = t.name
    · by_cases hlt : p < block
      · simp [ht, hlt]
      · simp [ht, hlt]
    · simp [ht]

/-! ## The loop of `unwind_to` -/

theorem unwindNodes_nodes (e : SettleEngine R V) (store : Store) (pending : List WriteBatch)
    (p : BlockNumber) {order : List PipelineNode} {nodes nodes' : Nodes R V} {writes : WriteBatch}
    {changes : List ChangeRecord}
    (h : e.unwindNodes store pending p order nodes = (nodes', writes, .ok changes)) :
    nodes' = (Nodes.stepNodes (fun r => (ReducerNode.rollback r p, []))
      (fun v => ((ViewNode.rollback v p).1, [])) order nodes).1 := by
  induction order generalizing nodes nodes' writes changes with
  | nil =>
    simp only [unwindNodes, Prod.mk.injEq] at h
    exact h.1.symm
  | cons node rest ih =>
    rw [Nodes.stepNodes]
    cases node with
    | mv name =>
      simp only [unwindNodes] at h
      simp only [Nodes.stepNode]
      cases hv : nodes.mvs[name]? with
      | none =>
        rw [hv] at h
        exact ih h
      | some mv =>
        rw [hv] at h
        dsimp only at h
        split at h
        · next hr =>
          simp only [Prod.mk.injEq] at h
          rw [← h.1]
          exact ih hr
        · cases h
    | reducer name =>
      simp only [unwindNodes] at h
      simp only [Nodes.stepNode]
      cases hr : nodes.reducers[name]? with
      | none =>
        rw [hr] at h
        exact ih h
      | some reducer =>
        rw [hr] at h
        exact ih h
    | rawTable name =>
      simp only [unwindNodes] at h
      simp only [Nodes.stepNode]
      split at h
      · exact ih h
      · split at h
        · cases h
        · split at h
          · next hr =>
            simp only [Prod.mk.injEq] at h
            rw [← h.1]
            exact ih hr
          · cases h

/-- The writes of the loop, on any store. -/
theorem unwindNodes_deletes (e : SettleEngine R V) (store : Store) (pending : List WriteBatch)
    (p : BlockNumber) {order : List PipelineNode} {nodes nodes' : Nodes R V} {writes : WriteBatch}
    {changes : List ChangeRecord}
    (h : e.unwindNodes store pending p order nodes = (nodes', writes, .ok changes))
    (s : Store) (table : String) (block : BlockNumber) :
    (s.commit writes).raw[(table, block)]?
      = if table ∈ order.filterMap e.storedTable ∧ p < block then none
        else s.raw[(table, block)]? := by
  induction order generalizing nodes nodes' writes changes s with
  | nil =>
    simp only [unwindNodes, Prod.mk.injEq] at h
    rw [← h.2.1]
    simp
  | cons node rest ih =>
    cases node with
    | mv name =>
      simp only [unwindNodes] at h
      rw [List.filterMap_cons_none rfl]
      split at h
      · exact ih h s
      · split at h
        · next hr =>
          simp only [Prod.mk.injEq] at h
          rw [← h.2.1]
          exact ih hr s
        · cases h
    | reducer name =>
      simp only [unwindNodes] at h
      rw [List.filterMap_cons_none rfl]
      split at h
      · exact ih h s
      · exact ih h s
    | rawTable name =>
      simp only [unwindNodes] at h
      split at h
      · next hraw =>
        rw [List.filterMap_cons_none (by rw [storedTable, hraw]; rfl)]
        exact ih h s
      · next raw hraw =>
        rw [List.filterMap_cons_some (by rw [storedTable, hraw]; rfl)]
        have hw := rawRollback_writes raw store pending p s table block
        split at h
        · cases h
        · next hr =>
          rw [hr] at hw
          split at h
          · next hrest =>
            simp only [Prod.mk.injEq] at h
            rw [← h.2.1, Store.commit_append, ih hrest, hw]
            simp only [List.mem_cons]
            by_cases hlt : p < block
            · by_cases hin : table ∈ rest.filterMap e.storedTable
              · simp [hin, hlt]
              · simp [hin, hlt]
            · simp [hlt]
          · cases h

/-- Rows that decode do not stop the loop. -/
theorem unwindNodes_ok (e : SettleEngine R V) {store : Store} {pending : List WriteBatch}
    (hread : e.RowsReadable store pending) (p : BlockNumber) {order : List PipelineNode}
    (horder : ∀ node ∈ order, node ∈ e.pipeline) (nodes : Nodes R V) :
    ∃ nodes' writes changes,
      e.unwindNodes store pending p order nodes = (nodes', writes, .ok changes) := by
  induction order generalizing nodes with
  | nil => exact ⟨_, _, _, rfl⟩
  | cons node rest ih =>
    have ih := ih fun n hn => horder n (List.mem_cons_of_mem _ hn)
    cases node with
    | mv name =>
      simp only [unwindNodes]
      split
      · exact ih nodes
      · obtain ⟨nodes', writes, changes, h⟩ := ih { nodes with
          mvs := nodes.mvs.insert name (ViewNode.rollback _ p).1 }
        rw [h]
        exact ⟨_, _, _, rfl⟩
    | reducer name =>
      simp only [unwindNodes]
      split
      · exact ih nodes
      · exact ih _
    | rawTable name =>
      simp only [unwindNodes]
      cases hraw : e.rawTables[name]? with
      | none => exact ih nodes
      | some raw =>
        obtain ⟨changes, hc⟩ := rawRollback_ok
          (hread name raw (horder _ (by simp)) hraw) p
        obtain ⟨nodes', writes', changes', h⟩ := ih nodes
        cases hr : raw.rollbackToBatch store pending p with
        | mk writes result =>
          rw [hr] at hc
          have hc : result = .ok changes := hc
          subst hc
          simp only [hr, h]
          exact ⟨_, _, _, rfl⟩

/-! ## Rollback -/

/-- The target is neither above the latest block nor below finality. -/
def Target (e : SettleEngine R V) (p : BlockNumber) : Prop :=
  p ≤ e.latestBlock.getD 0 ∧ e.finalizedBlock ≤ p

omit [ReducerNode R] [ViewNode V] in
theorem checkRollbackTarget_ok {e : SettleEngine R V} {p : BlockNumber} (h : e.Target p) :
    e.checkRollbackTarget p = .ok () := by
  rw [checkRollbackTarget, if_neg (UInt64.not_lt.mpr h.1), if_neg (UInt64.not_lt.mpr h.2)]

/-- **A rollback that succeeds** leaves exactly the blocks up to its target. Their hashes stay
too, but at `u64::MAX`, where the block after the target wraps. -/
theorem rollbackToBatch_spec {e e' : SettleEngine R V} {store : Store} {pending : List WriteBatch}
    {p : BlockNumber} (ht : e.Target p) {writes : WriteBatch} {changes : List ChangeRecord}
    (h : e.rollbackToBatch store pending p = (e', writes, .ok changes)) :
    Unwound e e' p ∧
    (∀ b, e'.blockHashes[b]? = if b < p + 1 then e.blockHashes[b]? else none) ∧
    e.DeletesAbove writes p := by
  rw [rollbackToBatch, checkRollbackTarget_ok ht] at h
  dsimp only at h
  rw [if_neg (UInt64.not_lt.mpr ht.1), unwindTo] at h
  cases hu : e.unwindNodes store pending p e.pipeline.reverse e.nodes with
  | mk nodes rest =>
    obtain ⟨w, result⟩ := rest
    rw [hu] at h
    cases result with
    | error err => cases h
    | ok cs =>
      dsimp only at h
      simp only [Prod.mk.injEq] at h
      obtain ⟨he, hw, -⟩ := h
      subst he hw
      refine ⟨⟨rfl, rfl, e.unwindNodes_nodes store pending p hu⟩, ?_, ?_⟩
      · intro b
        simp only [dropHashes, OrdMap.getElem?_keep]
        by_cases hb : b < p + 1
        · simp [hb]
        · simp [hb]
      · intro s table block
        rw [e.unwindNodes_deletes store pending p hu]
        simp only [List.filterMap_reverse, List.mem_reverse]

theorem rolledBack_of_unwound {e e' : SettleEngine R V} {p : BlockNumber} (hu : Unwound e e' p)
    (hh : ∀ b, e'.blockHashes[b]? = if b < p + 1 then e.blockHashes[b]? else none)
    (hp : p ≠ BlockNumber.max) : RolledBack e e' p where
  toUnwound := hu
  hashes b := by rw [hh b, if_congr (BlockNumber.lt_succ_iff hp) rfl rfl]

/-- A rollback of readable rows succeeds. -/
theorem rollbackToBatch_ok {e : SettleEngine R V} {store : Store} {pending : List WriteBatch}
    (hread : e.RowsReadable store pending) {p : BlockNumber} (ht : e.Target p) :
    ∃ e' writes changes, e.rollbackToBatch store pending p = (e', writes, .ok changes) := by
  have horder : ∀ node ∈ e.pipeline.reverse, node ∈ e.pipeline := fun _ => List.mem_reverse.mp
  obtain ⟨nodes', writes, changes, h⟩ := e.unwindNodes_ok hread p horder e.nodes
  rw [rollbackToBatch, checkRollbackTarget_ok ht]
  dsimp only
  rw [if_neg (UInt64.not_lt.mpr ht.1), unwindTo, h]
  exact ⟨_, _, _, rfl⟩

end SettleEngine

end Settle
