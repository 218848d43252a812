import Settle.Engine.BlockCalls
import Settle.Engine.DagRollback
import Settle.Engine.ReducerPaths

/-!
# Block arithmetic at the limit

A call of the code is exact if and only if the state and the call are `Bounded`: for each bound that
the engine computes, where it does not wrap, or nothing hangs on it. From the calls follow the runs.
-/

namespace Settle

open Std

/-! ## A step on every node -/

attribute [ext] Nodes

namespace Nodes

variable {R V : Type} [ReducerNode R] [ViewNode V] (reducer : R → R × WriteBatch)
  (mv : V → V × WriteBatch)

omit [ReducerNode R] [ViewNode V] in
/-- A step on some nodes makes one step on a reducer each time that its name stands there. -/
theorem stepNodes_reducers (order : List PipelineNode) (nodes : Nodes R V) (name : String) :
    (stepNodes reducer mv order nodes).1.reducers[name]?
      = nodes.reducers[name]?.map fun r =>
          (fun r => (reducer r).1)^[order.count (.reducer name)] r := by
  induction order generalizing nodes with
  | nil => simp [stepNodes]
  | cons node rest ih =>
    rw [stepNodes]
    dsimp only
    rw [ih]
    cases node with
    | rawTable other => simp [stepNode]
    | reducer other =>
      by_cases h : other = name
      · subst h
        cases hr : nodes.reducers[other]? with
        | none => simp [stepNode, hr]
        | some r => simp [stepNode, hr]
      · cases hr : nodes.reducers[other]? with
        | none => simp [stepNode, hr, h]
        | some r => simp [stepNode, hr, h, ExtTreeMap.getElem?_insert]
    | mv other =>
      cases hv : nodes.mvs[other]? with
      | none => simp [stepNode, hv]
      | some v => simp [stepNode, hv]

omit [ReducerNode R] [ViewNode V] in
theorem stepNodes_mvs (order : List PipelineNode) (nodes : Nodes R V) (name : String) :
    (stepNodes reducer mv order nodes).1.mvs[name]?
      = nodes.mvs[name]?.map fun v => (fun v => (mv v).1)^[order.count (.mv name)] v := by
  induction order generalizing nodes with
  | nil => simp [stepNodes]
  | cons node rest ih =>
    rw [stepNodes]
    dsimp only
    rw [ih]
    cases node with
    | rawTable other => simp [stepNode]
    | mv other =>
      by_cases h : other = name
      · subst h
        cases hv : nodes.mvs[other]? with
        | none => simp [stepNode, hv]
        | some v => simp [stepNode, hv]
      · cases hv : nodes.mvs[other]? with
        | none => simp [stepNode, hv, h]
        | some v => simp [stepNode, hv, h, ExtTreeMap.getElem?_insert]
    | reducer other =>
      cases hr : nodes.reducers[other]? with
      | none => simp [stepNode, hr]
      | some r => simp [stepNode, hr]

end Nodes

/-- Functions that agree where a property holds, and keep it, agree after as many steps. -/
theorem iterate_agree {α : Type} {f g : α → α} {P : α → Prop}
    (h : ∀ x, P x → f x = g x ∧ P (f x)) (k : ℕ) {x : α} (hx : P x) : f^[k] x = g^[k] x := by
  induction k generalizing x with
  | zero => rfl
  | succ k ih =>
    obtain ⟨heq, hP⟩ := h x hx
    rw [Function.iterate_succ_apply, Function.iterate_succ_apply, ← heq]
    exact ih hP

/-- What every step makes hold, holds after one step or more. -/
theorem iterate_establish {α : Type} {f : α → α} {P : α → Prop} (h : ∀ x, P (f x)) {k : ℕ}
    (hk : 0 < k) (x : α) : P (f^[k] x) := by
  obtain ⟨k, rfl⟩ := Nat.exists_eq_succ_of_ne_zero (Nat.pos_iff_ne_zero.mp hk)
  rw [Function.iterate_succ_apply']
  exact h _

namespace SettleEngine

/-! ## Finality -/

section Order

variable {R V : Type} [ReducerNode R] [ViewNode V] {e : SettleEngine R V} {name : String}

omit [ReducerNode R] [ViewNode V] in
/-- The engine visits every reducer. -/
theorem mem_nodeOrder_reducer {r : R} (h : e.nodes.reducers[name]? = some r) :
    .reducer name ∈ e.nodeOrder := by
  have hmem : name ∈ e.nodes.reducers.toList.map Prod.fst :=
    List.mem_map.mpr ⟨(name, r), ExtTreeMap.mem_toList_iff_getElem?_eq_some.mpr h, rfl⟩
  rw [nodeOrder, List.mem_append, List.mem_append]
  left
  by_cases hb : name ∈ e.branches.map Prod.fst
  · left
    obtain ⟨branch, hbranch, rfl⟩ := List.mem_map.mp hb
    exact List.mem_flatMap.mpr ⟨branch, hbranch, by simp⟩
  · right
    exact List.mem_map.mpr ⟨name, List.mem_filter.mpr ⟨hmem, by simpa using hb⟩, rfl⟩

omit [ReducerNode R] [ViewNode V] in
/-- The engine visits every view. -/
theorem mem_nodeOrder_mv {v : V} (h : e.nodes.mvs[name]? = some v) :
    .mv name ∈ e.nodeOrder := by
  have hmem : name ∈ e.nodes.mvs.toList.map Prod.fst :=
    List.mem_map.mpr ⟨(name, v), ExtTreeMap.mem_toList_iff_getElem?_eq_some.mpr h, rfl⟩
  rw [nodeOrder, List.mem_append, List.mem_append]
  by_cases hb : name ∈ e.branches.flatMap Prod.snd
  · left
    left
    obtain ⟨branch, hbranch, hname⟩ := List.mem_flatMap.mp hb
    exact List.mem_flatMap.mpr ⟨branch, hbranch, by simpa using hname⟩
  · right
    exact List.mem_map.mpr ⟨name, List.mem_filter.mpr ⟨hmem, by simpa using hb⟩, rfl⟩

end Order

variable [ViewStorage]

/-- No node has a block that finality has yet to merge. A sliding window does not merge. -/
def Untracked (e : PipelineEngine) : Prop :=
  (∀ (name : String) (r : PipelineReducer), e.nodes.reducers[name]? = some r →
    r.engine.blockGroups = ∅) ∧
  ∀ (name : String) (v : PipelineView), e.nodes.mvs[name]? = some v →
    v.shape.slidingWindow = none → v.engine.blockGroups = ∅

/-- The nodes after finality. -/
def finalNodes (e : PipelineEngine) (block : BlockNumber) :
    Nodes PipelineReducer PipelineView :=
  (Nodes.stepNodes (fun r => (ReducerNode.advanceFinality r block, []))
    (fun v => (ViewNode.advanceFinality v block, [])) e.nodeOrder e.nodes).1

/-- The nodes after finality, exact. -/
def exactFinalNodes (e : PipelineEngine) (block : BlockNumber) :
    Nodes PipelineReducer PipelineView :=
  (Nodes.stepNodes (fun r => (exactReducer.advanceFinality r block, []))
    (fun v => (exactView.advanceFinality v block, [])) e.nodeOrder e.nodes).1

theorem finalNodes_below (e : PipelineEngine) {b : BlockNumber} (hb : b ≠ BlockNumber.max) :
    e.finalNodes b = e.exactFinalNodes b := by
  have hr : ∀ r : PipelineReducer,
      ReducerNode.advanceFinality r b = exactReducer.advanceFinality r b :=
    fun r => congrArg (fun engine => { r with engine }) (r.engine.advanceFinality_below hb)
  have hv : ∀ v : PipelineView,
      ViewNode.advanceFinality v b = exactView.advanceFinality v b :=
    fun v => congrArg (fun engine => { v with engine }) (v.engine.advanceFinality_below hb)
  simp only [finalNodes, exactFinalNodes, hr, hv]

omit [ViewStorage] in
/-- At `u64::MAX` the finality of a reducer changes nothing. -/
theorem reducer_final_max (r : PipelineReducer) :
    ReducerNode.advanceFinality r BlockNumber.max = r :=
  congrArg (fun engine => { r with engine }) r.engine.advanceFinality_max

theorem view_final_max {v : PipelineView} (hv : v.shape.slidingWindow = none) :
    ViewNode.advanceFinality v BlockNumber.max = v :=
  congrArg (fun engine => { v with engine }) (MVEngine.advanceFinality_max hv v.engine)

omit [ViewStorage] in
/-- Without tracked blocks the exact finality changes nothing either. -/
theorem reducer_exact_untracked {r : PipelineReducer} (h : r.engine.blockGroups = ∅)
    (b : BlockNumber) : exactReducer.advanceFinality r b = r := by
  show { r with engine := r.engine.finalizeThrough b } = r
  rw [ReducerEngine.finalizeThrough_untracked h]

theorem view_exact_untracked {v : PipelineView} (hv : v.shape.slidingWindow = none)
    (h : v.engine.blockGroups = ∅) (b : BlockNumber) : exactView.advanceFinality v b = v := by
  show { v with engine := v.engine.finalizeThrough v.shape b } = v
  rw [MVEngine.finalizeThrough_untracked hv h]

/-- The finality of a sliding window is exact at every block. -/
theorem view_exact_window {v : PipelineView} (hv : v.shape.slidingWindow.isSome)
    (b : BlockNumber) : exactView.advanceFinality v b = ViewNode.advanceFinality v b := by
  show { v with engine := v.engine.finalizeThrough v.shape b }
    = { v with engine := v.engine.advanceFinality v.shape b }
  rw [(v.engine.advanceFinality_exact_iff b).mpr (.inl hv)]

/-- A step of finality on a view that no block waits for. -/
theorem view_final_untracked {v : PipelineView}
    (h : v.shape.slidingWindow = none → v.engine.blockGroups = ∅) :
    ViewNode.advanceFinality v BlockNumber.max = exactView.advanceFinality v BlockNumber.max ∧
      ((ViewNode.advanceFinality v BlockNumber.max).shape.slidingWindow = none →
        (ViewNode.advanceFinality v BlockNumber.max).engine.blockGroups = ∅) := by
  cases hs : v.shape.slidingWindow with
  | none =>
    rw [view_final_max hs, view_exact_untracked hs (h hs)]
    exact ⟨rfl, fun _ => h hs⟩
  | some sw =>
    refine ⟨(view_exact_window (by rw [hs]; rfl) _).symm, fun hnone => ?_⟩
    cases hnone

theorem finalNodes_untracked {e : PipelineEngine} (h : e.Untracked) (b : BlockNumber) :
    e.finalNodes b = e.exactFinalNodes b := by
  by_cases hb : b = BlockNumber.max
  swap
  · exact e.finalNodes_below hb
  subst hb
  apply Nodes.ext
  · apply ExtTreeMap.ext_getElem?
    intro name
    rw [finalNodes, exactFinalNodes, Nodes.stepNodes_reducers, Nodes.stepNodes_reducers]
    cases hr : e.nodes.reducers[name]? with
    | none => rw [Option.map_none, Option.map_none]
    | some r =>
      rw [Option.map_some, Option.map_some, Option.some.injEq]
      apply iterate_agree (P := fun r => r.engine.blockGroups = ∅)
      · intro r hr
        dsimp only
        rw [reducer_final_max, reducer_exact_untracked hr]
        exact ⟨rfl, hr⟩
      · exact h.1 name r hr
  · apply ExtTreeMap.ext_getElem?
    intro name
    rw [finalNodes, exactFinalNodes, Nodes.stepNodes_mvs, Nodes.stepNodes_mvs]
    cases hv : e.nodes.mvs[name]? with
    | none => rw [Option.map_none, Option.map_none]
    | some v =>
      rw [Option.map_some, Option.map_some, Option.some.injEq]
      apply iterate_agree (P := fun v => v.shape.slidingWindow = none → v.engine.blockGroups = ∅)
      · exact fun v hv => view_final_untracked hv
      · exact h.2 name v hv

/-- **The nodes after finality are exact** unless it is at `u64::MAX` and a block waits for it. -/
theorem finalNodes_exact_iff (e : PipelineEngine) (b : BlockNumber) :
    e.finalNodes b = e.exactFinalNodes b ↔ b ≠ BlockNumber.max ∨ e.Untracked := by
  constructor
  · intro h
    by_cases hb : b = BlockNumber.max
    swap
    · exact .inl hb
    subst hb
    right
    constructor
    · intro name r hr
      have hlook := congrArg (fun nodes => nodes.reducers[name]?) h
      simp only [finalNodes, exactFinalNodes, Nodes.stepNodes_reducers, hr, Option.map_some,
        Option.some.injEq, reducer_final_max] at hlook
      have hkeep : (fun r : PipelineReducer => r)^[e.nodeOrder.count (.reducer name)] r = r :=
        Function.iterate_fixed rfl _
      have hpos := List.count_pos_iff.mpr (mem_nodeOrder_reducer hr)
      rw [hkeep] at hlook
      rw [hlook]
      refine iterate_establish (P := fun r => r.engine.blockGroups = ∅) ?_ hpos r
      intro r
      exact (r.engine.finalizeThrough_blockGroups _).trans (BlockNumber.keep_above_max _)
    · intro name v hv hs
      have hlook := congrArg (fun nodes => nodes.mvs[name]?) h
      simp only [finalNodes, exactFinalNodes, Nodes.stepNodes_mvs, hv, Option.map_some,
        Option.some.injEq] at hlook
      have hkeep : (fun v : PipelineView => (ViewNode.advanceFinality v BlockNumber.max))^[
          e.nodeOrder.count (.mv name)] v = v :=
        Function.iterate_fixed (view_final_max hs) _
      have hpos := List.count_pos_iff.mpr (mem_nodeOrder_mv hv)
      rw [hkeep] at hlook
      have hempty := iterate_establish (f := fun v : PipelineView =>
          exactView.advanceFinality v BlockNumber.max)
        (P := fun v => v.shape.slidingWindow = none → v.engine.blockGroups = ∅) ?_ hpos v
      · rw [← hlook] at hempty
        exact hempty hs
      · exact fun v hs => (v.engine.finalizeThrough_blockGroups hs _).trans
          (BlockNumber.keep_above_max _)
  · rintro (hb | h)
    · exact e.finalNodes_below hb
    · exact finalNodes_untracked h b

/-- A finality that the engine has reached, with its state on disk: the call returns at once. -/
def finalityReached (e : PipelineEngine) (block : BlockNumber) : Bool :=
  e.hasFinalized && block == e.finalizedBlock && e.durableThrough block

/-- Finality at `block` has no bound to compute, or one that does not wrap. -/
def FinalityBounded (e : PipelineEngine) (block : BlockNumber) : Prop :=
  block ≠ BlockNumber.max ∨ e.Untracked ∨ e.finalityReached block

/-- **Finality is exact** unless it is at `u64::MAX` and a block waits for it. -/
theorem advanceFinality_exact_iff (e : PipelineEngine) (b : BlockNumber) :
    e.advanceFinality b = @advanceFinality _ _ exactReducer exactView e b ↔
      e.FinalityBounded b := by
  by_cases hreached : e.finalityReached b = true
  · have hcode : e.advanceFinality b = e := if_pos hreached
    have hexact : @advanceFinality _ _ exactReducer exactView e b = e := if_pos hreached
    rw [hcode, hexact]
    exact ⟨fun _ => .inr (.inr hreached), fun _ => rfl⟩
  · have hcode : e.advanceFinality b = pruneBlockHashes { e with
        nodes := e.finalNodes b, nodesFinalAt := none, finalizedBlock := b,
        hasFinalized := true } := if_neg hreached
    have hexact : @advanceFinality _ _ exactReducer exactView e b = pruneBlockHashes { e with
        nodes := e.exactFinalNodes b, nodesFinalAt := none, finalizedBlock := b,
        hasFinalized := true } := if_neg hreached
    rw [hcode, hexact]
    have hnodes : FinalityBounded e b ↔ e.finalNodes b = e.exactFinalNodes b := by
      rw [finalNodes_exact_iff]
      simp [FinalityBounded, hreached]
    rw [hnodes]
    refine ⟨fun h => congrArg SettleEngine.nodes h, fun h => by rw [h]⟩

/-- Whether `restore_finality` advances the finality of the nodes: it does not while an external
reducer has no callback. -/
def restoresNodes (e : PipelineEngine) (block : BlockNumber) : Bool :=
  !(match e.durableBlock, e.latestBlock with
    | some durable, some latest => decide (durable < min latest block)
    | _, _ => false) || e.reducerWithoutCallback.isNone

/-- **The restore of finality is exact** where its finality is. -/
theorem restoreFinality_exact_iff (e : PipelineEngine) (b : BlockNumber) :
    e.restoreFinality b = @restoreFinality _ _ exactReducer exactView e b ↔
      (e.restoresNodes b → e.FinalityBounded b) := by
  by_cases h : e.restoresNodes b = true
  · have hcode : e.restoreFinality b = e.advanceFinality b := if_pos h
    have hexact : @restoreFinality _ _ exactReducer exactView e b
        = @advanceFinality _ _ exactReducer exactView e b := if_pos h
    rw [hcode, hexact, advanceFinality_exact_iff]
    exact ⟨fun hb _ => hb, fun hb => hb h⟩
  · have hcode : e.restoreFinality b
        = pruneBlockHashes { e with nodesFinalAt := e.durableBlock, finalizedBlock := b } :=
      if_neg h
    have hexact : @restoreFinality _ _ exactReducer exactView e b
        = pruneBlockHashes { e with nodesFinalAt := e.durableBlock, finalizedBlock := b } :=
      if_neg h
    rw [hcode, hexact]
    exact ⟨fun _ hr => absurd hr h, fun _ => rfl⟩

/-! ## Rollback -/

omit [ViewStorage] in
/-- Nodes that roll back alike unwind alike. -/
theorem unwindNodes_congr {R V : Type} (i₁ i₂ : ReducerNode R) (j₁ j₂ : ViewNode V)
    (hr : ∀ r p, i₁.rollback r p = i₂.rollback r p)
    (hv : ∀ v p, j₁.rollback v p = j₂.rollback v p) (e : SettleEngine R V) (store : Store)
    (pending : List WriteBatch) (p : BlockNumber) (order : List PipelineNode)
    (nodes : Nodes R V) :
    @unwindNodes R V i₁ j₁ e store pending p order nodes
      = @unwindNodes R V i₂ j₂ e store pending p order nodes := by
  induction order generalizing nodes with
  | nil => rfl
  | cons node rest ih =>
    cases node with
    | mv name =>
      simp only [unwindNodes]
      cases nodes.mvs[name]? with
      | none => exact ih nodes
      | some v =>
        dsimp only
        rw [hv, ih]
    | reducer name =>
      simp only [unwindNodes]
      cases nodes.reducers[name]? with
      | none => exact ih nodes
      | some r =>
        dsimp only
        rw [hr, ih]
    | rawTable name =>
      simp only [unwindNodes, ih]

/-- The rollback of the nodes is exact. -/
theorem unwindTo_exact (e : PipelineEngine) (store : Store) (pending : List WriteBatch)
    (p : BlockNumber) :
    @unwindTo _ _ exactReducer exactView e store pending p = e.unwindTo store pending p := by
  unfold unwindTo
  rw [unwindNodes_congr exactReducer inferInstance exactView inferInstance ?_ ?_]
  · exact fun r p => congrArg (fun engine => { r with engine }) (r.engine.rollback_eq_above p).symm
  · intro v p
    exact congrArg (fun rolledBack => ({ v with engine := rolledBack.1 }, rolledBack.2))
      (v.engine.rollback_eq_above p).symm

/-- At `u64::MAX` no raw row goes, and the rollback does not fail. -/
theorem unwindNodes_max (e : PipelineEngine) (store : Store) (pending : List WriteBatch)
    (order : List PipelineNode) (nodes : Nodes PipelineReducer PipelineView) :
    ∃ nodes' writes changes,
      e.unwindNodes store pending BlockNumber.max order nodes = (nodes', writes, .ok changes) := by
  induction order generalizing nodes with
  | nil => exact ⟨nodes, [], [], rfl⟩
  | cons node rest ih =>
    cases node with
    | mv name =>
      simp only [unwindNodes]
      cases nodes.mvs[name]? with
      | none => exact ih nodes
      | some v =>
        obtain ⟨nodes', writes, changes, h⟩ := ih { nodes with
          mvs := nodes.mvs.insert name (ViewNode.rollback v BlockNumber.max).1 }
        dsimp only
        rw [h]
        exact ⟨_, _, _, rfl⟩
    | reducer name =>
      simp only [unwindNodes]
      cases nodes.reducers[name]? with
      | none => exact ih nodes
      | some r => exact ih _
    | rawTable name =>
      simp only [unwindNodes]
      cases e.rawTables[name]? with
      | none => exact ih nodes
      | some raw =>
        obtain ⟨nodes', writes, changes, h⟩ := ih nodes
        simp only [RawTableEngine.rollbackToBatch, if_true, h]
        exact ⟨_, _, _, rfl⟩

/-- A rollback to `p` has no hashes above `p` to find, or a bound that does not wrap. -/
def RollbackBounded (e : PipelineEngine) (p : BlockNumber) : Prop :=
  p ≠ BlockNumber.max ∨ e.latestBlock ≠ some BlockNumber.max ∨ e.blockHashes = ∅

omit [ViewStorage] in
theorem dropHashes_above (e : PipelineEngine) {p : BlockNumber} (hp : p ≠ BlockNumber.max) :
    e.dropHashes (p + 1) = e.dropHashesAbove p := by
  have hfilter : ∀ blocks : List BlockNumber,
      blocks.filter (p + 1 ≤ ·) = blocks.filter (p < ·) := by
    intro blocks
    congr 1
    funext k
    exact decide_eq_decide.mpr (BlockNumber.succ_le_iff hp)
  rw [dropHashes, dropHashesAbove, BlockNumber.keep_before_succ _ hp, hfilter]

omit [ViewStorage] in
/-- Without hashes there is nothing to drop. -/
theorem dropHashes_none {e : PipelineEngine} (h : e.blockHashes = ∅) (b p : BlockNumber) :
    e.dropHashes b = e.dropHashesAbove p := by
  simp [dropHashes, dropHashesAbove, h, OrdMap.keep_empty, BlockNumber.toList_none]

/-- The hashes after a rollback to the latest block `u64::MAX`: the code drops those from the
wrapped bound on, which are all. -/
theorem rollback_at_max {e : PipelineEngine} (hlatest : e.latestBlock = some BlockNumber.max)
    (store : Store) (pending : List WriteBatch) :
    ∃ (e' : PipelineEngine) (writes : WriteBatch) (changes : List ChangeRecord),
      e'.blockHashes = e.blockHashes ∧
      e.rollbackToBatch store pending BlockNumber.max
        = (e'.dropHashes (BlockNumber.max + 1), writes, .ok changes) ∧
      e.exactRollback store pending BlockNumber.max
        = (e'.dropHashesAbove BlockNumber.max, writes, .ok changes) := by
  have hunder : ¬ e.latestBlock.getD 0 < BlockNumber.max := by
    rw [hlatest]
    exact BlockNumber.not_max_lt _
  have hcheck : e.checkRollbackTarget BlockNumber.max = .ok () := by
    rw [checkRollbackTarget, if_neg hunder, if_neg (BlockNumber.not_max_lt _)]
  obtain ⟨nodes, writes, changes, h⟩ :=
    unwindNodes_max e store pending e.pipeline.reverse e.nodes
  have hunwound : e.unwindTo store pending BlockNumber.max
      = ({ e with nodes := nodes, latestBlock := some BlockNumber.max }, writes, .ok changes) := by
    rw [unwindTo, h]
  refine ⟨{ e with nodes := nodes, latestBlock := some BlockNumber.max }, writes, changes, rfl,
    ?_, ?_⟩
  · rw [rollbackToBatch, hcheck]
    dsimp only
    rw [if_neg hunder, hunwound]
  · rw [exactRollback, hcheck]
    dsimp only
    rw [if_neg hunder, unwindTo_exact, hunwound]

/-- **A rollback is exact** unless it is to `u64::MAX`, the latest block, with hashes on
record. -/
theorem rollback_exact_iff (e : PipelineEngine) (store : Store) (pending : List WriteBatch)
    (p : BlockNumber) :
    e.rollbackToBatch store pending p = e.exactRollback store pending p ↔ e.RollbackBounded p := by
  by_cases hp : p = BlockNumber.max
  · subst hp
    by_cases hlatest : e.latestBlock = some BlockNumber.max
    · obtain ⟨e', writes, changes, hsame, hcode, hexact⟩ := rollback_at_max hlatest store pending
      rw [hcode, hexact]
      constructor
      · intro h
        have hhashes := congrArg (fun r => r.1.blockHashes) h
        dsimp only [dropHashes, dropHashesAbove] at hhashes
        rw [BlockNumber.keep_before_zero, BlockNumber.keep_through_max, hsame] at hhashes
        exact .inr (.inr hhashes.symm)
      · rintro (h | h | h)
        · exact absurd rfl h
        · exact absurd hlatest h
        · rw [dropHashes_none (hsame.trans h)]
    · -- below the target: both return
      have hbelow : e.latestBlock.getD 0 < BlockNumber.max := by
        cases hl : e.latestBlock with
        | none => decide
        | some latest =>
          have hne : latest ≠ BlockNumber.max := fun h => hlatest (by rw [hl, h])
          exact UInt64.lt_of_le_of_ne (BlockNumber.le_max latest) hne
      have hcheck : e.checkRollbackTarget BlockNumber.max = .ok () := by
        rw [checkRollbackTarget, if_pos hbelow]
      have hcode : e.rollbackToBatch store pending BlockNumber.max = (e, [], .ok []) := by
        rw [rollbackToBatch, hcheck]
        exact if_pos hbelow
      have hexact : e.exactRollback store pending BlockNumber.max = (e, [], .ok []) := by
        rw [exactRollback, hcheck]
        exact if_pos hbelow
      exact ⟨fun _ => .inr (.inl hlatest), fun _ => hcode.trans hexact.symm⟩
  · refine ⟨fun _ => .inl hp, fun _ => ?_⟩
    rw [rollbackToBatch, exactRollback, unwindTo_exact]
    cases e.checkRollbackTarget p with
    | error err => rfl
    | ok =>
      dsimp only
      split
      · rfl
      · rcases e.unwindTo store pending p with ⟨e', writes, err | changes⟩
        · rfl
        · dsimp only
          rw [dropHashes_above e' hp]

/-- The reload of the nodes computes no bound. -/
theorem reloadNodes_exact (store : Store) (order : List PipelineNode)
    (nodes : Nodes PipelineReducer PipelineView) :
    @reloadNodes _ _ exactReducer exactView store order nodes = reloadNodes store order nodes := by
  induction order generalizing nodes with
  | nil => rfl
  | cons node rest ih =>
    cases node with
    | rawTable name =>
      simp only [reloadNodes]
      exact ih nodes
    | reducer name =>
      simp only [reloadNodes]
      cases nodes.reducers[name]? with
      | none => exact ih nodes
      | some r => exact ih _
    | mv name =>
      simp only [reloadNodes]
      cases nodes.mvs[name]? with
      | none => exact ih nodes
      | some v =>
        dsimp only
        cases (ViewNode.reload v store).2 with
        | error err => rfl
        | ok => exact ih _

/-- The undo of a failed ingest is exact. -/
theorem undoIngest_exact (e : PipelineEngine) (store : Store) (pending : List WriteBatch)
    (block : Option BlockNumber) :
    @undoIngest _ _ exactReducer exactView e store pending block
      = e.undoIngest store pending block := by
  have hdiscard : @discardChanges _ _ exactView e = e.discardChanges := rfl
  unfold undoIngest
  rw [hdiscard]
  cases block with
  | none =>
    dsimp only
    rw [reloadNodes_exact]
  | some block =>
    dsimp only
    rw [unwindTo_exact]

/-- The rollbacks of a chain are exact. -/
theorem rolledBackChain_exact (e : PipelineEngine) (name : String) (p : BlockNumber) :
    e.exactRolledBackChain name p = e.rolledBackChain name p := by
  have hreducer : ∀ r : PipelineReducer, exactReducer.rollback r p = ReducerNode.rollback r p :=
    fun r => congrArg (fun engine => { r with engine }) (r.engine.rollback_eq_above p).symm
  have hview : ∀ v : PipelineView, exactView.rollback v p = ViewNode.rollback v p := fun v =>
    congrArg (fun rolledBack => ({ v with engine := rolledBack.1 }, rolledBack.2))
      (v.engine.rollback_eq_above p).symm
  simp only [exactRolledBackChain, hreducer, hview, rolledBackChain]

/-- The replay of a chain is exact. -/
theorem replayChain_exact [NodeBuild PipelineReducer PipelineView] (e : PipelineEngine)
    (store : Store) (name : String) (finalized latest : BlockNumber) :
    e.exactReplayChain store name finalized latest
      = e.replayReducerChain store name finalized latest := by
  rw [exactReplayChain, rolledBackChain_exact, replayReducerChain, chainRange]
  by_cases hle : latest ≤ finalized
  · rw [if_pos hle, if_pos hle]
  · rw [if_neg hle, if_neg hle]

/-! ## Checkpoints -/

/-- The purge of raw rows at `u64::MAX` a second time. -/
def PurgesAgain (e : PipelineEngine) : Prop :=
  e.rawPurgedThrough = some BlockNumber.max ∧ e.durableBlock = some BlockNumber.max ∧
    e.rawRetentionBlocks = 0 ∧ e.rawTables.toList ≠ []

/-- The block through which a purge deletes. -/
def purgeTarget (e : PipelineEngine) : Option BlockNumber :=
  e.durableBlock.bind fun durable =>
    if durable < e.rawRetentionBlocks then none else some (durable - e.rawRetentionBlocks)

omit [ViewStorage] in
/-- A purge goes through `u64::MAX` only without a margin. -/
theorem purgeTarget_max {e : PipelineEngine} :
    e.purgeTarget = some BlockNumber.max ↔
      e.durableBlock = some BlockNumber.max ∧ e.rawRetentionBlocks = 0 := by
  constructor
  · intro h
    obtain ⟨durable, hd, h⟩ := Option.bind_eq_some_iff.mp h
    split at h
    · cases h
    · next hle =>
      have hle : e.rawRetentionBlocks ≤ durable := UInt64.not_lt.mp hle
      have hsub := congrArg UInt64.toNat (Option.some.inj h)
      rw [UInt64.toNat_sub_of_le _ _ hle] at hsub
      have hmax : BlockNumber.max.toNat = 18446744073709551615 := rfl
      have hlt := durable.toNat_lt
      have hle := UInt64.le_iff_toNat_le.mp hle
      rw [hd]
      refine ⟨congrArg some (UInt64.toNat_inj.mp ?_), UInt64.toNat_inj.mp ?_⟩
      · omega
      · show e.rawRetentionBlocks.toNat = 0
        omega
  · rintro ⟨hd, hr⟩
    rw [purgeTarget, hd, hr]
    rfl

omit [ViewStorage] in
theorem purgeRawRows_eq (e : PipelineEngine) : e.purgeRawRows =
    match e.purgeTarget with
    | none => (e, [])
    | some through =>
      let step := max (e.rawRetentionBlocks / 10) 1
      let delete (fromBlock : BlockNumber) : PipelineEngine × WriteBatch :=
        ({ e with rawPurgedThrough := some through },
          e.rawTables.toList.map fun (table, _) => .deleteRawRows table fromBlock through)
      match e.rawPurgedThrough with
      | some purged =>
        if through.toNat < min (purged.toNat + step.toNat) (2 ^ 64 - 1) then (e, [])
        else delete (purged + 1)
      | none => delete 0 := rfl

omit [ViewStorage] in
theorem exactPurge_eq (e : PipelineEngine) : e.exactPurge =
    match e.purgeTarget with
    | none => (e, [])
    | some through =>
      let step := max (e.rawRetentionBlocks / 10) 1
      let purged : PipelineEngine := { e with rawPurgedThrough := some through }
      let delete (fromBlock : BlockNumber) : WriteBatch :=
        e.rawTables.toList.map fun (table, _) => .deleteRawRows table fromBlock through
      match e.rawPurgedThrough with
      | some before =>
        if through.toNat < min (before.toNat + step.toNat) (2 ^ 64 - 1) then (e, [])
        else (purged, if through ≤ before then [] else delete (before + 1))
      | none => (purged, delete 0) := rfl

omit [ViewStorage] in
/-- The margin only spares rows: a purge that goes on after block `before` goes further, unless
`before` is the last one. -/
theorem lt_of_purge {through before step : UInt64} (hstep : 1 ≤ step.toNat)
    (h : ¬ through.toNat < min (before.toNat + step.toNat) (2 ^ 64 - 1)) :
    before < through ∨ before = BlockNumber.max ∧ through = BlockNumber.max := by
  have hmax : BlockNumber.max.toNat = 18446744073709551615 := rfl
  have hb := before.toNat_lt
  have ht := through.toNat_lt
  by_cases hlt : before.toNat < through.toNat
  · exact .inl (UInt64.lt_iff_toNat_lt.mpr hlt)
  · right
    constructor
    · apply UInt64.toNat_inj.mp
      omega
    · apply UInt64.toNat_inj.mp
      omega

omit [ViewStorage] in
/-- **A purge is exact** unless it goes through `u64::MAX` a second time. -/
theorem purge_exact_iff (e : PipelineEngine) :
    e.purgeRawRows = e.exactPurge ↔ ¬ e.PurgesAgain := by
  rw [purgeRawRows_eq, exactPurge_eq, PurgesAgain]
  cases htarget : e.purgeTarget with
  | none =>
    refine ⟨fun _ hagain => ?_, fun _ => rfl⟩
    have := purgeTarget_max.mpr ⟨hagain.2.1, hagain.2.2.1⟩
    rw [htarget] at this
    cases this
  | some through =>
    dsimp only
    cases hbefore : e.rawPurgedThrough with
    | none => exact ⟨fun _ hagain => (nomatch hagain.1), fun _ => rfl⟩
    | some before =>
      dsimp only
      split
      · next hlt =>
        refine ⟨fun _ hagain => ?_, fun _ => rfl⟩
        have hmax := purgeTarget_max.mpr ⟨hagain.2.1, hagain.2.2.1⟩
        rw [htarget] at hmax
        rw [Option.some.inj hmax, show BlockNumber.max.toNat = 18446744073709551615 from rfl] at hlt
        omega
      · next hnot =>
        have hstep : 1 ≤ (max (e.rawRetentionBlocks / 10) 1).toNat := by
          show 1 ≤ (if e.rawRetentionBlocks / 10 ≤ 1 then 1 else e.rawRetentionBlocks / 10).toNat
          split
          · decide
          · next h => exact Nat.le_of_lt (UInt64.lt_iff_toNat_lt.mp (UInt64.not_le.mp h))
        obtain hlt | ⟨rfl, rfl⟩ := lt_of_purge hstep hnot
        · rw [if_neg (UInt64.not_le.mpr hlt)]
          refine ⟨fun _ hagain => ?_, fun _ => rfl⟩
          rw [Option.some.inj hagain.1] at hlt
          exact BlockNumber.not_max_lt _ hlt
        · rw [if_pos (BlockNumber.le_max _)]
          obtain ⟨hd, hr⟩ := purgeTarget_max.mp htarget
          constructor
          · intro h hagain
            have hwrites := congrArg Prod.snd h
            exact hagain.2.2.2 (List.map_eq_nil_iff.mp hwrites)
          · intro h
            have hnil : e.rawTables.toList = [] := by
              by_contra hne
              exact h ⟨rfl, hd, hr, hne⟩
            rw [hnil]
            rfl

omit [ViewStorage] in
/-- A purge changes the engine the same way. -/
theorem purge_fst (e : PipelineEngine) : e.purgeRawRows.1 = e.exactPurge.1 := by
  rw [purgeRawRows_eq, exactPurge_eq]
  cases e.purgeTarget with
  | none => rfl
  | some through =>
    dsimp only
    cases e.rawPurgedThrough with
    | none => rfl
    | some before =>
      dsimp only
      split <;> rfl

/-- The engine between the writes of its nodes and the purge of a checkpoint. -/
def checkpointed (e : PipelineEngine) : PipelineEngine :=
  { e with
    checkpoints := e.checkpoints + 1
    nodes := (Nodes.stepNodes
      (fun r => ReducerNode.writeCheckpoint r e.finalizedBlock (e.checkpoints + 1))
      (fun v => ViewNode.writeCheckpoint v (e.checkpoints + 1)) e.nodeOrder e.nodes).1
    durableBlock := match e.latestBlock with
      | some latest => some (min e.finalizedBlock latest)
      | none => e.durableBlock }

/-- A checkpoint purges no raw rows, or its purge is not one through `u64::MAX` a second time. -/
def CheckpointBounded (e : PipelineEngine) : Prop :=
  ¬ (e.rawPurgedThrough = some BlockNumber.max ∧ e.finalizedBlock = BlockNumber.max ∧
    e.latestBlock = some BlockNumber.max ∧ e.durableBlock ≠ some BlockNumber.max ∧
    e.rawRetentionBlocks = 0 ∧ e.rawTables.toList ≠ [])

omit [ViewStorage] in
theorem durableThrough_max {e : PipelineEngine} :
    e.durableThrough BlockNumber.max = true ↔ e.durableBlock = some BlockNumber.max := by
  unfold durableThrough
  cases e.durableBlock with
  | none => simp
  | some durable =>
    simp only [decide_eq_true_eq, Option.some.injEq]
    exact ⟨fun h => UInt64.le_antisymm (BlockNumber.le_max _) h, fun h => h ▸ UInt64.le_refl _⟩

omit [ViewStorage] in
theorem min_eq_max {a b : BlockNumber} :
    min a b = BlockNumber.max ↔ a = BlockNumber.max ∧ b = BlockNumber.max := by
  constructor
  · intro h
    have ha : min a b ≤ a := Std.min_le_left
    have hb : min a b ≤ b := Std.min_le_right
    rw [h] at ha hb
    exact ⟨UInt64.le_antisymm (BlockNumber.le_max a) ha,
      UInt64.le_antisymm (BlockNumber.le_max b) hb⟩
  · rintro ⟨rfl, rfl⟩
    rfl

/-- When a checkpoint purges through `u64::MAX` a second time. -/
theorem checkpointBounded_iff (e : PipelineEngine) :
    e.CheckpointBounded ↔
      e.durableThrough e.finalizedBlock = true ∨ ¬ e.checkpointed.PurgesAgain := by
  rw [CheckpointBounded, PurgesAgain]
  show _ ↔ _ ∨ ¬ (e.rawPurgedThrough = some BlockNumber.max ∧
    (match e.latestBlock with
      | some latest => some (min e.finalizedBlock latest)
      | none => e.durableBlock) = some BlockNumber.max ∧
    e.rawRetentionBlocks = 0 ∧ e.rawTables.toList ≠ [])
  constructor
  · intro h
    by_cases hd : e.durableThrough e.finalizedBlock = true
    · exact .inl hd
    · right
      rintro ⟨hpurged, hdurable, hretention, htables⟩
      cases hlatest : e.latestBlock with
      | none =>
        rw [hlatest] at hdurable
        apply hd
        have hd : e.durableBlock = some BlockNumber.max := hdurable
        rw [durableThrough, hd]
        exact decide_eq_true (BlockNumber.le_max _)
      | some latest =>
        rw [hlatest] at hdurable
        obtain ⟨hfinal, rfl⟩ := min_eq_max.mp (Option.some.inj hdurable)
        refine h ⟨hpurged, hfinal, hlatest, ?_, hretention, htables⟩
        rw [hfinal] at hd
        exact fun hmax => hd (durableThrough_max.mpr hmax)
  · rintro hor ⟨hpurged, hfinal, hlatest, hdurable, hretention, htables⟩
    obtain hd | hagain := hor
    · rw [hfinal] at hd
      exact hdurable (durableThrough_max.mp hd)
    · refine hagain ⟨hpurged, ?_, hretention, htables⟩
      rw [hlatest, hfinal]
      rfl

/-- **A checkpoint is exact** unless its purge goes through `u64::MAX` a second time. -/
theorem writeCheckpoint_exact_iff (e : PipelineEngine) :
    e.writeCheckpoint = e.exactCheckpoint ↔ e.CheckpointBounded := by
  by_cases h : e.durableThrough e.finalizedBlock = true
  · have hcode : e.writeCheckpoint = (e, []) := if_pos h
    have hexact : e.exactCheckpoint = (e, []) := if_pos h
    rw [hcode, hexact]
    exact ⟨fun _ => e.checkpointBounded_iff.mpr (.inl h), fun _ => rfl⟩
  · have hcode : e.writeCheckpoint = (e.checkpointed.purgeRawRows.1.pruneBlockHashes,
        (Nodes.stepNodes
          (fun r => ReducerNode.writeCheckpoint r e.finalizedBlock (e.checkpoints + 1))
          (fun v => ViewNode.writeCheckpoint v (e.checkpoints + 1)) e.nodeOrder e.nodes).2
          ++ e.checkpointed.purgeRawRows.2) := if_neg h
    have hexact : e.exactCheckpoint = (e.checkpointed.exactPurge.1.pruneBlockHashes,
        (Nodes.stepNodes
          (fun r => ReducerNode.writeCheckpoint r e.finalizedBlock (e.checkpoints + 1))
          (fun v => ViewNode.writeCheckpoint v (e.checkpoints + 1)) e.nodeOrder e.nodes).2
          ++ e.checkpointed.exactPurge.2) := if_neg h
    rw [hcode, hexact, purge_fst]
    have hpurge : e.CheckpointBounded ↔
        e.checkpointed.purgeRawRows.2 = e.checkpointed.exactPurge.2 := by
      rw [checkpointBounded_iff, ← purge_exact_iff]
      constructor
      · rintro (hd | hp)
        · exact absurd hd h
        · rw [hp]
      · exact fun hw => .inr (Prod.ext (purge_fst _) hw)
    rw [hpurge]
    constructor
    · exact fun hw => List.append_cancel_left (congrArg Prod.snd hw)
    · exact fun hw => by rw [hw]

/-! ## Replay -/

omit [ViewStorage] in
/-- **The range of a replay is exact** unless the durable block is `u64::MAX`. -/
theorem replayRange_exact_iff (e : PipelineEngine) :
    e.replayRange = e.exactReplayRange ↔ e.durableBlock ≠ some BlockNumber.max := by
  rw [replayRange, exactReplayRange]
  cases e.durableBlock with
  | none => simp
  | some durable =>
    by_cases hd : durable = BlockNumber.max
    · subst hd
      simp [BlockNumber.max_add_one, BlockNumber.not_max_lt]
    · simp [BlockNumber.succ_le_iff hd, hd]

omit [ViewStorage] in
/-- A read of replay goes on above the last block that it read. -/
theorem refill_next {read : RawReader} {readBlocks : Nat} {toBlock next : BlockNumber}
    {c c' : ReplayCursor} (hrows : c.rows = []) (h : c.refill read readBlocks toBlock = .ok c')
    (hread : c.nextFrom.isSome) (hnext : c'.nextFrom = some next) :
    ∃ last, c'.rows.getLast? = some last ∧ ∀ block, next ≤ block ↔ last.1 < block := by
  obtain ⟨fromBlock, hfrom⟩ := Option.isSome_iff_exists.mp hread
  unfold ReplayCursor.refill at h
  rw [hfrom, hrows] at h
  dsimp only at h
  cases hpart : read c.table fromBlock toBlock readBlocks with
  | error err =>
    rw [hpart] at h
    cases h
  | ok part =>
    rw [hpart] at h
    obtain rfl := Except.ok.inj h
    dsimp only at hnext
    cases hlast : part.getLast? with
    | none =>
      rw [hlast] at hnext
      cases hnext
    | some last =>
      rw [hlast] at hnext
      dsimp only at hnext
      split at hnext
      · next hmore =>
        obtain rfl := Option.some.inj hnext
        have hne : last.1 ≠ BlockNumber.max := BlockNumber.ne_max_of_lt hmore.2
        exact ⟨last, rfl, fun block => BlockNumber.succ_le_iff hne⟩
      · cases hnext

/-! ## Runs -/

variable [NodeBuild PipelineReducer PipelineView]

/-- The bounds of a call do not wrap, or nothing hangs on them. -/
def Bounded (e : PipelineEngine) : EngineCall → Prop
  | .rollback _ _ forkPoint => e.RollbackBounded forkPoint
  | .advanceFinality block => e.FinalityBounded block
  | .restoreFinality block => e.restoresNodes block → e.FinalityBounded block
  | .writeCheckpoint => e.CheckpointBounded
  | .replay _ => e.durableBlock ≠ some BlockNumber.max
  | _ => True

theorem replayStep_range (e : PipelineEngine) (store : Store)
    (range : Option (BlockNumber × BlockNumber)) :
    (e.replayStep store range).2.replayed = range := by
  unfold replayStep
  cases e.replayBlocks store range <;> rfl

/-- **A step is exact if and only if its bounds are.** -/
theorem callStep_exact_iff (e : PipelineEngine) (call : EngineCall) :
    e.callStep call = e.exactStep call ↔ e.Bounded call := by
  cases call with
  | undoIngest store pending block =>
    refine ⟨fun _ => trivial, fun _ => ?_⟩
    rw [callStep, exactStep, undoIngest_exact]
  | rollback store pending forkPoint =>
    rw [callStep, exactStep, Bounded, ← rollback_exact_iff e store pending]
    constructor
    · intro h
      have hengine := congrArg Prod.fst h
      have hwrites := congrArg (fun s => s.2.writes) h
      have hresult := congrArg (fun s => s.2.result) h
      exact Prod.ext hengine (Prod.ext hwrites hresult)
    · exact fun h => by rw [h]
  | advanceFinality block =>
    rw [callStep, exactStep, Bounded, ← advanceFinality_exact_iff]
    exact ⟨fun h => congrArg Prod.fst h, fun h => by rw [h]⟩
  | restoreFinality block =>
    rw [callStep, exactStep, Bounded, ← restoreFinality_exact_iff]
    exact ⟨fun h => congrArg Prod.fst h, fun h => by rw [h]⟩
  | writeCheckpoint =>
    rw [callStep, exactStep, Bounded, ← writeCheckpoint_exact_iff]
    constructor
    · intro h
      have hengine := congrArg Prod.fst h
      have hwrites := congrArg (fun s => s.2.writes) h
      exact Prod.ext hengine hwrites
    · exact fun h => by rw [h]
  | replay store =>
    rw [callStep, exactStep, Bounded, ← replayRange_exact_iff]
    constructor
    · intro h
      have hrange := congrArg (fun s => s.2.replayed) h
      rwa [replayStep_range, replayStep_range] at hrange
    · exact fun h => by rw [h]
  | replayReducerChain store name finalized latest =>
    refine ⟨fun _ => trivial, fun _ => ?_⟩
    rw [callStep, exactStep, replayChain_exact]
  | _ => exact ⟨fun _ => trivial, fun _ => rfl⟩

/-- The calls of a run, each of which is exact in the state that the code reached. -/
def ExactAlong (e : PipelineEngine) : List EngineCall → Prop
  | [] => True
  | call :: calls => e.callStep call = e.exactStep call ∧ ExactAlong (e.callStep call).1 calls

/-- The calls of a run, each of which meets the condition in the state that the code reached. -/
def BoundedAlong (e : PipelineEngine) : List EngineCall → Prop
  | [] => True
  | call :: calls => e.Bounded call ∧ BoundedAlong (e.callStep call).1 calls

/-- **Block arithmetic at the limit.** The calls of a run have the effect that they have at every
smaller block, exactly if the bounds of each do not wrap in the state that it meets. -/
theorem exactAlong_iff (e : PipelineEngine) (calls : List EngineCall) :
    e.ExactAlong calls ↔ e.BoundedAlong calls := by
  induction calls generalizing e with
  | nil => exact Iff.rfl
  | cons call calls ih =>
    rw [ExactAlong, BoundedAlong, callStep_exact_iff, ih]

/-! ## What exact calls do -/

omit [ViewStorage] [NodeBuild PipelineReducer PipelineView] in
/-- The blocks that an exact replay reads are those above the durable block. -/
theorem mem_exactReplayRange (e : PipelineEngine) (block : BlockNumber) :
    (∃ range, e.exactReplayRange = some range ∧ range.1 ≤ block ∧ block ≤ range.2) ↔
      (∀ durable, e.durableBlock = some durable → durable < block) ∧
        block ≤ e.latestBlock.getD 0 := by
  rw [exactReplayRange]
  cases e.durableBlock with
  | none => simp
  | some durable =>
    dsimp only
    constructor
    · rintro ⟨range, hrange, hfrom, hto⟩
      split at hrange
      · next hlt =>
        obtain rfl := Option.some.inj hrange
        refine ⟨fun d hd => ?_, hto⟩
        obtain rfl := Option.some.inj hd
        exact (BlockNumber.succ_le_iff (BlockNumber.ne_max_of_lt hlt)).mp hfrom
      · cases hrange
    · rintro ⟨habove, hto⟩
      have hlt := habove durable rfl
      have hlatest := UInt64.lt_of_lt_of_le hlt hto
      refine ⟨_, if_pos hlatest, ?_, hto⟩
      exact (BlockNumber.succ_le_iff (BlockNumber.ne_max_of_lt hlt)).mpr hlt

omit [ViewStorage] [NodeBuild PipelineReducer PipelineView] in
/-- The replay of a chain reads the blocks above the final one. -/
theorem mem_chainRange (finalized latest block : BlockNumber) :
    (∃ range, chainRange finalized latest = some range ∧ range.1 ≤ block ∧ block ≤ range.2) ↔
      finalized < block ∧ block ≤ latest := by
  unfold chainRange
  constructor
  · rintro ⟨range, hrange, hfrom, hto⟩
    split at hrange
    · cases hrange
    · next hlt =>
      obtain rfl := Option.some.inj hrange
      have hne := BlockNumber.ne_max_of_lt (UInt64.not_le.mp hlt)
      exact ⟨(BlockNumber.succ_le_iff hne).mp hfrom, hto⟩
  · rintro ⟨hlt, hto⟩
    have hlatest := UInt64.lt_of_lt_of_le hlt hto
    refine ⟨_, if_neg (UInt64.not_le.mpr hlatest), ?_, hto⟩
    exact (BlockNumber.succ_le_iff (BlockNumber.ne_max_of_lt hlatest)).mpr hlt

omit [ViewStorage] [NodeBuild PipelineReducer PipelineView] in
/-- An exact purge deletes the rows of the blocks above the ones that it deleted before. -/
theorem exactPurge_range (e : PipelineEngine) :
    ∀ op ∈ e.exactPurge.2, ∃ table fromBlock through,
      op = .deleteRawRows table fromBlock through ∧ e.purgeTarget = some through ∧
      ∀ block, fromBlock ≤ block ↔ ∀ before, e.rawPurgedThrough = some before → before < block := by
  intro op hop
  rw [exactPurge_eq] at hop
  cases htarget : e.purgeTarget with
  | none =>
    rw [htarget] at hop
    cases hop
  | some through =>
    rw [htarget] at hop
    dsimp only at hop
    cases hbefore : e.rawPurgedThrough with
    | none =>
      rw [hbefore] at hop
      obtain ⟨t, -, rfl⟩ := List.mem_map.mp hop
      refine ⟨_, _, _, rfl, rfl, fun block => ?_⟩
      simp
    | some before =>
      rw [hbefore] at hop
      dsimp only at hop
      split at hop
      · cases hop
      · dsimp only at hop
        split at hop
        · cases hop
        · next hlt =>
          obtain ⟨t, -, rfl⟩ := List.mem_map.mp hop
          have hne := BlockNumber.ne_max_of_lt (UInt64.not_le.mp hlt)
          refine ⟨_, _, _, rfl, rfl, fun block => ?_⟩
          rw [BlockNumber.succ_le_iff hne]
          simp

end SettleEngine

/-- **Block arithmetic at the limit.** In a run from any state, the calls do at every block what
they do at small ones if and only if the bounds of each are `Bounded` in the state that it meets.
Then finality at a block leaves to the nodes the blocks above it, a rollback keeps the blocks and
hashes up to it and deletes the raw rows above it, a replay reads the blocks above the durable
one, the replay of a chain the blocks above the final one, and a purge deletes the rows above the
ones that it deleted before. -/
theorem block_limits [ViewStorage] [NodeBuild PipelineReducer PipelineView]
    (e : PipelineEngine) (calls : List EngineCall) :
    (e.ExactAlong calls ↔ e.BoundedAlong calls) ∧
    (∀ (r : ReducerEngine) (b block : BlockNumber),
      (block ∈ (r.finalizeThrough b).blockGroups ↔ block ∈ r.blockGroups ∧ b < block) ∧
      (block ∈ (r.rollbackAbove b).blockGroups ↔ block ∈ r.blockGroups ∧ block ≤ b)) ∧
    (∀ (v : MVShape) (m : MVEngine) (b block : BlockNumber),
      block ∈ (m.finalizeThrough v b).blockGroups ↔
        block ∈ m.blockGroups ∧ (v.slidingWindow.isSome ∨ b < block)) ∧
    (∀ (e : PipelineEngine) (b block : BlockNumber),
      block ∈ (e.dropHashesAbove b).blockHashes ↔ block ∈ e.blockHashes ∧ block ≤ b) ∧
    (∀ (t : RawTableEngine) (store s : Store) (pending : List WriteBatch) (table : String)
      (b block : BlockNumber),
      (s.commit (t.rollbackToBatch store pending b).1).raw[(table, block)]?
        = if table = t.name ∧ b < block then none else s.raw[(table, block)]?) ∧
    (∀ (e : PipelineEngine) (block : BlockNumber),
      (∃ range, e.exactReplayRange = some range ∧ range.1 ≤ block ∧ block ≤ range.2) ↔
        (∀ durable, e.durableBlock = some durable → durable < block) ∧
          block ≤ e.latestBlock.getD 0) ∧
    (∀ finalized latest block : BlockNumber,
      (∃ range, SettleEngine.chainRange finalized latest = some range ∧
        range.1 ≤ block ∧ block ≤ range.2) ↔ finalized < block ∧ block ≤ latest) ∧
    ∀ (e : PipelineEngine), ∀ op ∈ e.exactPurge.2, ∃ table fromBlock through,
      op = .deleteRawRows table fromBlock through ∧ e.purgeTarget = some through ∧
      ∀ block, fromBlock ≤ block ↔
        ∀ before, e.rawPurgedThrough = some before → before < block := by
  refine ⟨SettleEngine.exactAlong_iff e calls, ?_, ?_, ?_, ?_, SettleEngine.mem_exactReplayRange,
    SettleEngine.mem_chainRange, SettleEngine.exactPurge_range⟩
  · intro r b block
    rw [ReducerEngine.finalizeThrough_blockGroups]
    exact ⟨by simp, by simp [ReducerEngine.rollbackAbove]⟩
  · intro v m b block
    cases hv : v.slidingWindow with
    | none =>
      rw [MVEngine.finalizeThrough_blockGroups hv]
      simp
    | some sw => simp [MVEngine.finalizeThrough, MVEngine.advanceWindow, hv]
  · intro e b block
    simp [SettleEngine.dropHashesAbove]
  · exact fun t store s pending table b block =>
      SettleEngine.rawRollback_writes t store pending b s table block

/-! ## The last block -/

/-- Storage without state of views. -/
@[reducible] def noViewStorage : ViewStorage where
  reads _ _ := { hasState := .ok false, group := fun _ => .ok none, window := .ok [] }
  write v _ := .deleteMvState v.name []
  write_state _ _ := rfl
  unreadable _ _ := {}

/-- Nodes that are not built. -/
@[reducible] def noNodeBuild : NodeBuild PipelineReducer PipelineView where
  newReducer d _ _ _ := .error (.reducer d.name)
  newChained d _ _ := .error (.reducer d.name)
  newView d _ _ := .error (.invalidOperation d.name)
  replayBlock v _ _ _ := .ok v

/-- A reducer that counts the rows of each user. -/
def countsReducer : PipelineReducer where
  shape := countPerUser
  isExternal := false
  needsHostCallback := false
  engine := ReducerEngine.new countPerUser {}

/-- A new engine with the one reducer. -/
def countsEngine : PipelineEngine where
  rawTables := (∅ : FxHashMap String RawTableEngine).insert "trades"
    { name := "trades", registry := ⟨["user"]⟩ }
  virtualTables := ∅
  pipeline := [.rawTable "trades", .reducer "counts"]
  directMvs := []
  branches := [("counts", [])]
  nodes := { reducers := (∅ : FxHashMap String PipelineReducer).insert "counts" countsReducer }
  rayon := true
  deferAllowed := true

/-- A row in block 1, and a finalized head at `u64::MAX`: the block stays unfinalized. -/
theorem finality_at_the_last_block :
    ¬ @SettleEngine.ExactAlong noViewStorage noNodeBuild countsEngine
      [.processBatch {} "trades" 1 [userRow "bob"], .advanceFinality BlockNumber.max] := by
  intro h
  have hbounded := (@SettleEngine.exactAlong_iff noViewStorage noNodeBuild _ _).mp h
  obtain ⟨-, hfinality, -⟩ := hbounded
  have htracked : ((@SettleEngine.callStep noViewStorage noNodeBuild countsEngine
      (.processBatch {} "trades" 1 [userRow "bob"])).1.nodes.reducers["counts"]?.map
        fun r => r.engine.blockGroups.isEmpty) = some false := by decide +kernel
  have hreached : SettleEngine.finalityReached
      (@SettleEngine.callStep noViewStorage noNodeBuild countsEngine
        (.processBatch {} "trades" 1 [userRow "bob"])).1 BlockNumber.max = false := by
    decide +kernel
  rcases hfinality with hmax | huntracked | hdone
  · exact hmax rfl
  · obtain ⟨r, hr, hne⟩ := Option.map_eq_some_iff.mp htracked
    rw [huntracked.1 "counts" r hr] at hne
    cases hne
  · rw [hreached] at hdone
    cases hdone

end Settle
