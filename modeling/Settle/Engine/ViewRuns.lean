import Settle.Engine.ViewCheckpoint

/-!
# Runs of a view

A run of a non-sliding view from its creation on storage without state of the view:
`apply_rows` over increasing blocks, `take_changes`, `replay_block`, `rollback` at or above
the last finality, `advance_finality` and `write_checkpoint`, in any order.

`ViewHistory` is what the run means: the chain of the blocks applied and not rolled back,
the last finality, and the part of the chain that was at or below it when it advanced.
-/

namespace Settle

open Std

variable {R : Type} [SourceRow R]

structure ViewHistory (R : Type) where
  /-- the blocks applied and not rolled back -/
  blocks : Chain R := ∅
  /-- the last finality -/
  finality : Option BlockNumber := none
  /-- the blocks at or below the last finality when it advanced -/
  final : Chain R := ∅

/-- One call, with what storage answers to it. The changes of a call are emitted by the
engine; the history keeps what it means for the chain. -/
inductive ViewStep (v : MVShape) : MVEngine × ViewHistory R → MVEngine × ViewHistory R → Prop
  | applyRows {m h} (st : MvReads) (block : BlockNumber) (rows : List R)
      (hnew : ∀ b ∈ h.blocks, b < block) :
      ViewStep v (m, h)
        ((m.applyRows v st block rows).1, { h with blocks := h.blocks.insert block rows })
  | replayBlock {m h} (st : MvReads) (block : BlockNumber) (rows : List R)
      (hnew : ∀ b ∈ h.blocks, b < block) :
      ViewStep v (m, h)
        ((m.replayBlock v st block rows).1, { h with blocks := h.blocks.insert block rows })
  | takeChanges {m h} : ViewStep v (m, h) ((m.takeChanges v).1, h)
  | rollback {m h} (p : BlockNumber) (hp : ∀ f, h.finality = some f → f ≤ p) :
      ViewStep v (m, h)
        ((m.rollback v p).1, { h with blocks := OrdMap.keep h.blocks (· ≤ p) })
  | advanceFinality {m h} (block : BlockNumber) (hmono : ∀ f, h.finality = some f → f ≤ block)
      (hmax : block ≠ BlockNumber.max) :
      ViewStep v (m, h)
        (m.advanceFinality v block,
          { h with finality := some block, final := OrdMap.keep h.blocks (· ≤ block) })
  | writeCheckpoint {m h} (checkpoint : Nat) :
      ViewStep v (m, h) ((m.writeCheckpoint v checkpoint).1, h)

/-- The states of a run that starts on storage without state of the view. -/
def ViewRun (v : MVShape) (m : MVEngine) (h : ViewHistory R) : Prop :=
  ∃ (st : MvReads) (m₀ : MVEngine), st.hasState = .ok false ∧ MVEngine.reload v st = .ok m₀ ∧
    Relation.ReflTransGen (ViewStep v) (m₀, {}) (m, h)

/-! ## The invariant -/

/-- What holds along every run: the engine represents the history, and reads no storage. -/
structure ViewInv (v : MVShape) (m : MVEngine) (h : ViewHistory R) : Prop where
  rep : ∀ st, ViewRep v st m h.blocks h.final ∅
  pending : PendingRows v m h.final
  /-- nothing was ever evicted -/
  reads : m.readsStorage = false
  /-- final blocks are at or below the last finality -/
  finality : ∀ b ∈ h.final, ∃ f, h.finality = some f ∧ b ≤ f

namespace MVEngine

variable {v : MVShape} {m : MVEngine} {st : MvReads}

theorem rollback_frame (hv : v.slidingWindow = none) (m : MVEngine) (p : BlockNumber) :
    (rollback v m p).1.readsStorage = m.readsStorage ∧
    (rollback v m p).1.pendingDurable = m.pendingDurable := by
  unfold rollback
  split
  · exact ⟨rfl, rfl⟩
  · dsimp only
    split
    · exact ⟨rfl, rfl⟩
    · rw [if_neg (by simp [hv]), emitChanges_frame]
      exact ⟨rfl, rfl⟩

end MVEngine

variable {v : MVShape} {m : MVEngine} {h : ViewHistory R}

/-- The rows of a new block: the loop of `apply_block` on a view that reads no storage. -/
theorem ViewInv.applyRowsLoop (hi : ViewInv v m h) (st : MvReads) {block : BlockNumber}
    (rows : List R) (t : Touched) (hnew : ∀ b ∈ h.blocks, b < block) :
    ViewInv v (MVEngine.applyRowsLoop v st block rows (m, t)).1.1
      { h with blocks := h.blocks.insert block rows } := by
  obtain ⟨hok, hreads, hpend⟩ := MVEngine.applyRowsLoop_ok (v := v) hi.reads block rows t
  have hfin : ∀ b ∈ h.final, b < block := by
    intro b hb
    obtain ⟨rows, hr⟩ := OrdMap.exists_getElem?_of_mem hb
    exact hnew b (OrdMap.mem_of_getElem?_eq ((hi.rep st).below.sub b rows hr))
  have hnotA : block ∉ h.blocks := fun hm => by
    have := hnew block hm
    grind
  have hnotF : block ∉ h.final := fun hm => by
    have := hfin block hm
    grind
  refine ⟨?_, ?_, hreads, hi.finality⟩
  · intro st'
    have hstart := (hi.rep st).insert_nil hnotA hfin
    obtain ⟨done, -, hall, hrep⟩ := ViewRep.applyRowsLoop hnotF hfin rows t hstart
    rw [hall hok, List.nil_append] at hrep
    exact hrep.change_reads hreads st'
  · intro key hk
    rw [hpend] at hk
    exact hi.pending key hk

theorem ViewInv.of_rep (hi : ViewInv v m h) {m' : MVEngine} {h' : ViewHistory R}
    (hrep : ∀ st, ViewRep v st m' h'.blocks h'.final ∅) (hp : PendingRows v m' h'.final)
    (hr : m'.readsStorage = m.readsStorage)
    (hf : ∀ b ∈ h'.final, ∃ f, h'.finality = some f ∧ b ≤ f) : ViewInv v m' h' :=
  ⟨hrep, hp, hr.trans hi.reads, hf⟩

/-- **Every call keeps the invariant.** -/
theorem ViewInv.step (hv : v.slidingWindow = none) {m' : MVEngine} {h' : ViewHistory R}
    (hi : ViewInv v m h) (hs : ViewStep v (m, h) (m', h')) : ViewInv v m' h' := by
  cases hs with
  | applyRows st block rows hnew =>
    have hloop := hi.applyRowsLoop st rows m.ingestTouched hnew
    have heq : (m.applyRows v st block rows).1
        = { (MVEngine.applyRowsLoop v st block rows (m, m.ingestTouched)).1.1 with
            ingestTouched :=
              (MVEngine.applyRowsLoop v st block rows (m, m.ingestTouched)).1.2 } := by
      simp only [MVEngine.applyRows, MVEngine.applyBlock, hv]
    rw [heq]
    exact hloop.of_rep (fun st' => (hloop.rep st').of_eq rfl rfl rfl) hloop.pending rfl
      hloop.finality
  | replayBlock st block rows hnew =>
    have hloop := hi.applyRowsLoop st rows { existenceOnly := true } hnew
    have heq : (m.replayBlock v st block rows).1
        = MVEngine.dropEmptyGroups
            (MVEngine.applyRowsLoop v st block rows (m, { existenceOnly := true })).1.1
            (MVEngine.applyRowsLoop v st block rows (m, { existenceOnly := true })).1.2.groups := by
      simp only [MVEngine.replayBlock, MVEngine.applyBlock, hv]
    rw [heq]
    refine hloop.of_rep (fun st' => (hloop.rep st').dropEmptyGroups _) ?_
      (by rw [MVEngine.dropEmptyGroups_frame]) hloop.finality
    intro key hk
    rw [MVEngine.dropEmptyGroups_frame] at hk
    exact hloop.pending key hk
  | takeChanges =>
    refine hi.of_rep (fun st' => ?_) ?_ (by rw [MVEngine.takeChanges, MVEngine.emitChanges_frame])
      hi.finality
    · have hrep : ViewRep v st' { m with ingestTouched := {} } _ _ _ :=
        (hi.rep st').of_eq rfl rfl rfl
      exact hrep.emitChanges _
    · intro key hk
      rw [MVEngine.takeChanges, MVEngine.emitChanges_frame] at hk
      exact hi.pending key hk
  | rollback p hp =>
    have hle : ∀ b ∈ h.final, b ≤ p := by
      intro b hb
      obtain ⟨f, hf, hbf⟩ := hi.finality b hb
      have := hp f hf
      grind
    have hframe := MVEngine.rollback_frame hv m p
    refine hi.of_rep (fun st' => (hi.rep st').rollback hv hle) ?_ hframe.1 hi.finality
    intro key hk
    rw [hframe.2] at hk
    exact hi.pending key hk
  | advanceFinality block hmono hmax =>
    have hle : ∀ b ∈ h.final, b ≤ block := by
      intro b hb
      obtain ⟨f, hf, hbf⟩ := hi.finality b hb
      have := hmono f hf
      grind
    have hreads : (m.advanceFinality v block).readsStorage = m.readsStorage := by
      simp [MVEngine.advanceFinality, hv, MVEngine.finalizeBlocksUpTo]
    refine hi.of_rep (fun st' => (hi.rep st').advanceFinality hv hmax hle) ?_ hreads ?_
    · exact hi.pending.advanceFinality (hi.rep ⟨.ok false, fun _ => .ok none, .ok []⟩) hv hmax hle
    · intro b hb
      exact ⟨block, rfl, by grind⟩
  | writeCheckpoint checkpoint =>
    have hrest := MVEngine.writeCheckpoint_rest hv m checkpoint
    refine hi.of_rep (fun st' => (hi.rep st').writeCheckpoint hv checkpoint) ?_
      (by rw [hrest]) hi.finality
    intro key hk
    rw [hrest] at hk
    simp at hk

theorem ViewRun.inv (hv : v.slidingWindow = none) (hr : ViewRun v m h) : ViewInv v m h := by
  obtain ⟨st, m₀, hst, hload, hsteps⟩ := hr
  have hm₀ : m₀ = {} := by
    simp only [MVEngine.reload, MVEngine.restore, hv, Option.isSome_none, Bool.false_eq_true,
      ↓reduceIte, hst, Except.ok.injEq] at hload
    exact hload.symm
  have hinit : ViewInv v m₀ ({} : ViewHistory R) := by
    subst hm₀
    refine ⟨fun st => ⟨⟨by simp, by simp⟩, by simp, by simp, ?_, ?_, ?_, ?_⟩, ?_, rfl, by simp⟩
    · exact fun _ _ _ _ => rfl
    · intro b key
      simp
    · intro b key _ f _
      simp [MVShape.getElem?_data, Chain.minus]
    · intro key found hl
      simp only [MVEngine.loadGroup, Bool.not_false, ↓reduceIte, Except.ok.injEq] at hl
      subst hl
      have hno : v.NoData key (∅ : Chain R) := fun f _ => OrdMap.mapEntries_empty _
      exact groupRep_fresh hno hno
    · intro key hk
      simp at hk
  have hall : ∀ s : MVEngine × ViewHistory R,
      Relation.ReflTransGen (ViewStep v) (m₀, {}) s → ViewInv v s.1 s.2 := by
    intro s hs
    induction hs with
    | refl => exact hinit
    | tail _ hstep ih => exact ih.step hv hstep
  exact hall (m, h) hsteps

/-! ## The state of a view along a run -/

/-- **View state is a from-scratch fold.** In every state of a run, the aggregates of a
group are the two-level folds of the blocks applied and not rolled back, a group that is
not there has no data, and what a checkpoint stores of a group reads back as the folds of
the blocks that were at or below the last finality when it advanced. -/
theorem view_run_is_fold (hv : v.slidingWindow = none) (hr : ViewRun v m h) :
    (∀ key g, m.groups[key]? = some g →
      g.aggs.map Agg.currentValue = v.foldGroup h.blocks key ∧
      g.aggs.map Agg.hasData
        = v.feeds.map fun f => f.func.hasData f.columnType (v.columnList key f h.blocks)) ∧
    (∀ key, m.groups[key]? = none → v.foldHasData h.blocks key = false) ∧
    (∀ n key state, .putGroup key state ∈ (m.writeCheckpoint v n).2 →
      ∃ aggs, v.restoreGroup state = some aggs ∧
        aggs.map Agg.currentValue = v.foldGroup h.final key ∧
        aggs.map Agg.hasData
          = v.feeds.map fun f => f.func.hasData f.columnType (v.columnList key f h.final)) := by
  have hi := hr.inv hv
  have hrep := hi.rep ⟨.ok false, fun _ => .ok none, .ok []⟩
  refine ⟨?_, ?_, ?_⟩
  · intro key g hg
    exact (hrep.groups key g hg).folds hrep.below
  · intro key hg
    rw [v.foldHasData_eq_false_iff]
    intro f hf
    rw [hrep.absent key hg f hf]
    exact OrdMap.mapEntries_empty _
  · intro n key state hw
    obtain ⟨aggs, hrestore, hgroup⟩ := hrep.stored_folds hi.pending hv hw
    exact ⟨aggs, hrestore, hgroup.folds_final⟩

/-! ### A block below the last finality

On a chain with gaps the finality may be above the newest block. A block that arrives at
or below it stays unfinal until the next advance, so a checkpoint before that advance
does not store it. -/

/-- `SELECT sum(x) FROM trades`. -/
def sumView : MVShape :=
  MVShape.new
    { name := "totals", source := "trades"
      select := [{ expr := .agg .sum (some "x"), aliasName := none }]
      groupBy := [], slidingWindow := none }
    ((∅ : FxHashMap String ColumnType).insert "x" .uint64)

/-- Storage that holds no state of the view. -/
def noMvState : MvReads := ⟨.ok false, fun _ => .ok none, .ok []⟩

def tradeRow (x : UInt64) : Row := ⟨⟨["x"]⟩, [.uint64 x]⟩

/-- Block 3, finality 10, then block 5. -/
def lateBlock : MVEngine :=
  let m := (MVEngine.applyRows sumView {} noMvState 3 [tradeRow 1]).1
  let m := (m.takeChanges sumView).1
  let m := m.advanceFinality sumView 10
  let m := (m.applyRows sumView noMvState 5 [tradeRow 2]).1
  (m.takeChanges sumView).1

def lateBlockHistory : ViewHistory Row where
  blocks := ((∅ : Chain Row).insert 3 [tradeRow 1]).insert 5 [tradeRow 2]
  finality := some 10
  final := OrdMap.keep ((∅ : Chain Row).insert 3 [tradeRow 1]) (· ≤ 10)

private theorem lateBlock_run : ViewRun sumView lateBlock lateBlockHistory := by
  refine ⟨noMvState, {}, rfl, rfl, ?_⟩
  have h₁ : Relation.ReflTransGen (ViewStep sumView) (({} : MVEngine), ({} : ViewHistory Row)) _ :=
    .tail .refl (.applyRows noMvState 3 [tradeRow 1] (by simp))
  have h₂ := h₁.tail .takeChanges
  have h₃ := h₂.tail (.advanceFinality 10 (by simp) (by decide))
  have h₄ := h₃.tail (.applyRows noMvState 5 [tradeRow 2] (by simp))
  exact h₄.tail .takeChanges

theorem view_run_is_fold_lateBlock :
    ViewRun sumView lateBlock lateBlockHistory ∧
    ∀ g, lateBlock.groups[([] : GroupKey)]? = some g →
      g.aggs.map Agg.currentValue = sumView.foldGroup lateBlockHistory.blocks [] :=
  ⟨lateBlock_run, fun g hg => ((view_run_is_fold rfl lateBlock_run).1 [] g hg).1⟩

/-- What a checkpoint stores is not always the fold of the blocks at or below the last
finality: block 5 is below finality 10 and not stored. -/
theorem checkpoint_omits_late_block :
    ¬ ∀ (v : MVShape) (m : MVEngine) (h : ViewHistory Row), v.slidingWindow = none →
      ViewRun v m h → ∀ f, h.finality = some f →
      ∀ n key state, .putGroup key state ∈ (m.writeCheckpoint v n).2 →
        ∃ aggs, v.restoreGroup state = some aggs ∧
          aggs.map Agg.currentValue = v.foldGroup (OrdMap.keep h.blocks (· ≤ f)) key := by
  intro hall
  have hput : .putGroup [] [.sum .int (.int 1) true]
      ∈ (lateBlock.writeCheckpoint sumView 1).2 := by decide +kernel
  obtain ⟨aggs, hrestore, hval⟩ :=
    hall sumView lateBlock lateBlockHistory rfl lateBlock_run 10 rfl 1 _ _ hput
  have hstored : (sumView.restoreGroup [.sum .int (.int 1) true]).map
      (fun aggs => aggs.map Agg.currentValue) = some [.uint64 1] := by decide +kernel
  have hfold : sumView.foldGroup (OrdMap.keep lateBlockHistory.blocks (· ≤ 10)) []
      = [.uint64 3] := by decide +kernel
  rw [hrestore, Option.map_some, hval, hfold] at hstored
  simp at hstored

end Settle
