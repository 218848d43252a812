import Settle.Engine.WindowRuns

/-!
# The time watermark of a sliding view

DEF-33 of the data model: the timestamp of a block is the largest valid timestamp of its rows,
or the time watermark of the blocks before it when it has none, and the time watermark of a
chain is the largest block timestamp in it, or 0 for an empty chain.

The engine keeps the watermark as a plain `i64` that starts at zero, so a chain that starts with
a negative timestamp has the watermark 0, which is no timestamp of it
(`watermark_above_first_block`), until a rollback or a reload recomputes it. When the block that
comes to an empty chain has no negative timestamp, the engine keeps the times of DEF-33 in every
state of every run, whatever the timestamps of the other blocks (`window_times_run`).
-/

namespace Settle

open Std

variable {R : Type} [SourceRow R] {v : MVShape} {sw : SlidingWindowDef}

/-! ## DEF-33 -/

namespace Chain

variable (sw)

/-- The largest of the times so far. -/
def laterTime (τ : Option Int64) (ts : Int64) : Int64 :=
  τ.elim ts fun t => if t < ts then ts else t

/-- The largest block timestamp of a chain. -/
def timeMark (A : Chain R) : Option Int64 :=
  A.toList.foldl (fun τ e => some (laterTime τ ((maxTime sw e.2).getD (τ.getD 0)))) none

/-- The timestamp of a block. -/
def blockTime (A : Chain R) (b : BlockNumber) : Option Int64 :=
  A[b]?.map fun rows => (maxTime sw rows).getD ((timeMark sw (A.before b)).getD 0)

variable {sw} {A : Chain R}

theorem timeMark_empty : timeMark sw (∅ : Chain R) = none := by
  rw [timeMark, ExtTreeMap.toList_eq_nil_iff.mpr rfl]
  rfl

theorem timeMark_insert {b : BlockNumber} (h : ∀ b' ∈ A, b' < b) (rows : List R) :
    timeMark sw (A.insert b rows)
      = some (laterTime (timeMark sw A) ((maxTime sw rows).getD ((timeMark sw A).getD 0))) := by
  rw [timeMark, OrdMap.toList_insert_of_lt h, List.foldl_append]
  rfl

/-- When the first time is not negative, the watermark that starts at zero is the largest
timestamp. -/
theorem timeMark_of_timed (h : Timed sw A) (hne : A ≠ ∅) :
    timeMark sw A = some (watermark sw A) := by
  induction A using OrdMap.newest_induction with
  | empty => exact absurd rfl hne
  | newest A b rows hb ih =>
    rw [timeMark_insert hb, watermark_insert hb, blockMaxTs_eq]
    by_cases hA : A = ∅
    · -- the first block: its time is at or above zero
      subst hA
      rw [timeMark_empty, watermark_empty]
      show some ((maxTime sw rows).getD 0) = _
      have hge : 0 ≤ (maxTime sw rows).getD 0 := by
        cases hm : maxTime sw rows with
        | none => exact Int64.le_refl _
        | some ts => exact h.first b rows (by simp) (by simp) ts hm
      split
      · rfl
      · next hlt => rw [Int64.le_antisymm (Int64.not_lt.mp hlt) hge]
    · rw [ih (h.of_insert hb) hA]
      rfl

theorem getD_timeMark_of_timed (h : Timed sw A) : (timeMark sw A).getD 0 = watermark sw A := by
  by_cases hA : A = ∅
  · rw [hA, timeMark_empty, watermark_empty]
    rfl
  · rw [timeMark_of_timed h hA]
    rfl

/-- Then the times of the blocks are those that the engine takes. -/
theorem blockTime_of_timed (h : Timed sw A) (b : BlockNumber) :
    blockTime sw A b = tsOf sw A b := by
  rw [blockTime, tsOf, getD_timeMark_of_timed (h.before b)]
  rfl

end Chain

/-- The engine `m` keeps the times of the chain `A`: its watermark is the largest block
timestamp, its window holds the blocks that are at most the width below it, and what it expired
keeps its time. -/
structure KeepsTimes (sw : SlidingWindowDef) (m : MVEngine) (A : Chain R) : Prop where
  empty : A = ∅ → m.currentWatermark = 0
  largest : A ≠ ∅ → (∃ b, Chain.blockTime sw A b = some m.currentWatermark) ∧
    ∀ b ts, Chain.blockTime sw A b = some ts → ts ≤ m.currentWatermark
  window : ∀ (b : BlockNumber) ts, m.blockTimes.byBlock[b]? = some ts ↔
    Chain.blockTime sw A b = some ts ∧
    m.currentWatermark.toInt - 1000 * sw.intervalSeconds.toNat ≤ ts.toInt
  stash : ∀ (e : BlockNumber) x, x ∈ m.expired[e]?.getD [] →
    Chain.blockTime sw A x.block = some x.ts

/-- The engine of a chain whose first time is not negative keeps its times. -/
theorem WindowRep.keepsTimes {m : MVEngine} {A fin : Chain R} (h : WindowRep v sw m A fin) :
    KeepsTimes sw m A where
  empty := by
    intro hA
    rw [h.watermark, hA, Chain.watermark_empty]
  largest := by
    intro hne
    rw [h.watermark]
    simp only [Chain.blockTime_of_timed h.timed]
    exact ⟨Chain.exists_tsOf_eq_watermark h.timed hne, fun b ts => Chain.tsOf_le_watermark⟩
  window := by
    intro b ts
    rw [h.times, h.watermark, Chain.blockTime_of_timed h.timed]
    exact Chain.windowTimes_eq_some
  stash := by
    intro e x hx
    rw [Chain.blockTime_of_timed h.timed]
    exact (h.stash_expiredBy hx).2.1

/-! ## Runs with reloads -/

/-- What a run means, with the chain that the last checkpoint saved. -/
structure TimedHistory (R : Type) extends WindowHistory R where
  saved : Chain R := ∅
  savedFinality : Option BlockNumber := none

/-- One call, on blocks that meet `ok`: a condition on the chain before the block and its rows.
The undo of a failed ingest drops its changes and rolls its blocks back; a reload reads what
the last checkpoint stored. -/
inductive TimedStep (v : MVShape) (sw : SlidingWindowDef) (ok : Chain R → List R → Prop) :
    MVEngine × TimedHistory R → MVEngine × TimedHistory R → Prop
  | applyRows {m h} (st : MvReads) (block : BlockNumber) (rows : List R)
      (hnew : ∀ b ∈ h.blocks, b < block)
      (hts : ∀ ts, Chain.maxTime sw rows = some ts → Chain.FitsBack sw ts)
      (hok : ok h.blocks rows) :
      TimedStep v sw ok (m, h)
        ((m.applyRows v st block rows).1, { h with blocks := h.blocks.insert block rows })
  | replayBlock {m h} (st : MvReads) (block : BlockNumber) (rows : List R)
      (hnew : ∀ b ∈ h.blocks, b < block)
      (hts : ∀ ts, Chain.maxTime sw rows = some ts → Chain.FitsBack sw ts)
      (hok : ok h.blocks rows) :
      TimedStep v sw ok (m, h)
        ((m.replayBlock v st block rows).1, { h with blocks := h.blocks.insert block rows })
  | takeChanges {m h} : TimedStep v sw ok (m, h) ((m.takeChanges v).1, h)
  | rollback {m h} (p : BlockNumber) (hp : ∀ f, h.finality = some f → f ≤ p) :
      TimedStep v sw ok (m, h) ((m.rollback v p).1, { h with blocks := h.blocks.upTo p })
  | undoIngest {m h} (p : BlockNumber) (hp : ∀ f, h.finality = some f → f ≤ p) :
      TimedStep v sw ok (m, h)
        ((m.discardChanges.rollback v p).1, { h with blocks := h.blocks.upTo p })
  | advanceFinality {m h} (block : BlockNumber) :
      TimedStep v sw ok (m, h)
        (m.advanceFinality v block,
          { h with
            finality := some (h.finality.elim block fun f => if f ≤ block then block else f)
            final := h.blocks.finalTo h.final block })
  | writeCheckpoint {m h} (checkpoint : Nat) :
      TimedStep v sw ok (m, h)
        ((m.writeCheckpoint v checkpoint).1,
          { h with
            stored := applyMvWrites h.stored (m.writeCheckpoint v checkpoint).2
            saved := h.final
            savedFinality := h.finality })
  | reload {m h} (st : MvReads) (m' : MVEngine) (hst : st.window = .ok h.stored.toList)
      (hload : MVEngine.reload v st = .ok m') :
      TimedStep v sw ok (m, h)
        (m', { h with blocks := h.saved, final := h.saved, finality := h.savedFinality })

/-- The states of a run that starts on storage without records of the view. -/
def TimedRun (v : MVShape) (sw : SlidingWindowDef) (ok : Chain R → List R → Prop) (m : MVEngine)
    (h : TimedHistory R) : Prop :=
  ∃ (st : MvReads) (m₀ : MVEngine), st.window = .ok [] ∧ MVEngine.reload v st = .ok m₀ ∧
    Relation.ReflTransGen (TimedStep v sw ok) (m₀, {}) (m, h)

/-- A block that comes to an empty chain has no negative largest timestamp. -/
def StartsTimed (sw : SlidingWindowDef) (A : Chain R) (rows : List R) : Prop :=
  A = ∅ → ∀ ts, Chain.maxTime sw rows = some ts → 0 ≤ ts

/-- What holds along such a run: the engine represents the chain, and the stored records are
those of the saved one. -/
structure TimedInv (v : MVShape) (sw : SlidingWindowDef) (m : MVEngine) (h : TimedHistory R) :
    Prop where
  window : WindowInv v sw m h.toWindowHistory
  stored : h.stored = Chain.records v sw h.saved
  saved : Chain.Timed sw h.saved
  savedFinality : ∀ b ∈ h.saved, ∃ f, h.savedFinality = some f ∧ b ≤ f

variable {m : MVEngine} {h : TimedHistory R}

theorem WindowInv.discardChanges {h : WindowHistory R} (hi : WindowInv v sw m h) :
    WindowInv v sw m.discardChanges h := by
  refine ⟨?_, hi.writes, hi.finality⟩
  exact hi.rep.of_groups (fun st' => (hi.rep.view st').of_eq rfl rfl rfl) ⟨_, _, _, _, rfl⟩

/-- A new block keeps the times of the chain. -/
theorem TimedInv.timed_insert (hi : TimedInv v sw m h) {block : BlockNumber} {rows : List R}
    (hnew : ∀ b ∈ h.blocks, b < block)
    (hts : ∀ ts, Chain.maxTime sw rows = some ts → Chain.FitsBack sw ts)
    (hok : StartsTimed sw h.blocks rows) : Chain.Timed sw (h.blocks.insert block rows) :=
  hi.window.rep.timed.insert hnew hok hts

/-- **Every call keeps the invariant.** -/
theorem TimedInv.step (hv : v.slidingWindow = some sw) (hw : sw.Fits) {m' : MVEngine}
    {h' : TimedHistory R} (hi : TimedInv v sw m h)
    (hs : TimedStep v sw (StartsTimed sw) (m, h) (m', h')) : TimedInv v sw m' h' := by
  cases hs with
  | applyRows st block rows hnew hts hok =>
    have hn := hi.timed_insert hnew hts hok
    exact ⟨hi.window.applyRows hv hw hnew hn st, hi.stored, hi.saved, hi.savedFinality⟩
  | replayBlock st block rows hnew hts hok =>
    obtain ⟨hrep, hwrites⟩ :=
      hi.window.rep.replayBlock hv hw hnew (hi.timed_insert hnew hts hok) st
    refine ⟨⟨hrep, ?_, hi.window.finality⟩, hi.stored, hi.saved, hi.savedFinality⟩
    rw [hwrites]
    exact hi.window.writes
  | takeChanges => exact ⟨hi.window.takeChanges, hi.stored, hi.saved, hi.savedFinality⟩
  | rollback p hp => exact ⟨hi.window.rollback hv hp, hi.stored, hi.saved, hi.savedFinality⟩
  | undoIngest p hp =>
    exact ⟨hi.window.discardChanges.rollback hv hp, hi.stored, hi.saved, hi.savedFinality⟩
  | advanceFinality block =>
    exact ⟨hi.window.advanceFinality hv block, hi.stored, hi.saved, hi.savedFinality⟩
  | writeCheckpoint n =>
    obtain ⟨hwin, hstored⟩ := hi.window.writeCheckpoint hv n
    refine ⟨hwin, hstored, ?_, hi.window.finality⟩
    exact hi.window.rep.timed.of_below hi.window.rep.below
  | reload st m₁ hst hload =>
    have hst' : st.window = .ok (Chain.records v sw h.saved).toList := by rw [hst, hi.stored]
    obtain ⟨m₂, hload₂, hrep, hwrites⟩ := WindowRep.reload hv hi.saved hst'
    rw [hload₂, Except.ok.injEq] at hload
    subst hload
    refine ⟨⟨hrep, ?_, hi.savedFinality⟩, hi.stored, hi.saved, hi.savedFinality⟩
    show applyWindowWrites h.stored m₂.windowWrites = Chain.records v sw h.saved
    rw [hwrites, hi.stored]
    rfl

theorem TimedRun.inv (hv : v.slidingWindow = some sw) (hw : sw.Fits)
    (hr : TimedRun v sw (StartsTimed sw) m h) : TimedInv v sw m h := by
  obtain ⟨st, m₀, hst, hload, hsteps⟩ := hr
  have hempty : WindowRun v sw m₀ ({} : WindowHistory R) := ⟨st, m₀, hst, hload, .refl⟩
  have hinit : TimedInv v sw m₀ ({} : TimedHistory R) := by
    refine ⟨hempty.inv hv hw, ?_, Chain.timed_empty, by simp⟩
    exact (OrdMap.mapEntries_empty _).symm
  have hall : ∀ s : MVEngine × TimedHistory R,
      Relation.ReflTransGen (TimedStep v sw (StartsTimed sw)) (m₀, {}) s →
        TimedInv v sw s.1 s.2 := by
    intro s hs
    induction hs with
    | refl => exact hinit
    | tail _ hstep ih => exact ih.step hv hw hstep
  exact hall (m, h) hsteps

/-- **Sliding windows keep their times.** In every run in which a block that comes to an empty
chain has no negative largest timestamp, in every state: the watermark is the largest block
timestamp of the surviving blocks (0 when there are none), a block without timestamps has the
watermark before it, and the window holds the blocks at most its width below the watermark; and
a rollback to `p` leaves the window, watermark, values and stash of every run whose chain ends
at `p` (the stash of a block that is final in one of the two runs is dropped there). -/
theorem window_times_run (hv : v.slidingWindow = some sw) (hw : sw.Fits)
    (hr : TimedRun v sw (StartsTimed sw) m h) :
    KeepsTimes sw m h.blocks ∧
    ∀ p : BlockNumber, (∀ f, h.finality = some f → f ≤ p) →
      ∀ (m' : MVEngine) (h' : TimedHistory R), TimedRun v sw (StartsTimed sw) m' h' →
        h'.blocks = h.blocks.upTo p →
        (m.rollback v p).1.blockTimes.byBlock = m'.blockTimes.byBlock ∧
        (m.rollback v p).1.currentWatermark = m'.currentWatermark ∧
        (∀ b, (m.rollback v p).1.windowOf b = m'.windowOf b) ∧
        (∀ key, (m.rollback v p).1.output key = m'.output key) ∧
        ∀ e, (e ∈ h.final ↔ e ∈ h'.final) → (m.rollback v p).1.stashAt e = m'.stashAt e := by
  have hi := hr.inv hv hw
  refine ⟨hi.window.rep.keepsTimes, ?_⟩
  intro p hp m' h' hr' hblocks
  have hback : WindowRep v sw (m.rollback v p).1 (h.blocks.upTo p) h.final :=
    (hi.window.rollback hv hp).rep
  have hstop : WindowRep v sw m' (h.blocks.upTo p) h'.final :=
    hblocks ▸ (hr'.inv hv hw).window.rep
  refine ⟨?_, ?_, ?_, ?_, ?_⟩
  · rw [hback.times, hstop.times]
  · rw [hback.watermark, hstop.watermark]
  · intro b
    rw [hback.windowOf, hstop.windowOf]
  · intro key
    rw [hback.output, hstop.output]
  · intro e he
    rw [hback.stashAt, hstop.stashAt]
    simp only [he]

/-! ### A negative time after the first block -/

/-- The window of `slidingSum`. -/
abbrev tenSeconds : SlidingWindowDef := { intervalSeconds := 10, timeColumn := "time" }

private theorem maxTime_timedRow (time : Int64) (x : UInt64) :
    Chain.maxTime tenSeconds [timedRow time x]
      = some time := rfl

/-- The history of an ingest of one row of time `time` in block 1. -/
def oneTimed (time : Int64) : TimedHistory Row where
  blocks := (∅ : Chain Row).insert 1 [timedRow time 1]

private theorem oneTimed_ne_empty {time : Int64} : (oneTimed time).blocks ≠ ∅ := by
  intro hempty
  have : (1 : BlockNumber) ∈ (oneTimed time).blocks := by simp [oneTimed]
  rw [hempty] at this
  simp at this

def oneTimedEngine (time : Int64) : MVEngine :=
  (MVEngine.applyRows slidingSum {} noMvState 1 [timedRow time 1]).1

private theorem oneTimed_run (time : Int64) (ok : Chain Row → List Row → Prop)
    (hts : Chain.FitsBack tenSeconds time)
    (hok : ok ∅ [timedRow time 1]) :
    TimedRun slidingSum tenSeconds ok (oneTimedEngine time)
      (oneTimed time) := by
  refine ⟨noMvState, {}, rfl, rfl, .tail .refl (.applyRows noMvState 1 _ (by simp) ?_ hok)⟩
  intro ts hmax
  rw [maxTime_timedRow, Option.some.injEq] at hmax
  rwa [← hmax]

/-- Block 1 of time 5 s and block 2 of time -3 s: the watermark is 5 s, and the rollback to
block 1 leaves the window of the run that stopped there. -/
theorem window_times_run_negative :
    KeepsTimes tenSeconds
      ((oneTimedEngine 5000).applyRows slidingSum noMvState 2 [timedRow (-3000) 2]).1
      ((oneTimed 5000).blocks.insert 2 [timedRow (-3000) 2]) ∧
    (((oneTimedEngine 5000).applyRows slidingSum noMvState 2 [timedRow (-3000) 2]).1.rollback
      slidingSum 1).1.currentWatermark = (oneTimedEngine 5000).currentWatermark := by
  have hstart : StartsTimed tenSeconds (∅ : Chain Row)
      [timedRow 5000 1] := by
    intro _ ts hts
    rw [maxTime_timedRow, Option.some.injEq] at hts
    rw [← hts]
    decide
  have hone := oneTimed_run 5000 (StartsTimed tenSeconds) (Or.inl (by decide)) hstart
  obtain ⟨st, m₀, hst, hload, hsteps⟩ := id hone
  have htwo : TimedRun slidingSum tenSeconds (StartsTimed tenSeconds)
      ((oneTimedEngine 5000).applyRows slidingSum noMvState 2 [timedRow (-3000) 2]).1
      { (oneTimed 5000) with
        blocks := (oneTimed 5000).blocks.insert 2 [timedRow (-3000) 2] } := by
    refine ⟨st, m₀, hst, hload, hsteps.tail (.applyRows noMvState 2 _ ?_ ?_ ?_)⟩
    · intro b hb
      rw [oneTimed] at hb
      grind
    · intro ts hts
      rw [maxTime_timedRow, Option.some.injEq] at hts
      rw [← hts]
      exact Or.inr (by decide)
    · intro hempty
      exact absurd hempty oneTimed_ne_empty
  obtain ⟨hkeeps, hroll⟩ := window_times_run rfl (by decide) htwo
  refine ⟨hkeeps, ?_⟩
  have hblocks : (oneTimed 5000).blocks
      = Chain.upTo ((oneTimed 5000).blocks.insert 2 [timedRow (-3000) 2]) 1 := by
    refine ExtTreeMap.ext_getElem? fun b => ?_
    rw [Chain.getElem?_upTo, oneTimed]
    grind
  exact (hroll 1 (by simp [oneTimed]) _ _ hone hblocks).2.1

/-- A chain whose only block has the time -5 s has the watermark 0, which is no time of it. -/
theorem watermark_above_first_block :
    ¬ ∀ (v : MVShape) (sw : SlidingWindowDef) (m : MVEngine) (h : TimedHistory Row),
      v.slidingWindow = some sw → sw.Fits → TimedRun v sw (fun _ _ => True) m h →
      KeepsTimes sw m h.blocks := by
  intro hall
  have hrun := oneTimed_run (-5000) (fun _ _ => True) (Or.inr (by decide)) trivial
  have hkeeps := hall _ _ _ _ rfl (by decide) hrun
  obtain ⟨⟨b, hb⟩, -⟩ := hkeeps.largest oneTimed_ne_empty
  have hmark : (oneTimedEngine (-5000)).currentWatermark = 0 := by decide +kernel
  have hb1 : b = 1 := by
    rw [Chain.blockTime, Option.map_eq_some_iff] at hb
    obtain ⟨rows, hrows, -⟩ := hb
    rw [oneTimed] at hrows
    grind
  have htime : Chain.blockTime tenSeconds
      (oneTimed (-5000)).blocks 1 = some (-5000) := by decide +kernel
  rw [hb1, hmark, htime] at hb
  exact absurd hb (by decide)

end Settle
