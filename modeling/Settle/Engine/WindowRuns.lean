import Settle.Engine.ViewRuns
import Settle.Engine.WindowStore

/-!
# Runs of a sliding view

A run of a sliding view from its creation on an empty store: `apply_rows` over increasing
blocks without negative times, `take_changes`, `rollback` at or above the last finality,
`advance_finality` and `write_checkpoint`, in any order. The history of a run keeps also
what the checkpoints stored.

In every state of a run the engine holds the window of the chain
(`window_run_membership`), and a checkpoint leaves in storage the window as of the last
finality, from which the engine can be rebuilt (`stored_window_run`).
-/

namespace Settle

open Std

variable {R : Type} [SourceRow R] {v : MVShape} {sw : SlidingWindowDef}

/-- What a run means: the chain and its final part, and the stored records. -/
structure WindowHistory (R : Type) extends ViewHistory R where
  stored : BTreeMap BlockNumber WindowRecord := ∅

/-- The records after the writes of a checkpoint. A sliding view stores no groups. -/
def applyMvWrites (stored : BTreeMap BlockNumber WindowRecord) (writes : List MvWrite) :
    BTreeMap BlockNumber WindowRecord :=
  writes.foldl (fun s w => match w with
    | .putWindow b r => s.insert b r
    | .deleteWindow b => s.erase b
    | .putGroup _ _ | .deleteGroup _ => s) stored

/-- One call. -/
inductive WindowStep (v : MVShape) (sw : SlidingWindowDef) :
    MVEngine × WindowHistory R → MVEngine × WindowHistory R → Prop
  | applyRows {m h} (st : MvReads) (block : BlockNumber) (rows : List R)
      (hnew : ∀ b ∈ h.blocks, b < block)
      (hts : ∀ ts, (rows.filterMap fun r => (SourceRow.column r sw.timeColumn).asI64).max? = some ts →
        0 ≤ ts) :
      WindowStep v sw (m, h)
        ((m.applyRows v st block rows).1, { h with blocks := h.blocks.insert block rows })
  | takeChanges {m h} : WindowStep v sw (m, h) ((m.takeChanges v).1, h)
  | rollback {m h} (p : BlockNumber) (hp : ∀ f, h.finality = some f → f ≤ p) :
      WindowStep v sw (m, h) ((m.rollback v p).1, { h with blocks := h.blocks.upTo p })
  | advanceFinality {m h} (block : BlockNumber) :
      WindowStep v sw (m, h)
        (m.advanceFinality v block,
          { h with
            finality := some (h.finality.elim block fun f => if f ≤ block then block else f)
            final := h.blocks.finalTo h.final block })
  | writeCheckpoint {m h} (checkpoint : Nat) :
      WindowStep v sw (m, h)
        ((m.writeCheckpoint v checkpoint).1,
          { h with stored := applyMvWrites h.stored (m.writeCheckpoint v checkpoint).2 })

/-- The states of a run that starts on storage without records of the view. -/
def WindowRun (v : MVShape) (sw : SlidingWindowDef) (m : MVEngine) (h : WindowHistory R) : Prop :=
  ∃ (st : MvReads) (m₀ : MVEngine), st.window = .ok [] ∧ MVEngine.reload v st = .ok m₀ ∧
    Relation.ReflTransGen (WindowStep v sw) (m₀, {}) (m, h)

/-! ## The invariant -/

/-- What holds along every run: the engine represents the history, and the queued writes
bring the stored records up to the last finality. -/
structure WindowInv (v : MVShape) (sw : SlidingWindowDef) (m : MVEngine) (h : WindowHistory R) :
    Prop where
  rep : WindowRep v sw m h.blocks h.final
  writes : applyWindowWrites h.stored m.windowWrites = Chain.records v sw h.final
  finality : ∀ b ∈ h.final, ∃ f, h.finality = some f ∧ b ≤ f

namespace MVEngine

theorem writeCheckpoint_sliding (hv : v.slidingWindow = some sw) (m : MVEngine) (n : Nat) :
    (writeCheckpoint v m n).1 = { m with windowWrites := [], removedGroups := [] } ∧
    ∀ stored, applyMvWrites stored (writeCheckpoint v m n).2
      = applyWindowWrites stored m.windowWrites := by
  rw [writeCheckpoint, if_pos (by simp [hv])]
  refine ⟨rfl, ?_⟩
  intro stored
  rw [applyMvWrites, applyWindowWrites, List.foldl_map]
  congr 1
  funext s w
  cases w <;> rfl

end MVEngine

variable {m : MVEngine} {h : WindowHistory R}

section Calls

variable (hv : v.slidingWindow = some sw) (hi : WindowInv v sw m h)
include hv hi

/-- A new block, whose changes join those of the ingest. -/
theorem WindowInv.applyRows (hw : sw.Fits) {block : BlockNumber} {rows : List R}
    (hnew : ∀ b ∈ h.blocks, b < block) (hn : Chain.Timed sw (h.blocks.insert block rows))
    (st : MvReads) :
    WindowInv v sw (m.applyRows v st block rows).1
      { h with blocks := h.blocks.insert block rows } := by
  obtain ⟨m₁, t₁, heq, hrep, hwrites⟩ := hi.rep.applyBlock hv hw hnew hn st m.ingestTouched
  have happly : (m.applyRows v st block rows).1 = { m₁ with ingestTouched := t₁ } := by
    rw [MVEngine.applyRows, heq]
  rw [happly]
  refine ⟨?_, ?_, hi.finality⟩
  · exact hrep.of_groups (fun st' => (hrep.view st').of_eq rfl rfl rfl) ⟨_, _, _, _, rfl⟩
  · show applyWindowWrites h.stored m₁.windowWrites = _
    rw [hwrites]
    exact hi.writes

omit hv in
theorem WindowInv.takeChanges : WindowInv v sw (m.takeChanges v).1 h := by
  have hframe := MVEngine.emitChanges_frame (v := v) m.ingestTouched.groups
    { m with ingestTouched := {} }
  refine ⟨?_, ?_, hi.finality⟩
  · refine hi.rep.of_groups (fun st' => ?_) ⟨_, _, _, _, hframe⟩
    have hclear : ViewRep v st' { m with ingestTouched := {} } (Chain.window sw h.blocks) ∅ ∅ :=
      (hi.rep.view st').of_eq rfl rfl rfl
    exact hclear.emitChanges _
  · rw [MVEngine.takeChanges, hframe]
    exact hi.writes

theorem WindowInv.rollback {p : BlockNumber} (hp : ∀ f, h.finality = some f → f ≤ p) :
    WindowInv v sw (m.rollback v p).1 { h with blocks := h.blocks.upTo p } := by
  have hle : ∀ b ∈ h.final, b ≤ p := by
    intro b hb
    obtain ⟨f, hf, hbf⟩ := hi.finality b hb
    have := hp f hf
    grind
  obtain ⟨hrep, hwrites⟩ := hi.rep.rollback hv hle
  exact ⟨hrep, by rw [hwrites]; exact hi.writes, hi.finality⟩

theorem WindowInv.advanceFinality (block : BlockNumber) :
    WindowInv v sw (m.advanceFinality v block)
      { h with
        finality := some (h.finality.elim block fun f => if f ≤ block then block else f)
        final := h.blocks.finalTo h.final block } := by
  obtain ⟨hrep, hwrites⟩ := hi.rep.advance hv block hi.writes
  refine ⟨hrep, hwrites, ?_⟩
  intro b hb
  refine ⟨_, rfl, ?_⟩
  have hcases : b ≤ block ∨ b ∈ h.final := by
    rw [Chain.finalTo, OrdMap.mem_keep] at hb
    simpa using hb.2
  rcases hcases with hle | hbf
  · cases h.finality with
    | none => exact hle
    | some f =>
      dsimp only [Option.elim]
      split <;> grind
  · obtain ⟨f, hf, hbf⟩ := hi.finality b hbf
    rw [hf]
    dsimp only [Option.elim]
    split <;> grind

/-- A checkpoint brings the stored records up to the last finality. -/
theorem WindowInv.writeCheckpoint (n : Nat) :
    WindowInv v sw (m.writeCheckpoint v n).1
      { h with stored := applyMvWrites h.stored (m.writeCheckpoint v n).2 } ∧
    applyMvWrites h.stored (m.writeCheckpoint v n).2 = Chain.records v sw h.final := by
  obtain ⟨hm, hwrites⟩ := MVEngine.writeCheckpoint_sliding hv m n
  rw [hm, hwrites, hi.writes]
  refine ⟨⟨?_, rfl, hi.finality⟩, rfl⟩
  exact hi.rep.of_groups (fun st' => (hi.rep.view st').of_eq rfl rfl rfl) ⟨_, _, _, _, rfl⟩

end Calls

/-- **Every call keeps the invariant.** -/
theorem WindowInv.step (hv : v.slidingWindow = some sw) (hw : sw.Fits) {m' : MVEngine}
    {h' : WindowHistory R} (hi : WindowInv v sw m h) (hs : WindowStep v sw (m, h) (m', h')) :
    WindowInv v sw m' h' := by
  cases hs with
  | applyRows st block rows hnew hts =>
    have hn : Chain.Timed sw (h.blocks.insert block rows) :=
      hi.rep.timed.insert hnew (fun _ => hts) fun ts hmax => Or.inl (hts ts hmax)
    exact hi.applyRows hv hw hnew hn st
  | takeChanges => exact hi.takeChanges
  | rollback p hp => exact hi.rollback hv hp
  | advanceFinality block => exact hi.advanceFinality hv block
  | writeCheckpoint n => exact (hi.writeCheckpoint hv n).1

theorem WindowRun.inv (hv : v.slidingWindow = some sw) (hw : sw.Fits) (hr : WindowRun v sw m h) :
    WindowInv v sw m h := by
  obtain ⟨st, m₀, hst, hload, hsteps⟩ := hr
  have hrec : Chain.records v sw (∅ : Chain R) = ∅ := OrdMap.mapEntries_empty _
  have hstored : st.window = .ok (Chain.records v sw (∅ : Chain R)).toList := by
    rw [hrec, hst, ExtTreeMap.toList_eq_nil_iff.mpr rfl]
  obtain ⟨m₁, hload₁, hrep, hwrites⟩ := WindowRep.reload hv Chain.timed_empty hstored
  rw [hload₁, Except.ok.injEq] at hload
  subst hload
  have hinit : WindowInv v sw m₁ ({} : WindowHistory R) := by
    refine ⟨hrep, ?_, by simp⟩
    rw [hwrites, hrec]
    rfl
  have hall : ∀ s : MVEngine × WindowHistory R,
      Relation.ReflTransGen (WindowStep v sw) (m₁, {}) s → WindowInv v sw s.1 s.2 := by
    intro s hs
    induction hs with
    | refl => exact hinit
    | tail _ hstep ih => exact ih.step hv hw hstep
  exact hall (m, h) hsteps

/-! ## The window along a run -/

/-- What the engine shows of a group: its values, if an aggregate of it has data. -/
def MVEngine.output (m : MVEngine) (key : GroupKey) : Option (List Value) :=
  if m.groupHasData key then m.groups[key]?.map fun g => g.aggs.map Agg.currentValue else none

/-- What a group shows is the two-level fold of the window. -/
theorem WindowRep.output {A fin : Chain R} (hrep : WindowRep v sw m A fin) (key : GroupKey) :
    m.output key = if v.foldHasData (Chain.window sw A) key
      then some (v.foldGroup (Chain.window sw A) key) else none := by
  have hview := hrep.view ⟨.ok false, fun _ => .ok none, .ok []⟩
  rw [MVEngine.output]
  cases hg : m.groups[key]? with
  | some g =>
    rw [MVEngine.groupHasData_eq hview hg, Option.map_some,
      ((hview.groups key g hg).folds hview.below).1]
  | none =>
    have hno : v.foldHasData (Chain.window sw A) key = false := by
      rw [v.foldHasData_eq_false_iff]
      intro f hf
      rw [hview.absent key hg f hf]
      exact OrdMap.mapEntries_empty _
    simp [hno]

/-- **Sliding window membership.** In every state of a run, `t` being the largest time of
the chain: the window holds exactly the blocks with a time of at least `t` less the width,
the aggregates are the two-level folds over exactly those blocks, every other block whose
expiring block is not final is in the stash of that block with its own data, and no block
is in two places. -/
theorem window_run_membership (hv : v.slidingWindow = some sw) (hw : sw.Fits)
    (hr : WindowRun v sw m h) :
    (h.blocks ≠ ∅ → (∃ b, Chain.tsOf sw h.blocks b = some (Chain.watermark sw h.blocks)) ∧
      ∀ b ts, Chain.tsOf sw h.blocks b = some ts → ts ≤ Chain.watermark sw h.blocks) ∧
    (∀ (b : BlockNumber) ts, m.blockTimes.byBlock[b]? = some ts ↔
      Chain.tsOf sw h.blocks b = some ts ∧
      (Chain.watermark sw h.blocks).toInt - 1000 * sw.intervalSeconds.toNat ≤ ts.toInt) ∧
    (∀ key g, m.groups[key]? = some g →
      g.aggs.map Agg.currentValue = v.foldGroup (Chain.window sw h.blocks) key ∧
      g.aggs.map Agg.hasData = v.feeds.map fun f =>
        f.func.hasData f.columnType (v.columnList key f (Chain.window sw h.blocks))) ∧
    (∀ key, m.groups[key]? = none → v.foldHasData (Chain.window sw h.blocks) key = false) ∧
    (∀ b ∈ h.blocks, b ∉ m.blockTimes.byBlock →
      ∃ e, Chain.ExpiredBy sw h.blocks b e ∧
        (e ∉ h.final → ∃ x ∈ m.expired[e]?.getD [], x.block = b ∧
          Chain.tsOf sw h.blocks b = some x.ts ∧ StashRep v x (h.blocks[b]?.getD []))) ∧
    (∀ (e : BlockNumber) x, x ∈ m.expired[e]?.getD [] →
      Chain.ExpiredBy sw h.blocks x.block e ∧ x.block ∉ m.blockTimes.byBlock ∧
      ∀ (e' : BlockNumber) x', x' ∈ m.expired[e']?.getD [] → x'.block = x.block →
        e' = e ∧ x' = x) := by
  have hrep := (hr.inv hv hw).rep
  have hview := hrep.view ⟨.ok false, fun _ => .ok none, .ok []⟩
  refine ⟨?_, ?_, ?_, ?_, ?_, ?_⟩
  · intro hne
    exact ⟨Chain.exists_tsOf_eq_watermark hrep.timed hne, fun b ts => Chain.tsOf_le_watermark⟩
  · intro b ts
    rw [hrep.times]
    exact Chain.windowTimes_eq_some
  · intro key g hg
    exact (hview.groups key g hg).folds hview.below
  · intro key hg
    rw [v.foldHasData_eq_false_iff]
    intro f hf
    rw [hview.absent key hg f hf]
    exact OrdMap.mapEntries_empty _
  · intro b hb hout
    rw [hrep.times] at hout
    obtain ⟨e, he⟩ := Chain.exists_expiredBy hb hout
    refine ⟨e, he, ?_⟩
    intro hef
    obtain ⟨x, hx, rfl⟩ := hrep.exists_stashed he hef
    exact ⟨x, hx, rfl, (hrep.stash_expiredBy hx).2.1, hrep.stashed e x hx⟩
  · intro e x hx
    have hby := (hrep.stash_expiredBy hx).2.2
    refine ⟨hby, by rw [hrep.times]; exact hby.not_mem_windowTimes, ?_⟩
    intro e' x' hx' heq
    have hby' := (hrep.stash_expiredBy hx').2.2
    rw [heq] at hby'
    obtain rfl := hby'.unique hby
    refine ⟨rfl, ?_⟩
    -- a stash lists each block once
    have hnd : ((m.expired[e']?.getD []).map ExpiredBlock.block).Nodup := by
      have : (((m.expired[e']?.getD []).map fun x => (x.block, x.ts)).map Prod.fst).Nodup := by
        rw [hrep.stash e']
        split
        · exact List.nodup_nil
        · exact OrdMap.nodup_keys _
      rwa [List.map_map] at this
    exact List.inj_on_of_nodup_map hnd hx' hx heq

/-! ## The stored window along a run -/

/-- The data that the window holds of each block, as its record. -/
def MVEngine.windowOf (m : MVEngine) (b : BlockNumber) : Option WindowRecord :=
  m.blockTimes.byBlock[b]?.map fun ts =>
    windowRecord b ts (((m.blockGroups[b]?.getD ∅).toList).filterMap fun key =>
      m.groups[key]?.map fun g => (key, g.aggs))

/-- The blocks in the stash of `e`, each with its record. -/
def MVEngine.stashAt (m : MVEngine) (e : BlockNumber) : List (BlockNumber × WindowRecord) :=
  (m.expired[e]?.getD []).map fun x => (x.block, windowRecord x.block x.ts x.groups)

/-- Two engines hold the same window, groups, values and stashes. -/
structure SameWindow (m m' : MVEngine) : Prop where
  times : m.blockTimes.byBlock = m'.blockTimes.byBlock
  watermark : m.currentWatermark = m'.currentWatermark
  window : ∀ b, m.windowOf b = m'.windowOf b
  output : ∀ key, m.output key = m'.output key
  stash : ∀ e, m.stashAt e = m'.stashAt e

theorem WindowRep.windowOf {A fin : Chain R} (hrep : WindowRep v sw m A fin) (b : BlockNumber) :
    m.windowOf b = (Chain.windowTimes sw A)[b]?.map fun ts => v.recordOf ts (A[b]?.getD []) := by
  rw [MVEngine.windowOf, hrep.times]
  cases hts : (Chain.windowTimes sw A)[b]? with
  | none => rfl
  | some ts => rw [Option.map_some, Option.map_some, hrep.record hts]

theorem WindowRep.stashAt {A fin : Chain R} (hrep : WindowRep v sw m A fin) (e : BlockNumber) :
    m.stashAt e = (if e ∈ fin then [] else (Chain.expiredAt sw A e).toList).map
      fun b => (b.1, v.recordOf b.2 (A[b.1]?.getD [])) := by
  rw [← hrep.stash e, MVEngine.stashAt, List.map_map]
  refine List.map_congr_left ?_
  intro x hx
  rw [(hrep.stashed e x hx).record]
  rfl

/-- Engines of the same chain with the same final part show the same. -/
theorem WindowRep.same {m' : MVEngine} {A fin : Chain R} (hrep : WindowRep v sw m A fin)
    (hrep' : WindowRep v sw m' A fin) : SameWindow m m' where
  times := by rw [hrep.times, hrep'.times]
  watermark := by rw [hrep.watermark, hrep'.watermark]
  window := by intro b; rw [hrep.windowOf, hrep'.windowOf]
  output := by intro key; rw [hrep.output, hrep'.output]
  stash := by intro e; rw [hrep.stashAt, hrep'.stashAt]

/-- A block is in the window of the final chain iff no final block expired it. -/
theorem Chain.records_eq_some {A fin : Chain R} (hb : Chain.Below fin A) {b : BlockNumber}
    {r : WindowRecord} :
    (Chain.records v sw fin)[b]? = some r ↔
      ∃ rows ts, fin[b]? = some rows ∧ Chain.tsOf sw A b = some ts ∧
        (¬ ∃ e ∈ fin, Chain.ExpiredBy sw A b e) ∧ r = v.recordOf ts rows := by
  by_cases hbf : b ∈ fin
  · obtain ⟨n, hn, hmax⟩ := Chain.exists_newest (A := fin) (by rintro rfl; simp at hbf)
    have hfin := hb.eq_upTo hn hmax
    have hbn := hmax b hbf
    obtain ⟨rows, hrows⟩ := OrdMap.exists_getElem?_of_mem hbf
    have hmemfin : ∀ e, e ∈ fin ↔ e ∈ A ∧ e ≤ n := by
      intro e
      rw [hfin, Chain.mem_upTo]
    rw [Chain.getElem?_records, hrows, Option.getD_some, Option.map_eq_some_iff]
    constructor
    · rintro ⟨ts, hts, rfl⟩
      have htsb := (Chain.windowTimes_eq_some.mp hts).1
      rw [hfin, Chain.tsOf_upTo, if_pos hbn] at htsb
      refine ⟨rows, ts, rfl, htsb, ?_, rfl⟩
      rintro ⟨e, hef, hby⟩
      have hin := (Chain.windowTimes_eq_some.mp hts).2
      rw [hfin] at hin
      exact hby.not_inside_upTo ((hmemfin e).mp hef).2 htsb hin
    · rintro ⟨rows', ts, hrows', hts, hnot, rfl⟩
      cases hrows'
      refine ⟨ts, ?_, rfl⟩
      rw [hfin, Chain.windowTimes_eq_some, Chain.tsOf_upTo, if_pos hbn]
      refine ⟨hts, ?_⟩
      by_contra hout
      have hnotin : b ∉ Chain.windowTimes sw (A.upTo n) := by
        intro hm
        obtain ⟨ts', hts', hin⟩ := Chain.mem_windowTimes.mp hm
        rw [Chain.tsOf_upTo, if_pos hbn, hts, Option.some.injEq] at hts'
        exact hout (hts' ▸ hin)
      obtain ⟨e, he⟩ := Chain.exists_expiredBy (by rw [← hfin]; exact hbf) hnotin
      exact hnot ⟨e, by rw [hfin]; exact he.mem, he.of_upTo⟩
  · have hnone : fin[b]? = none := by grind
    rw [Chain.records, OrdMap.getElem?_mapEntries, hnone]
    simp

/-- **Stored sliding window.** After a checkpoint, storage holds exactly one record for each
block that was final at the last advance of finality and that no final block expired: its
time and the data of the groups that have data in it. Reloading from the records and
replaying the blocks that are not final gives the same window, groups, values and
stashes. -/
theorem stored_window_run (hv : v.slidingWindow = some sw) (hw : sw.Fits)
    (hr : WindowRun v sw m h) (n : Nat) :
    (∀ (b : BlockNumber) r, (applyMvWrites h.stored (m.writeCheckpoint v n).2)[b]? = some r ↔
      ∃ rows ts, h.final[b]? = some rows ∧ Chain.tsOf sw h.blocks b = some ts ∧
        (¬ ∃ e ∈ h.final, Chain.ExpiredBy sw h.blocks b e) ∧ r = v.recordOf ts rows) ∧
    ∀ st : MvReads,
      st.window = .ok (applyMvWrites h.stored (m.writeCheckpoint v n).2).toList →
      ∃ m₀, MVEngine.reload v st = .ok m₀ ∧
        SameWindow (m.writeCheckpoint v n).1
          (MVEngine.replay v st m₀ (h.blocks.minus h.final)) := by
  have hi := hr.inv hv hw
  obtain ⟨hm, hwrites⟩ := MVEngine.writeCheckpoint_sliding hv m n
  rw [hwrites, hi.writes]
  refine ⟨fun b r => Chain.records_eq_some hi.rep.below, ?_⟩
  intro st hst
  have hbelow := hi.rep.below
  have hnf := hi.rep.timed.of_below hbelow
  obtain ⟨m₀, hload, hrep₀, -⟩ := WindowRep.reload hv hnf hst
  refine ⟨m₀, hload, ?_⟩
  have hext := Chain.extend_minus hbelow
  have hreplay := hrep₀.replay hv hw (h.blocks.minus h.final) (by
    intro b hb b' hb'
    obtain ⟨rows, hrows⟩ := OrdMap.exists_getElem?_of_mem hb'
    rw [Chain.getElem?_minus] at hrows
    split at hrows
    · cases hrows
    · next hn => exact hbelow.lt b hb b' (OrdMap.mem_of_getElem?_eq hrows) hn)
    (by rw [hext]; exact hi.rep.timed) st
  rw [hext] at hreplay
  have hlive : WindowRep v sw (m.writeCheckpoint v n).1 h.blocks h.final := by
    rw [hm]
    exact hi.rep.of_groups (fun st' => (hi.rep.view st').of_eq rfl rfl rfl) ⟨_, _, _, _, rfl⟩
  exact hlive.same hreplay

/-! ### A block below the last finality

Block 3, finality 10, then block 5, which expires block 3. Block 5 is below the last
finality but came after it advanced, so it is not stored, and what it expired stays in its
stash. -/

/-- `SELECT sum(x) FROM trades` over the last ten seconds. -/
def slidingSum : MVShape :=
  MVShape.new
    { name := "recent", source := "trades"
      select := [{ expr := .agg .sum (some "x"), aliasName := none }]
      groupBy := [], slidingWindow := some { intervalSeconds := 10, timeColumn := "time" } }
    ((∅ : FxHashMap String ColumnType).insert "x" .uint64)

def timedRow (time : Int64) (x : UInt64) : Row := ⟨⟨["time", "x"]⟩, [.dateTime time, .uint64 x]⟩

private theorem timedRow_nonneg {time : Int64} {x : UInt64} (h : 0 ≤ time) (ts : Int64)
    (hts : ([timedRow time x].filterMap fun r => (SourceRow.column r "time").asI64).max? = some ts) :
    0 ≤ ts := by
  have hlist : ([timedRow time x].filterMap fun r => (SourceRow.column r "time").asI64) = [time] := rfl
  rw [hlist] at hts
  cases hts
  exact h

def lateWindow : MVEngine :=
  let m := (MVEngine.applyRows slidingSum {} noMvState 3 [timedRow 1000 1]).1
  let m := (m.takeChanges slidingSum).1
  let m := m.advanceFinality slidingSum 10
  let m := (m.applyRows slidingSum noMvState 5 [timedRow 20000 2]).1
  (m.takeChanges slidingSum).1

def lateWindowHistory : WindowHistory Row where
  blocks := ((∅ : Chain Row).insert 3 [timedRow 1000 1]).insert 5 [timedRow 20000 2]
  finality := some 10
  final := Chain.finalTo ((∅ : Chain Row).insert 3 [timedRow 1000 1]) ∅ 10

private theorem lateWindow_run :
    WindowRun slidingSum { intervalSeconds := 10, timeColumn := "time" } lateWindow
      lateWindowHistory := by
  refine ⟨noMvState, {}, rfl, rfl, ?_⟩
  have h₁ : Relation.ReflTransGen
      (WindowStep slidingSum { intervalSeconds := 10, timeColumn := "time" })
      (({} : MVEngine), ({} : WindowHistory Row)) _ :=
    .tail .refl (.applyRows noMvState 3 [timedRow 1000 1] (by simp) (timedRow_nonneg (by decide)))
  have h₂ := h₁.tail .takeChanges
  have h₃ := h₂.tail (.advanceFinality 10)
  have h₄ := h₃.tail (.applyRows noMvState 5 [timedRow 20000 2] (by simp) (timedRow_nonneg (by decide)))
  exact h₄.tail .takeChanges

/-- Block 3 has left the window; the block that expired it is not final, so it is in the
stash. -/
theorem window_run_membership_lateBlock :
    WindowRun slidingSum { intervalSeconds := 10, timeColumn := "time" } lateWindow
      lateWindowHistory ∧
    lateWindow.blockTimes.byBlock[(3 : BlockNumber)]? = none ∧
    ∃ e, Chain.ExpiredBy { intervalSeconds := 10, timeColumn := "time" }
      lateWindowHistory.blocks 3 e := by
  have hnone : lateWindow.blockTimes.byBlock[(3 : BlockNumber)]? = none := by decide +kernel
  obtain ⟨-, -, -, -, hstash, -⟩ := window_run_membership rfl (by decide) lateWindow_run
  obtain ⟨e, he, -⟩ := hstash 3 (by decide +kernel) (by grind)
  exact ⟨lateWindow_run, hnone, e, he⟩

/-- A reload after a checkpoint of this run succeeds and holds the same window. -/
theorem stored_window_run_lateBlock :
    WindowRun slidingSum { intervalSeconds := 10, timeColumn := "time" } lateWindow
      lateWindowHistory ∧
    ∃ m₀, MVEngine.reload slidingSum { noMvState with
        window := .ok (applyMvWrites ∅ (lateWindow.writeCheckpoint slidingSum 1).2).toList }
      = .ok m₀ := by
  obtain ⟨-, hload⟩ := stored_window_run rfl (by decide) lateWindow_run 1
  obtain ⟨m₀, h₀, -⟩ := hload { noMvState with
    window := .ok (applyMvWrites ∅ (lateWindow.writeCheckpoint slidingSum 1).2).toList } rfl
  exact ⟨lateWindow_run, m₀, h₀⟩

/-- The stored window is not always that of the blocks at or below the last finality:
block 5 is below finality 10, in the window, and not stored. -/
theorem checkpoint_omits_late_window_block :
    ¬ ∀ (v : MVShape) (sw : SlidingWindowDef) (m : MVEngine) (h : WindowHistory Row),
      v.slidingWindow = some sw → sw.Fits → WindowRun v sw m h →
      ∀ f, h.finality = some f → ∀ (n : Nat) (b : BlockNumber),
        b ∈ h.blocks → b ≤ f → (¬ ∃ e ∈ h.blocks, e ≤ f ∧ Chain.ExpiredBy sw h.blocks b e) →
        b ∈ applyMvWrites h.stored (m.writeCheckpoint v n).2 := by
  intro hall
  have hin : (5 : BlockNumber) ∈ Chain.windowTimes
      { intervalSeconds := 10, timeColumn := "time" } lateWindowHistory.blocks := by
    decide +kernel
  have hmem := hall slidingSum _ lateWindow lateWindowHistory rfl (by decide) lateWindow_run 10 rfl 1 5
    (by decide +kernel) (by decide) (fun ⟨e, _, _, he⟩ => he.not_mem_windowTimes hin)
  have hnot : (5 : BlockNumber) ∉
      applyMvWrites lateWindowHistory.stored (lateWindow.writeCheckpoint slidingSum 1).2 := by
    decide +kernel
  exact hnot hmem

end Settle
