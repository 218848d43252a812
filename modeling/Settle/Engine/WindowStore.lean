import Settle.Engine.WindowFold

/-!
# The stored window

A sliding view stores one record per block of the window as of its last finality, the
records of the chain `fin` (`Chain.records`). An advance of finality queues the writes
that turn the records of the previous advance into those of this one
(`WindowRep.windowWrites`): a block that became final is put from the window or from the
stash of a block that is not final yet, and a stored block that a final block expired is
deleted.

Reading the records back gives the engine of the chain `fin` (`WindowRep.reload`), and
replaying the rest of the chain on it gives the engine of the whole chain
(`WindowRep.replay`).
-/

namespace Settle

open Std

variable {R : Type} [SourceRow R] {v : MVShape} {sw : SlidingWindowDef} {m : MVEngine}
  {A fin : Chain R}

/-! ## Finality -/

omit [SourceRow R] in
/-- The chain that is final is the chain up to its newest block. -/
theorem Chain.Below.eq_upTo (h : Chain.Below fin A) {n : BlockNumber} (hn : n ∈ fin)
    (hmax : ∀ b ∈ fin, b ≤ n) : fin = A.upTo n := by
  refine ExtTreeMap.ext_getElem? fun b => ?_
  rw [Chain.getElem?_upTo]
  by_cases hb : b ∈ fin
  · obtain ⟨rows, hr⟩ := OrdMap.exists_getElem?_of_mem hb
    rw [if_pos (hmax b hb), hr, h.sub b rows hr]
  · have hnone : fin[b]? = none := by grind
    rw [hnone]
    split
    · next hbn =>
      by_contra hne
      have hbA : b ∈ A := by
        rw [ExtTreeMap.mem_iff_isSome_getElem?, Option.isSome_iff_ne_none]
        exact Ne.symm hne
      have := h.lt n hn b hbA hb
      grind
    · rfl

/-- The times of the final part of a chain. -/
theorem Chain.Timed.of_below (h : Chain.Timed sw A) (hb : Chain.Below fin A) :
    Chain.Timed sw fin := by
  by_cases hne : fin = ∅
  · rw [hne]
    exact Chain.timed_empty
  · obtain ⟨n, hn, hmax⟩ := Chain.exists_newest hne
    rw [hb.eq_upTo hn hmax]
    exact h.upTo n

/-- **An advance of finality** drops the stashes of the blocks that became final. -/
theorem WindowRep.advanceFinality (h : WindowRep v sw m A fin) (hv : v.slidingWindow = some sw)
    {p : BlockNumber} (hp : ∀ b ∈ fin, b ≤ p) :
    WindowRep v sw (MVEngine.advanceFinality v m p) A (A.upTo p) := by
  rw [MVEngine.advanceFinality, if_pos (by simp [hv]), MVEngine.advanceWindow]
  refine ⟨Chain.keep_below A p, h.timed, h.reads, fun st => (h.view st).of_eq rfl rfl rfl, h.ok,
    h.times, h.watermark, ?_, ?_, ?_⟩
  · intro b
    have hb := h.unstored b
    have := hp b
    simp only [ExtTreeSet.mem_filter, decide_eq_true_eq, Chain.mem_upTo]
    grind
  · intro e
    dsimp only
    rw [OrdMap.getElem?_keep]
    by_cases hpe : p < e
    · have he : e ∉ A.upTo p := by grind
      have hef : e ∉ fin := fun hf => by
        have := hp e hf
        grind
      have := h.stash e
      rw [if_neg hef] at this
      rw [if_neg he]
      simpa [hpe] using this
    · simp only [hpe, decide_false, Bool.false_eq_true, ↓reduceIte, Option.getD_none, List.map_nil]
      split
      · rfl
      · next he => rw [Chain.expiredAt_eq_empty (by grind)]; simp
  · intro e x hx
    dsimp only at hx
    rw [OrdMap.getElem?_keep] at hx
    split at hx
    · exact h.stashed e x hx
    · simp at hx

/-! ## Records -/

/-- The stored window of a chain: one record for each block in its window. -/
def Chain.records (v : MVShape) (sw : SlidingWindowDef) (fin : Chain R) :
    BTreeMap BlockNumber WindowRecord :=
  OrdMap.mapEntries fin fun b rows =>
    (Chain.windowTimes sw fin)[b]?.map fun ts => v.recordOf ts rows

/-- The records after a list of queued writes. -/
def applyWindowWrites (stored : BTreeMap BlockNumber WindowRecord) (writes : List WindowWrite) :
    BTreeMap BlockNumber WindowRecord :=
  writes.foldl (fun s w => match w with
    | .put b r => s.insert b r
    | .delete b => s.erase b) stored

/-- The block that a write is about. -/
def WindowWrite.block : WindowWrite → BlockNumber
  | .put b _ => b
  | .delete b => b

theorem applyWindowWrites_append (stored : BTreeMap BlockNumber WindowRecord)
    (ws ws' : List WindowWrite) :
    applyWindowWrites stored (ws ++ ws') = applyWindowWrites (applyWindowWrites stored ws) ws' :=
  List.foldl_append

theorem getElem?_applyWindowWrites_cons (stored : BTreeMap BlockNumber WindowRecord)
    (w : WindowWrite) (ws : List WindowWrite) :
    applyWindowWrites stored (w :: ws) = applyWindowWrites (applyWindowWrites stored [w]) ws := rfl

/-- Writes that agree about a block leave what they say about it. -/
theorem getElem?_applyWindowWrites {ws : List WindowWrite} {b : BlockNumber}
    {r : Option WindowRecord}
    (hput : ∀ r', .put b r' ∈ ws → r = some r') (hdel : .delete b ∈ ws → r = none)
    (stored : BTreeMap BlockNumber WindowRecord) :
    (applyWindowWrites stored ws)[b]?
      = if ∃ w ∈ ws, w.block = b then r else stored[b]? := by
  induction ws generalizing stored with
  | nil => simp [applyWindowWrites]
  | cons w ws ih =>
    rw [getElem?_applyWindowWrites_cons, ih (fun r' h => hput r' (List.mem_cons_of_mem _ h))
      (fun h => hdel (List.mem_cons_of_mem _ h))]
    have hone : (applyWindowWrites stored [w])[b]? = if w.block = b then r else stored[b]? := by
      cases w with
      | put b' r' =>
        show (stored.insert b' r')[b]? = _
        rw [ExtTreeMap.getElem?_insert]
        by_cases hb : b' = b
        · subst hb
          rw [hput r' List.mem_cons_self]
          simp [WindowWrite.block]
        · simp [WindowWrite.block, hb]
      | delete b' =>
        show (stored.erase b')[b]? = _
        rw [ExtTreeMap.getElem?_erase]
        by_cases hb : b' = b
        · subst hb
          rw [hdel List.mem_cons_self]
          simp [WindowWrite.block]
        · simp [WindowWrite.block, hb]
    rw [hone]
    by_cases hw : w.block = b
    · by_cases hws : ∃ w ∈ ws, w.block = b <;> simp [hw, hws]
    · by_cases hws : ∃ w ∈ ws, w.block = b <;> simp [hw, hws]

theorem Chain.getElem?_records (fin : Chain R) (b : BlockNumber) :
    (Chain.records v sw fin)[b]? = (Chain.windowTimes sw fin)[b]?.map fun ts =>
      v.recordOf ts (fin[b]?.getD []) := by
  rw [Chain.records, OrdMap.getElem?_mapEntries]
  cases hb : fin[b]? with
  | none =>
    have : (Chain.windowTimes sw fin)[b]? = none := by
      rw [Chain.getElem?_windowTimes, Chain.tsOf, hb]
      rfl
    simp [this]
  | some rows => rfl

/-! ## The writes of an advance -/

namespace MVEngine

/-- The writes that an advance of finality to `p` queues. -/
def advanceWrites (m : MVEngine) (p : BlockNumber) : List WindowWrite :=
  let newlyFinal := m.unstored.filter (· ≤ p)
  let puts := newlyFinal.toList.filterMap fun b =>
    m.blockTimes.byBlock[b]?.map fun ts =>
      let groups := ((m.blockGroups[b]?.getD ∅).toList).filterMap fun key =>
        m.groups[key]?.map fun g => (key, g.aggs)
      WindowWrite.put b (windowRecord b ts groups)
  let stashed := (((OrdMap.keep m.expired (p < ·)).toList.flatMap Prod.snd).filter
    fun e => newlyFinal.contains e.block).map
      fun e => WindowWrite.put e.block (windowRecord e.block e.ts e.groups)
  let deletes := (((OrdMap.keep m.expired (· ≤ p)).toList.flatMap Prod.snd).filter
    fun e => !newlyFinal.contains e.block).map fun e => WindowWrite.delete e.block
  puts ++ stashed ++ deletes

theorem advanceFinality_windowWrites (hv : v.slidingWindow = some sw) (m : MVEngine)
    (p : BlockNumber) :
    (advanceFinality v m p).windowWrites = m.windowWrites ++ advanceWrites m p := by
  rw [advanceFinality, if_pos (by simp [hv]), advanceWindow, advanceWrites]
  simp only [List.append_assoc]

theorem mem_flatMap_keep {m : MVEngine} {q : BlockNumber → Bool} {x : ExpiredBlock} :
    x ∈ (OrdMap.keep m.expired q).toList.flatMap Prod.snd ↔
      ∃ e, q e ∧ x ∈ m.expired[e]?.getD [] := by
  simp only [List.mem_flatMap, Prod.exists, ExtTreeMap.mem_toList_iff_getElem?_eq_some,
    OrdMap.getElem?_keep]
  constructor
  · rintro ⟨e, xs, he, hx⟩
    split at he
    · next hq => exact ⟨e, hq, by rw [he]; exact hx⟩
    · cases he
  · rintro ⟨e, hq, hx⟩
    cases hxs : m.expired[e]? with
    | none => simp [hxs] at hx
    | some xs => exact ⟨e, xs, by simp [hq, hxs], by simpa [hxs] using hx⟩

end MVEngine

/-- What the window holds of a block is its record. -/
theorem WindowRep.record (h : WindowRep v sw m A fin) {b : BlockNumber} {ts : Int64}
    (hb : (Chain.windowTimes sw A)[b]? = some ts) :
    MVEngine.windowRecord b ts (((m.blockGroups[b]?.getD ∅).toList).filterMap fun key =>
        m.groups[key]?.map fun g => (key, g.aggs))
      = v.recordOf ts (A[b]?.getD []) := by
  have hview := h.view ⟨.ok false, fun _ => .ok none, .ok []⟩
  obtain ⟨rows, hr⟩ := OrdMap.exists_getElem?_of_mem
    (Chain.mem_of_tsOf (Chain.windowTimes_eq_some.mp hb).1)
  have hW : (Chain.window sw A)[b]? = some rows := by
    rw [Chain.getElem?_window, if_pos (OrdMap.mem_of_getElem?_eq hb), hr]
  rw [hr, Option.getD_some]
  refine MVEngine.windowRecord_eq ?_ ?_ ?_
  · rw [MVEngine.filterMap_groups_keys]
    exact ExtTreeSet.ordered_toList.filter _
  · intro e he
    obtain ⟨key, hkey, he⟩ := List.mem_filterMap.mp he
    obtain ⟨g, hg, rfl⟩ := Option.map_eq_some_iff.mp he
    have hrep := hview.groups key g hg
    rw [Chain.minus_empty] at hrep
    exact hrep.writeBlock hW
  · intro key hkey
    rw [MVEngine.filterMap_groups_keys] at hkey
    exact hview.noBlockData hW hkey

/-- **The writes of an advance say what the window as of `p` is.** -/
theorem WindowRep.mem_advanceWrites (h : WindowRep v sw m A fin) {p : BlockNumber}
    (hp : ∀ b ∈ fin, b ≤ p) :
    (∀ b r, .put b r ∈ m.advanceWrites p →
      b ∉ fin ∧ (Chain.records v sw (A.upTo p))[b]? = some r) ∧
    (∀ b, .delete b ∈ m.advanceWrites p →
      b ∈ fin ∧ (Chain.records v sw (A.upTo p))[b]? = none) ∧
    (∀ b r, b ∉ fin → (Chain.records v sw (A.upTo p))[b]? = some r →
      .put b r ∈ m.advanceWrites p) ∧
    (∀ b e, b ∈ fin → e ∉ fin → e ≤ p → Chain.ExpiredBy sw A b e →
      .delete b ∈ m.advanceWrites p) := by
  have hnew : ∀ b, b ∈ m.unstored.filter (· ≤ p) ↔ (b ∈ A ∧ b ∉ fin) ∧ b ≤ p := by
    intro b
    rw [ExtTreeSet.mem_filter, ← h.unstored b]
    simp
  have hrec : ∀ {b : BlockNumber} {ts : Int64}, b ≤ p →
      (Chain.windowTimes sw (A.upTo p))[b]? = some ts →
      (Chain.records v sw (A.upTo p))[b]? = some (v.recordOf ts (A[b]?.getD [])) := by
    intro b ts hbp hts
    rw [Chain.getElem?_records, hts, Chain.getElem?_upTo, if_pos hbp]
    rfl
  -- the time of a block in the window, or of one that a block above `p` expired
  have hwin : ∀ {b : BlockNumber} {ts : Int64}, b ≤ p → (Chain.windowTimes sw A)[b]? = some ts →
      (Chain.windowTimes sw (A.upTo p))[b]? = some ts := by
    intro b ts hbp hts
    obtain ⟨htsb, hin⟩ := Chain.windowTimes_eq_some.mp hts
    rw [Chain.windowTimes_eq_some, Chain.tsOf_upTo, if_pos hbp]
    exact ⟨htsb, hin.of_le (Chain.watermark_upTo_le A p)⟩
  have hstashed : ∀ {e : BlockNumber} {x : ExpiredBlock}, p < e → x.block ≤ p →
      x ∈ m.expired[e]?.getD [] →
      (Chain.windowTimes sw (A.upTo p))[x.block]? = some x.ts := by
    intro e x hpe hxp hx
    obtain ⟨-, hts, hby⟩ := h.stash_expiredBy hx
    rw [Chain.windowTimes_eq_some, Chain.tsOf_upTo, if_pos hxp]
    exact ⟨hts, hby.inside_upTo hxp hpe hts⟩
  unfold MVEngine.advanceWrites
  refine ⟨?_, ?_, ?_, ?_⟩
  · intro b r hput
    simp only [List.mem_append, List.mem_filterMap, List.mem_map, reduceCtorEq, and_false,
      exists_false, or_false] at hput
    rcases hput with ⟨b', hb', heq⟩ | ⟨x, hx, heq⟩
    · obtain ⟨ts, hts, heq⟩ := Option.map_eq_some_iff.mp heq
      cases heq
      obtain ⟨⟨-, hbf⟩, hbp⟩ := (hnew b).mp (ExtTreeSet.mem_toList.mp hb')
      rw [h.times] at hts
      refine ⟨hbf, ?_⟩
      rw [hrec hbp (hwin hbp hts), ← h.record hts]
    · cases heq
      obtain ⟨hx, hxn⟩ := List.mem_filter.mp hx
      obtain ⟨e, hpe, hxe⟩ := MVEngine.mem_flatMap_keep.mp hx
      obtain ⟨⟨-, hbf⟩, hbp⟩ := (hnew x.block).mp (by simpa using hxn)
      refine ⟨hbf, ?_⟩
      rw [hrec hbp (hstashed (by simpa using hpe) hbp hxe), (h.stashed e x hxe).record]
  · intro b hdel
    simp only [List.mem_append, List.mem_filterMap, List.mem_map, Option.map_eq_some_iff,
      reduceCtorEq, and_false, exists_false, false_or] at hdel
    obtain ⟨x, hx, heq⟩ := hdel
    cases heq
    obtain ⟨hx, hxn⟩ := List.mem_filter.mp hx
    obtain ⟨e, hep, hxe⟩ := MVEngine.mem_flatMap_keep.mp hx
    obtain ⟨-, hts, hby⟩ := h.stash_expiredBy hxe
    have hle : e ≤ p := by simpa using hep
    have hxp : x.block ≤ p := by
      have := hby.le
      grind
    have hxn' : ¬ x.block ∈ m.unstored.filter (· ≤ p) := by
      rw [← ExtTreeSet.contains_iff_mem]
      simpa only [Bool.not_eq_eq_eq_not, Bool.not_true, Bool.not_eq_true] using hxn
    rw [hnew] at hxn'
    refine ⟨?_, ?_⟩
    · by_contra hxf
      exact hxn' ⟨⟨Chain.mem_of_tsOf hts, hxf⟩, hxp⟩
    · have hnone : (Chain.windowTimes sw (A.upTo p))[x.block]? = none := by
        rw [Chain.getElem?_windowTimes, Chain.tsOf_upTo, if_pos hxp, hts]
        simp [Option.filter, hby.not_inside_upTo hle hts]
      rw [Chain.getElem?_records, hnone]
      rfl
  · intro b r hbf hr
    rw [Chain.getElem?_records] at hr
    obtain ⟨ts, hts, rfl⟩ := Option.map_eq_some_iff.mp hr
    have hmem := OrdMap.mem_of_getElem?_eq hts
    obtain ⟨hbp, hcase⟩ := (Chain.mem_windowTimes_upTo sw A p b).mp hmem
    have hbA : b ∈ A := by
      have := Chain.mem_of_tsOf (Chain.windowTimes_eq_some.mp hts).1
      grind
    rw [Chain.getElem?_upTo, if_pos hbp]
    simp only [List.mem_append, List.mem_filterMap, List.mem_map, reduceCtorEq, and_false,
      exists_false, or_false]
    rcases hcase with hin | ⟨e, hpe, hby⟩
    · obtain ⟨ts', hts'⟩ := OrdMap.exists_getElem?_of_mem hin
      have : ts' = ts := by
        have := hwin hbp hts'
        rw [hts, Option.some.injEq] at this
        exact this.symm
      subst this
      refine Or.inl ⟨b, ExtTreeSet.mem_toList.mpr ((hnew b).mpr ⟨⟨hbA, hbf⟩, hbp⟩), ?_⟩
      rw [h.times, hts', ← h.record hts']
      rfl
    · obtain ⟨x, hx, rfl⟩ := h.exists_stashed hby (fun hf => by
        have := hp e hf
        grind)
      refine Or.inr ⟨x, List.mem_filter.mpr ⟨MVEngine.mem_flatMap_keep.mpr ⟨e, by simpa using hpe,
        hx⟩, by simpa using (hnew x.block).mpr ⟨⟨hbA, hbf⟩, hbp⟩⟩, ?_⟩
      have := hstashed hpe hbp hx
      rw [hts, Option.some.injEq] at this
      rw [(h.stashed e x hx).record, this]
  · intro b e hbf hef hep hby
    obtain ⟨x, hx, rfl⟩ := h.exists_stashed hby hef
    simp only [List.mem_append, List.mem_map]
    refine Or.inr ⟨x, List.mem_filter.mpr ⟨MVEngine.mem_flatMap_keep.mpr ⟨e, by simpa using hep,
      hx⟩, ?_⟩, rfl⟩
    have hn : ¬ x.block ∈ m.unstored.filter (· ≤ p) := fun hn => ((hnew x.block).mp hn).1.2 hbf
    rw [← ExtTreeSet.contains_iff_mem, Bool.not_eq_true] at hn
    rw [hn]
    rfl

/-- The record of a final block that is still in the window as of `p` is the record that is
stored. -/
theorem Chain.records_of_final (hb : Chain.Below fin A) {p : BlockNumber}
    (hp : ∀ b ∈ fin, b ≤ p) {b : BlockNumber} (hbf : b ∈ fin)
    (hnot : ¬ ∃ e, e ∉ fin ∧ e ≤ p ∧ Chain.ExpiredBy sw A b e) :
    (Chain.records v sw (A.upTo p))[b]? = (Chain.records v sw fin)[b]? := by
  obtain ⟨n, hn, hmax⟩ := Chain.exists_newest (A := fin) (by rintro rfl; simp at hbf)
  have hfin := hb.eq_upTo hn hmax
  have hnp := hp n hn
  have hbn := hmax b hbf
  have htimes : (Chain.windowTimes sw fin)[b]? = (Chain.windowTimes sw (A.upTo p))[b]? := by
    rw [hfin, ← Chain.upTo_upTo A hnp]
    refine Chain.windowTimes_upTo hbn ?_
    rintro ⟨e, hne, hex⟩
    have hep : e ≤ p := by
      have := hex.mem
      grind
    refine hnot ⟨e, fun hef => ?_, hep, hex.of_upTo⟩
    have := hmax e hef
    grind
  rw [Chain.getElem?_records, Chain.getElem?_records, htimes, Chain.getElem?_upTo,
    if_pos (hp b hbf)]
  obtain ⟨rows, hr⟩ := OrdMap.exists_getElem?_of_mem hbf
  rw [hr, hb.sub b rows hr]

/-- **The queued writes turn the stored window of the previous advance into that of this
one.** -/
theorem WindowRep.windowWrites (h : WindowRep v sw m A fin) (hv : v.slidingWindow = some sw)
    {p : BlockNumber} (hp : ∀ b ∈ fin, b ≤ p) {stored : BTreeMap BlockNumber WindowRecord}
    (hs : applyWindowWrites stored m.windowWrites = Chain.records v sw fin) :
    applyWindowWrites stored (MVEngine.advanceFinality v m p).windowWrites
      = Chain.records v sw (A.upTo p) := by
  obtain ⟨hput, hdel, hputs, hdels⟩ := h.mem_advanceWrites hp
  rw [MVEngine.advanceFinality_windowWrites hv, applyWindowWrites_append, hs]
  refine ExtTreeMap.ext_getElem? fun b => ?_
  rw [getElem?_applyWindowWrites (r := (Chain.records v sw (A.upTo p))[b]?)
    (fun r' hr' => (hput b r' hr').2) (fun hd => (hdel b hd).2)]
  split
  · rfl
  · next hnone =>
    by_cases hbf : b ∈ fin
    · symm
      refine Chain.records_of_final h.below hp hbf ?_
      rintro ⟨e, hef, hep, hby⟩
      exact hnone ⟨_, hdels b e hbf hef hep hby, rfl⟩
    · -- a block that is neither stored nor put has no record
      have hfin : (Chain.records v sw fin)[b]? = none := by
        have hfb : fin[b]? = none := by grind
        rw [Chain.records, OrdMap.getElem?_mapEntries, hfb]
        rfl
      rw [hfin]
      cases hr : (Chain.records v sw (A.upTo p))[b]? with
      | none => rfl
      | some r => exact absurd ⟨_, hputs b r hbf hr, rfl⟩ hnone

/-- The blocks that are final once finality reaches `p`. -/
def Chain.finalTo (A fin : Chain R) (p : BlockNumber) : Chain R :=
  OrdMap.keep A fun b => b ≤ p || fin.contains b

omit [SourceRow R] in
theorem Chain.finalTo_eq_upTo {p : BlockNumber} (hp : ∀ b ∈ fin, b ≤ p) :
    A.finalTo fin p = A.upTo p := by
  refine ExtTreeMap.ext_getElem? fun b => ?_
  rw [Chain.finalTo, OrdMap.getElem?_keep, Chain.getElem?_upTo]
  by_cases hb : b ∈ fin
  · simp [hp b hb]
  · simp [hb]

omit [SourceRow R] in
theorem Chain.finalTo_eq_self (hb : Chain.Below fin A) {n p : BlockNumber} (hn : n ∈ fin)
    (hp : p < n) : A.finalTo fin p = fin := by
  refine ExtTreeMap.ext_getElem? fun b => ?_
  rw [Chain.finalTo, OrdMap.getElem?_keep]
  by_cases hbf : b ∈ fin
  · obtain ⟨rows, hr⟩ := OrdMap.exists_getElem?_of_mem hbf
    simp only [ExtTreeMap.contains_eq_isSome_getElem?, hr, Option.isSome_some, Bool.or_true,
      ↓reduceIte, hb.sub b rows hr]
  · have hnone : fin[b]? = none := by grind
    have hgt : b ∈ A → p < b := fun hbA => by
      have := hb.lt n hn b hbA hbf
      grind
    grind

/-- **An advance of finality, wherever it goes**: the engine and the queued writes follow
the blocks that are final. An advance below a final block changes nothing. -/
theorem WindowRep.advance (h : WindowRep v sw m A fin) (hv : v.slidingWindow = some sw)
    (p : BlockNumber) {stored : BTreeMap BlockNumber WindowRecord}
    (hs : applyWindowWrites stored m.windowWrites = Chain.records v sw fin) :
    WindowRep v sw (MVEngine.advanceFinality v m p) A (A.finalTo fin p) ∧
    applyWindowWrites stored (MVEngine.advanceFinality v m p).windowWrites
      = Chain.records v sw (A.finalTo fin p) := by
  by_cases hp : ∀ b ∈ fin, b ≤ p
  · rw [Chain.finalTo_eq_upTo hp]
    exact ⟨h.advanceFinality hv hp, h.windowWrites hv hp hs⟩
  · push Not at hp
    obtain ⟨n, hn, hpn⟩ := hp
    have hpn : p < n := by grind
    -- what is at or below `p` was final before
    have hunst : ∀ b ∈ m.unstored, p < b := by
      intro b hb
      obtain ⟨hbA, hbf⟩ := (h.unstored b).mp hb
      have := h.below.lt n hn b hbA hbf
      grind
    have hstash : ∀ e : BlockNumber, e ≤ p → m.expired[e]?.getD [] = [] := by
      intro e hep
      have hnil := h.stash e
      have hsome : e ∈ fin ∨ e ∉ A := by
        by_contra hnot
        push Not at hnot
        have := h.below.lt n hn e hnot.2 hnot.1
        grind
      rcases hsome with hef | heA
      · rwa [if_pos hef, List.map_eq_nil_iff] at hnil
      · rw [Chain.expiredAt_eq_empty heA, ExtTreeMap.toList_eq_nil_iff.mpr rfl, ite_self,
          List.map_eq_nil_iff] at hnil
        exact hnil
    have hkeep : ∀ e : BlockNumber, (OrdMap.keep m.expired (p < ·))[e]?.getD []
        = m.expired[e]?.getD [] := by
      intro e
      rw [OrdMap.getElem?_keep]
      by_cases hpe : p < e
      · simp [hpe]
      · rw [hstash e (by grind)]
        simp [hpe]
    have hwrites : m.advanceWrites p = [] := by
      have hnew : m.unstored.filter (· ≤ p) = ∅ := by
        refine ExtTreeSet.ext_mem fun b => ?_
        rw [ExtTreeSet.mem_filter]
        have := hunst b
        simp
        grind
      have hdel : ∀ x, x ∉ (OrdMap.keep m.expired (· ≤ p)).toList.flatMap Prod.snd := by
        intro x hx
        obtain ⟨e, hep, hxe⟩ := MVEngine.mem_flatMap_keep.mp hx
        rw [hstash e (by simpa using hep)] at hxe
        cases hxe
      rw [MVEngine.advanceWrites, hnew, List.eq_nil_iff_forall_not_mem.mpr hdel]
      simp
    refine ⟨?_, ?_⟩
    · rw [Chain.finalTo_eq_self h.below hn hpn, MVEngine.advanceFinality, if_pos (by simp [hv]),
        MVEngine.advanceWindow]
      refine ⟨h.below, h.timed, h.reads, fun st => (h.view st).of_eq rfl rfl rfl, h.ok, h.times,
        h.watermark, ?_, ?_, ?_⟩
      · intro b
        rw [ExtTreeSet.mem_filter, ← h.unstored b]
        have := hunst b
        simp
        grind
      · intro e
        dsimp only
        rw [hkeep e]
        exact h.stash e
      · intro e x hx
        dsimp only at hx
        rw [hkeep e] at hx
        exact h.stashed e x hx
    · rw [MVEngine.advanceFinality_windowWrites hv, hwrites, List.append_nil, hs,
        Chain.finalTo_eq_self h.below hn hpn]

/-! ## Reading the window back -/

/-- The loop of `restore_window`: the rows of the records are `B`, their times `T`. -/
theorem ViewRep.readWindowRecords {st : MvReads} {W B : Chain R} {T : BTreeMap BlockNumber Int64}
    (h : ViewRep v st m W ∅ ∅) {L : List (BlockNumber × WindowRecord)}
    (hnd : (L.map Prod.fst).Nodup)
    (hL : ∀ e ∈ L, e.1 ∉ W ∧ ∃ ts rows, T[e.1]? = some ts ∧ B[e.1]? = some rows ∧
      e.2 = v.recordOf ts rows) :
    ∃ m' W', MVEngine.readWindowRecords v m L = .ok m' ∧ ViewRep v st m' W' ∅ ∅ ∧
      (∀ b : BlockNumber, W'[b]? = if b ∈ L.map Prod.fst then B[b]? else W[b]?) ∧
      m' = { m with
        groups := m'.groups, blockGroups := m'.blockGroups, blockTimes := m'.blockTimes } ∧
      (m.blockTimes.Ok → m'.blockTimes.Ok) ∧
      ∀ b : BlockNumber, m'.blockTimes.byBlock[b]?
        = if b ∈ L.map Prod.fst then T[b]? else m.blockTimes.byBlock[b]? := by
  induction L generalizing m W with
  | nil => exact ⟨m, W, rfl, h, by simp, rfl, id, by simp⟩
  | cons e L ih =>
    obtain ⟨he, hnd⟩ := List.nodup_cons.mp (List.map_cons ▸ hnd)
    obtain ⟨heW, ts, rows, hts, hrows, hrec⟩ := hL e List.mem_cons_self
    obtain ⟨m₁, hread, hrep, hm₁⟩ := h.readWindowRecord heW ts rows
    obtain ⟨m', W', heq, hrep', hW', hm', hok, htimes⟩ := ih hrep hnd (by
      intro e' he'
      obtain ⟨heW', hrest⟩ := hL e' (List.mem_cons_of_mem _ he')
      have hne : e.1 ≠ e'.1 := fun heq => he (heq ▸ List.mem_map_of_mem he')
      exact ⟨by simp [ExtTreeMap.mem_insert, hne, heW'], hrest⟩)
    have hbt : m₁.blockTimes = m.blockTimes.insert e.1 ts := by rw [hm₁]
    refine ⟨m', W', ?_, hrep', ?_, by rw [hm', hm₁], ?_, ?_⟩
    · obtain ⟨b, r⟩ := e
      dsimp only at hrec hread
      rw [MVEngine.readWindowRecords, hrec, hread]
      exact heq
    · intro b
      simp only [hW' b, List.map_cons, List.mem_cons, ExtTreeMap.getElem?_insert]
      by_cases hb : e.1 = b
      · subst hb
        simp [he, hrows]
      · have hne : ¬ b = e.1 := Ne.symm hb
        simp only [Std.compare_eq_iff_eq, hb, hne, ↓reduceIte, false_or]
    · intro hok₀
      exact hok (hbt ▸ hok₀.insert _ _)
    · intro b
      simp only [htimes b, hbt, BlockTimes.byBlock_insert, List.map_cons, List.mem_cons,
        ExtTreeMap.getElem?_insert]
      by_cases hb : e.1 = b
      · subst hb
        simp [he, hts]
      · have hne : ¬ b = e.1 := Ne.symm hb
        simp only [Std.compare_eq_iff_eq, hb, hne, ↓reduceIte, false_or]

/-- **Reading the stored window gives the engine of the final chain.** -/
theorem WindowRep.reload (hv : v.slidingWindow = some sw) (hn : Chain.Timed sw fin)
    {st : MvReads} (hst : st.window = .ok (Chain.records v sw fin).toList) :
    ∃ m', MVEngine.reload v st = .ok m' ∧ WindowRep v sw m' fin fin ∧ m'.windowWrites = [] := by
  have hempty := windowRep_empty (R := R) v sw
  have hW₀ : Chain.window sw (∅ : Chain R) = ∅ := OrdMap.keep_empty _
  have hmem : ∀ b, b ∈ ((Chain.records v sw fin).toList.map Prod.fst) ↔
      b ∈ Chain.windowTimes sw fin := by
    intro b
    rw [ExtTreeMap.map_fst_toList_eq_keys, ExtTreeMap.mem_keys,
      ExtTreeMap.mem_iff_isSome_getElem?, ExtTreeMap.mem_iff_isSome_getElem?,
      Chain.getElem?_records, Option.isSome_map]
  have hL : ∀ e ∈ (Chain.records v sw fin).toList, e.1 ∉ (∅ : Chain R) ∧
      ∃ ts rows, (Chain.windowTimes sw fin)[e.1]? = some ts ∧ fin[e.1]? = some rows ∧
        e.2 = v.recordOf ts rows := by
    intro e he
    rw [ExtTreeMap.mem_toList_iff_getElem?_eq_some, Chain.getElem?_records] at he
    obtain ⟨ts, hts, heq⟩ := Option.map_eq_some_iff.mp he
    obtain ⟨rows, hr⟩ := OrdMap.exists_getElem?_of_mem
      (Chain.mem_of_tsOf (Chain.windowTimes_eq_some.mp hts).1)
    refine ⟨by simp, ts, rows, hts, hr, ?_⟩
    rw [← heq, hr]
    rfl
  have hloop := fun st => (hW₀ ▸ hempty.view st).readWindowRecords (OrdMap.nodup_keys _) hL
  obtain ⟨m', W', heq, -, hW', hm', hok, htimes⟩ := hloop st
  have hWeq : W' = Chain.window sw fin := by
    refine ExtTreeMap.ext_getElem? fun b => ?_
    rw [hW' b, Chain.getElem?_window]
    simp only [hmem b, ExtTreeMap.getElem?_empty]
  have hbt : m'.blockTimes.byBlock = Chain.windowTimes sw fin := by
    refine ExtTreeMap.ext_getElem? fun b => ?_
    rw [htimes b]
    by_cases hb : b ∈ Chain.windowTimes sw fin
    · rw [if_pos ((hmem b).mpr hb)]
    · have hnone : (Chain.windowTimes sw fin)[b]? = none := by grind
      rw [if_neg (mt (hmem b).mp hb), hnone]
      simp
  have hok' := hok BlockTimes.ok_empty
  refine ⟨{ m' with currentWatermark := m'.blockTimes.maxTs.getD 0 }, ?_, ?_, by rw [hm']⟩
  · rw [MVEngine.reload, MVEngine.restore, if_pos (by simp [hv]), MVEngine.restoreWindow, hst]
    show (MVEngine.readWindowRecords v {} (Chain.records v sw fin).toList >>= fun m => _) = _
    rw [heq]
    rfl
  · have hself : Chain.Below fin fin := ⟨fun _ _ h => h, fun _ _ _ h hn => absurd h hn⟩
    refine ⟨hself, hn, by rw [hm'], ?_, hok', hbt, WindowRep.maxTs hok' hn hbt, ?_, ?_, ?_⟩
    · intro st'
      obtain ⟨m₂, W₂, heq₂, hrep₂, hW₂, -⟩ := hloop st'
      rw [heq] at heq₂
      cases heq₂
      have hWW : W₂ = W' := ExtTreeMap.ext_getElem? fun b => by rw [hW₂ b, hW' b]
      rw [← hWeq, ← hWW]
      exact hrep₂.of_eq rfl rfl rfl
    · intro b
      rw [hm']
      simp
    · intro e
      rw [hm']
      by_cases he : e ∈ fin
      · simp [he]
      · simp [he, Chain.expiredAt_eq_empty he]
    · intro e x hx
      rw [hm'] at hx
      simp at hx

/-! ## Replaying the rest of the chain -/

/-- Replay blocks, in block order. -/
def MVEngine.replay (v : MVShape) (st : MvReads) (m : MVEngine) (blocks : Chain R) : MVEngine :=
  blocks.toList.foldl (fun m e => (m.replayBlock v st e.1 e.2).1) m

/-- The chain `fin` with the blocks of `rest` on top. -/
def Chain.extend (fin rest : Chain R) : Chain R :=
  rest.toList.foldl (fun (A : Chain R) e => A.insert e.1 e.2) fin

omit [SourceRow R] in
theorem Chain.extend_insert (fin : Chain R) {rest : Chain R} {b : BlockNumber}
    (hb : ∀ b' ∈ rest, b' < b) (rows : List R) :
    Chain.extend fin (rest.insert b rows) = (Chain.extend fin rest).insert b rows := by
  rw [Chain.extend, OrdMap.toList_insert_of_lt hb, List.foldl_append]
  rfl

omit [SourceRow R] in
theorem Chain.getElem?_extend (fin rest : Chain R) (b : BlockNumber) :
    (Chain.extend fin rest)[b]? = rest[b]?.or fin[b]? := by
  induction rest using OrdMap.newest_induction with
  | empty =>
    rw [Chain.extend, ExtTreeMap.toList_eq_nil_iff.mpr rfl]
    simp
  | newest rest n rows hn ih =>
    rw [Chain.extend_insert fin hn, ExtTreeMap.getElem?_insert, ExtTreeMap.getElem?_insert, ih]
    split <;> rfl

omit [SourceRow R] in
theorem Chain.extend_minus (h : Chain.Below fin A) : Chain.extend fin (A.minus fin) = A := by
  refine ExtTreeMap.ext_getElem? fun b => ?_
  rw [Chain.getElem?_extend, Chain.getElem?_minus]
  by_cases hb : b ∈ fin
  · obtain ⟨rows, hr⟩ := OrdMap.exists_getElem?_of_mem hb
    rw [if_pos hb, hr, h.sub b rows hr]
    rfl
  · have hnone : fin[b]? = none := by grind
    rw [if_neg hb, hnone, Option.or_none]

/-- Emptied groups leave memory: the window is as before. -/
theorem WindowRep.of_groups {m' : MVEngine} (h : WindowRep v sw m A fin)
    (hview : ∀ st, ViewRep v st m' (Chain.window sw A) ∅ ∅)
    (hframe : ∃ groups removed touched writes, m' = { m with
      groups := groups, removedGroups := removed, ingestTouched := touched
      windowWrites := writes }) :
    WindowRep v sw m' A fin := by
  obtain ⟨groups, removed, touched, writes, hframe⟩ := hframe
  refine ⟨h.below, h.timed, ?_, hview, ?_, ?_, ?_, ?_, ?_, ?_⟩ <;> rw [hframe]
  · exact h.reads
  · exact h.ok
  · exact h.times
  · exact h.watermark
  · exact h.unstored
  · exact h.stash
  · exact h.stashed

theorem WindowRep.replayBlock (h : WindowRep v sw m A fin) (hv : v.slidingWindow = some sw)
    (hw : sw.Fits) {b : BlockNumber} (hnew : ∀ b' ∈ A, b' < b) {rows : List R}
    (hn : Chain.Timed sw (A.insert b rows)) (st : MvReads) :
    WindowRep v sw (m.replayBlock v st b rows).1 (A.insert b rows) fin ∧
    (m.replayBlock v st b rows).1.windowWrites = m.windowWrites := by
  obtain ⟨m', t', heq, hrep, hwrites⟩ := h.applyBlock hv hw hnew hn st { existenceOnly := true }
  have hframe := MVEngine.dropEmptyGroups_frame t'.groups m'
  rw [MVEngine.replayBlock, heq]
  refine ⟨?_, ?_⟩
  · exact hrep.of_groups (fun st' => (hrep.view st').dropEmptyGroups _) ⟨_, _, _, _, hframe⟩
  · show (m'.dropEmptyGroups t'.groups).windowWrites = _
    rw [hframe]
    exact hwrites

/-- **Replaying the rest of the chain on the final chain gives the whole chain.** -/
theorem WindowRep.replay (h : WindowRep v sw m fin fin) (hv : v.slidingWindow = some sw)
    (hw : sw.Fits) (rest : Chain R) (hlt : ∀ b ∈ fin, ∀ b' ∈ rest, b < b')
    (hn : Chain.Timed sw (Chain.extend fin rest)) (st : MvReads) :
    WindowRep v sw (MVEngine.replay v st m rest) (Chain.extend fin rest) fin := by
  induction rest using OrdMap.newest_induction with
  | empty =>
    rw [MVEngine.replay, Chain.extend, ExtTreeMap.toList_eq_nil_iff.mpr rfl]
    exact h
  | newest rest b rows hb ih =>
    have hext := Chain.extend_insert fin hb rows
    have hnew : ∀ b' ∈ Chain.extend fin rest, b' < b := by
      intro b' hb'
      rw [ExtTreeMap.mem_iff_isSome_getElem?, Chain.getElem?_extend, Option.isSome_or,
        Bool.or_eq_true, ← ExtTreeMap.mem_iff_isSome_getElem?,
        ← ExtTreeMap.mem_iff_isSome_getElem?] at hb'
      rcases hb' with hb' | hb'
      · exact hb b' hb'
      · exact hlt b' hb' b (by simp)
    have hn' : Chain.Timed sw (Chain.extend fin rest) := (hext ▸ hn).of_insert hnew
    have hrep := ih (fun b₁ h₁ b₂ h₂ => hlt b₁ h₁ b₂ (by grind)) hn'
    rw [hext]
    have hfold : MVEngine.replay v st m (rest.insert b rows)
        = ((MVEngine.replay v st m rest).replayBlock v st b rows).1 := by
      rw [MVEngine.replay, OrdMap.toList_insert_of_lt hb, List.foldl_append]
      rfl
    rw [hfold]
    exact (hrep.replayBlock hv hw hnew (hext ▸ hn) st).1

end Settle
