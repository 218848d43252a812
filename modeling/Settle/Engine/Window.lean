import Settle.Engine.ViewFold

/-!
# The window of a chain

What a sliding window is for, as a function of the chain alone. The *time* of a block is
the largest timestamp of its rows, or the watermark before it when no row has one; the
*watermark* is the largest time so far. A block is *inside* the window while its time is
at most the width below the watermark, and the block that first moves the watermark past
that *expires* it.

Timestamps need not grow with the blocks, but the watermark does (`watermark_upTo_le`), so
a block that has left the window stays outside of it.
-/

namespace Settle

open Std

namespace Chain

variable {R : Type} [SourceRow R] (sw : SlidingWindowDef)

/-- The blocks below `b`. -/
def before (A : Chain R) (b : BlockNumber) : Chain R := OrdMap.keep A (· < b)

/-- The blocks at or below `b`. -/
def upTo (A : Chain R) (b : BlockNumber) : Chain R := OrdMap.keep A (· ≤ b)

/-- The largest time of the blocks, which is 0 before the first. -/
def watermark (A : Chain R) : Int64 :=
  A.toList.foldl
    (fun wm e => if wm < MVEngine.blockMaxTs sw wm e.2 then MVEngine.blockMaxTs sw wm e.2 else wm) 0

/-- The time of a block. -/
def tsOf (A : Chain R) (b : BlockNumber) : Option Int64 :=
  A[b]?.map (MVEngine.blockMaxTs sw (watermark sw (A.before b)))

/-- A block of time `ts` is in the window when the watermark is `wm`. -/
def Inside (wm ts : Int64) : Prop := wm.toInt - 1000 * sw.intervalSeconds.toNat ≤ ts.toInt

instance (wm ts : Int64) : Decidable (Inside sw wm ts) := inferInstanceAs (Decidable (_ ≤ _))

/-- The times of the blocks in the window. -/
def windowTimes (A : Chain R) : BTreeMap BlockNumber Int64 :=
  OrdMap.mapEntries A fun b _ => (tsOf sw A b).filter fun ts => Inside sw (watermark sw A) ts

/-- **The window**: the blocks whose time is inside. -/
def window (A : Chain R) : Chain R := OrdMap.keep A fun b => (windowTimes sw A).contains b

/-- `e` is the first block from `b` up whose watermark leaves `b` outside. -/
structure ExpiredBy (A : Chain R) (b e : BlockNumber) : Prop where
  mem : e ∈ A
  le : b ≤ e
  outside : ∃ ts, tsOf sw A b = some ts ∧ ¬ Inside sw (watermark sw (A.upTo e)) ts
  first : ∀ e' ∈ A, b ≤ e' → e' < e →
    ∀ ts, tsOf sw A b = some ts → Inside sw (watermark sw (A.upTo e')) ts

/-- The largest timestamp of the rows. -/
def maxTime (rows : List R) : Option Int64 :=
  (rows.filterMap fun r => (SourceRow.column r sw.timeColumn).asI64).max?

/-- A time that is negative reaches back the width of the window without overflow. -/
def FitsBack (ts : Int64) : Prop := 0 ≤ ts ∨ -2 ^ 63 ≤ ts.toInt - 1000 * sw.intervalSeconds.toNat

/-- The times of a chain on which the watermark is a time of a block: the first block has no
negative one. -/
structure Timed (A : Chain R) : Prop where
  first : ∀ (b : BlockNumber) rows, A[b]? = some rows → (∀ b' ∈ A, b ≤ b') →
    ∀ ts, maxTime sw rows = some ts → 0 ≤ ts
  fits : ∀ (b : BlockNumber) rows, A[b]? = some rows →
    ∀ ts, maxTime sw rows = some ts → FitsBack sw ts

variable {sw} {A : Chain R}

/-! ## Parts of a chain -/

omit [SourceRow R] in
@[grind =]
theorem getElem?_before (A : Chain R) (b b' : BlockNumber) :
    (A.before b)[b']? = if b' < b then A[b']? else none := by
  simp [before]

omit [SourceRow R] in
@[grind =]
theorem getElem?_upTo (A : Chain R) (b b' : BlockNumber) :
    (A.upTo b)[b']? = if b' ≤ b then A[b']? else none := by
  simp [upTo]

omit [SourceRow R] in
@[grind =]
theorem mem_before (A : Chain R) (b b' : BlockNumber) : b' ∈ A.before b ↔ b' ∈ A ∧ b' < b := by
  simp [before]

omit [SourceRow R] in
@[grind =]
theorem mem_upTo (A : Chain R) (b b' : BlockNumber) : b' ∈ A.upTo b ↔ b' ∈ A ∧ b' ≤ b := by
  simp [upTo]

omit [SourceRow R] in
theorem before_upTo (A : Chain R) {b p : BlockNumber} (h : b ≤ p) :
    (A.upTo p).before b = A.before b := by
  ext b' rows
  grind

omit [SourceRow R] in
theorem before_insert {b : BlockNumber} (h : ∀ b' ∈ A, b' < b) (rows : List R) :
    before (A.insert b rows) b = A := by
  ext b' rows'
  have := h b'
  grind

omit [SourceRow R] in
theorem before_insert_of_lt {b b' : BlockNumber} (h : b' < b) (rows : List R) :
    before (A.insert b rows) b' = A.before b' := by
  ext b'' rows'
  grind

omit [SourceRow R] in
theorem upTo_eq_self {p : BlockNumber} (h : ∀ b ∈ A, b ≤ p) : A.upTo p = A := by
  refine OrdMap.keep_eq_self A ?_
  intro b hb
  simpa using h b hb

omit [SourceRow R] in
theorem upTo_insert_self {b : BlockNumber} (h : ∀ b' ∈ A, b' < b) (rows : List R) :
    upTo (A.insert b rows) b = A.insert b rows := by
  refine upTo_eq_self ?_
  intro b' hb'
  have := h b'
  grind

omit [SourceRow R] in
theorem upTo_insert_of_lt {b p : BlockNumber} (h : p < b) (rows : List R) :
    upTo (A.insert b rows) p = A.upTo p := by
  ext b' rows'
  grind

/-! ## Times -/

theorem blockMaxTs_eq (wm : Int64) (rows : List R) :
    MVEngine.blockMaxTs sw wm rows = (maxTime sw rows).getD wm := rfl

@[simp] theorem watermark_empty : watermark sw (∅ : Chain R) = 0 := by
  rw [watermark, ExtTreeMap.toList_eq_nil_iff.mpr rfl]
  rfl

/-- A new block moves the watermark up to its time. -/
theorem watermark_insert {b : BlockNumber} (h : ∀ b' ∈ A, b' < b) (rows : List R) :
    watermark sw (A.insert b rows)
      = if watermark sw A < MVEngine.blockMaxTs sw (watermark sw A) rows
        then MVEngine.blockMaxTs sw (watermark sw A) rows else watermark sw A := by
  rw [watermark, OrdMap.toList_insert_of_lt h, List.foldl_append]
  rfl

theorem tsOf_insert_self {b : BlockNumber} (h : ∀ b' ∈ A, b' < b) (rows : List R) :
    tsOf sw (A.insert b rows) b = some (MVEngine.blockMaxTs sw (watermark sw A) rows) := by
  rw [tsOf, before_insert h]
  simp

theorem tsOf_insert_of_lt {b b' : BlockNumber} (h : b' < b) (rows : List R) :
    tsOf sw (A.insert b rows) b' = tsOf sw A b' := by
  rw [tsOf, tsOf, before_insert_of_lt h, ExtTreeMap.getElem?_insert]
  have : ¬ b = b' := by grind
  simp [this]

theorem tsOf_upTo (A : Chain R) (p b : BlockNumber) :
    tsOf sw (A.upTo p) b = if b ≤ p then tsOf sw A b else none := by
  rw [tsOf, tsOf, getElem?_upTo]
  by_cases h : b ≤ p
  · simp [h, before_upTo A h]
  · simp [h]

theorem tsOf_eq_none {b : BlockNumber} (h : b ∉ A) : tsOf sw A b = none := by
  rw [tsOf, Option.map_eq_none_iff]
  grind

theorem mem_of_tsOf {b : BlockNumber} {ts : Int64} (h : tsOf sw A b = some ts) : b ∈ A := by
  obtain ⟨rows, hr, -⟩ := Option.map_eq_some_iff.mp h
  exact OrdMap.mem_of_getElem?_eq hr

variable (sw) in
theorem exists_tsOf {b : BlockNumber} (h : b ∈ A) : ∃ ts, tsOf sw A b = some ts := by
  obtain ⟨rows, hr⟩ := OrdMap.exists_getElem?_of_mem h
  exact ⟨_, by rw [tsOf, hr]; rfl⟩

theorem watermark_nonneg (A : Chain R) : 0 ≤ watermark sw A := by
  induction A using OrdMap.newest_induction with
  | empty => simp
  | newest A b rows hb ih =>
    rw [watermark_insert hb]
    split
    · next hlt => exact Int64.le_of_lt (Int64.lt_of_le_of_lt ih hlt)
    · exact ih

theorem watermark_le_insert {b : BlockNumber} (h : ∀ b' ∈ A, b' < b) (rows : List R) :
    watermark sw A ≤ watermark sw (A.insert b rows) := by
  rw [watermark_insert h]
  split
  · next hlt => exact Int64.le_of_lt hlt
  · exact Int64.le_refl _

/-- The watermark never goes back. -/
theorem watermark_upTo_le (A : Chain R) (p : BlockNumber) :
    watermark sw (A.upTo p) ≤ watermark sw A := by
  induction A using OrdMap.newest_induction with
  | empty => rw [upTo, OrdMap.keep_empty]; exact Int64.le_refl _
  | newest A b rows hb ih =>
    by_cases hbp : b ≤ p
    · have hall : ∀ b' ∈ A.insert b rows, b' ≤ p := by
        intro b' hb'
        have := hb b'
        grind
      rw [upTo_eq_self hall]
      exact Int64.le_refl _
    · rw [upTo_insert_of_lt (by grind)]
      exact Int64.le_trans ih (watermark_le_insert hb rows)

/-- The watermark is at or above every time … -/
theorem tsOf_le_watermark {b : BlockNumber} {ts : Int64} (h : tsOf sw A b = some ts) :
    ts ≤ watermark sw A := by
  induction A using OrdMap.newest_induction with
  | empty => simp [tsOf] at h
  | newest A b' rows hb ih =>
    by_cases hbb : b = b'
    · subst hbb
      rw [tsOf_insert_self hb, Option.some.injEq] at h
      rw [watermark_insert hb, h]
      split
      · exact Int64.le_refl _
      · next hlt => exact Int64.not_lt.mp hlt
    · have hlt : b < b' := by
        have hm := mem_of_tsOf h
        have := hb b
        grind
      rw [tsOf_insert_of_lt hlt] at h
      exact Int64.le_trans (ih h) (watermark_le_insert hb rows)

theorem timed_empty : Timed sw (∅ : Chain R) where
  first := by intro b rows hr; simp at hr
  fits := by intro b rows hr; simp at hr

theorem Timed.of_insert {b : BlockNumber} {rows : List R} (h : ∀ b' ∈ A, b' < b)
    (hn : Timed sw (A.insert b rows)) : Timed sw A := by
  have hmem : ∀ (b' : BlockNumber) rows', A[b']? = some rows' →
      (A.insert b rows)[b']? = some rows' := by
    intro b' rows' hr
    have := h b' (OrdMap.mem_of_getElem?_eq hr)
    grind
  refine ⟨?_, fun b' rows' hr => hn.fits b' rows' (hmem b' rows' hr)⟩
  intro b' rows' hr hmin
  refine hn.first b' rows' (hmem b' rows' hr) ?_
  intro b'' hb''
  have hlt := h b' (OrdMap.mem_of_getElem?_eq hr)
  have := hmin b''
  grind

/-- A new block keeps the times, if it has no negative one or is not the first. -/
theorem Timed.insert {b : BlockNumber} {rows : List R} (hn : Timed sw A) (h : ∀ b' ∈ A, b' < b)
    (hfirst : A = ∅ → ∀ ts, maxTime sw rows = some ts → 0 ≤ ts)
    (hfits : ∀ ts, maxTime sw rows = some ts → FitsBack sw ts) : Timed sw (A.insert b rows) := by
  constructor
  · intro b' rows' hr hmin
    rw [ExtTreeMap.getElem?_insert] at hr
    split at hr
    · next heq =>
      -- the newest block is the oldest one too
      cases hr
      rw [Std.compare_eq_iff_eq] at heq
      refine hfirst ?_
      rw [ExtTreeMap.eq_empty_iff_forall_not_mem]
      intro b'' hb''
      have h₁ := h b'' hb''
      have h₂ := hmin b'' (by grind)
      grind
    · exact hn.first b' rows' hr (fun b'' hb'' => hmin b'' (by grind))
  · intro b' rows' hr
    rw [ExtTreeMap.getElem?_insert] at hr
    split at hr
    · cases hr
      exact hfits
    · exact hn.fits b' rows' hr

theorem Timed.upTo (h : Timed sw A) (p : BlockNumber) : Timed sw (A.upTo p) := by
  refine ⟨?_, fun b rows hr => h.fits b rows (by grind)⟩
  intro b rows hr hmin
  refine h.first b rows (by grind) ?_
  intro b' hb'
  have := hmin b'
  grind

theorem Timed.before (h : Timed sw A) (p : BlockNumber) : Timed sw (A.before p) := by
  refine ⟨?_, fun b rows hr => h.fits b rows (by grind)⟩
  intro b rows hr hmin
  refine h.first b rows (by grind) ?_
  intro b' hb'
  have := hmin b'
  grind

theorem Timed.blockMaxTs (h : Timed sw A) {b : BlockNumber} {rows : List R}
    (hr : A[b]? = some rows) {wm : Int64} (hwm : 0 ≤ wm) :
    FitsBack sw (MVEngine.blockMaxTs sw wm rows) := by
  rw [blockMaxTs_eq]
  cases hm : maxTime sw rows with
  | none => exact Or.inl hwm
  | some ts => exact h.fits b rows hr ts hm

theorem Timed.tsOf (h : Timed sw A) {b : BlockNumber} {ts : Int64}
    (hts : tsOf sw A b = some ts) : FitsBack sw ts := by
  obtain ⟨rows, hr, rfl⟩ := Option.map_eq_some_iff.mp hts
  exact h.blockMaxTs hr (watermark_nonneg _)

/-- … and, if the first time is not negative, it is one of them. -/
theorem exists_tsOf_eq_watermark (h : Timed sw A) (hne : A ≠ ∅) :
    ∃ b, tsOf sw A b = some (watermark sw A) := by
  induction A using OrdMap.newest_induction with
  | empty => exact absurd rfl hne
  | newest A b rows hb ih =>
    by_cases hlt : watermark sw A < MVEngine.blockMaxTs sw (watermark sw A) rows
    · exact ⟨b, by rw [tsOf_insert_self hb, watermark_insert hb, if_pos hlt]⟩
    · rw [watermark_insert hb, if_neg hlt]
      by_cases hA : A = ∅
      · -- the first block: its time is not negative and not positive
        refine ⟨b, ?_⟩
        rw [tsOf_insert_self hb, Option.some.injEq]
        subst hA
        have hge : 0 ≤ MVEngine.blockMaxTs sw (watermark sw (∅ : Chain R)) rows := by
          rw [blockMaxTs_eq]
          cases hm : maxTime sw rows with
          | none => exact watermark_nonneg _
          | some ts => exact h.first b rows (by simp) (by simp) ts hm
        rw [watermark_empty] at hlt hge ⊢
        exact Int64.le_antisymm (Int64.not_lt.mp hlt) hge
      · obtain ⟨b', hb'⟩ := ih (h.of_insert hb) hA
        exact ⟨b', by rw [tsOf_insert_of_lt (hb b' (mem_of_tsOf hb'))]; exact hb'⟩

/-! ## The window -/

theorem Inside.of_le {wm wm' ts : Int64} (h : Inside sw wm' ts) (hle : wm ≤ wm') :
    Inside sw wm ts := by
  have : wm.toInt ≤ wm'.toInt := Int64.le_iff_toInt_le.mp hle
  unfold Inside at *
  omega

theorem inside_self (wm : Int64) : Inside sw wm wm := by
  unfold Inside
  omega

@[grind =]
theorem getElem?_windowTimes (A : Chain R) (b : BlockNumber) :
    (windowTimes sw A)[b]?
      = (tsOf sw A b).filter fun ts => Inside sw (watermark sw A) ts := by
  rw [windowTimes, OrdMap.getElem?_mapEntries]
  cases hb : A[b]? with
  | none => rw [tsOf, hb]; rfl
  | some rows => rfl

theorem windowTimes_eq_some {b : BlockNumber} {ts : Int64} :
    (windowTimes sw A)[b]? = some ts ↔
      tsOf sw A b = some ts ∧ Inside sw (watermark sw A) ts := by
  rw [getElem?_windowTimes, Option.filter_eq_some_iff]
  simp

theorem mem_windowTimes {b : BlockNumber} :
    b ∈ windowTimes sw A ↔ ∃ ts, tsOf sw A b = some ts ∧ Inside sw (watermark sw A) ts := by
  constructor
  · intro h
    obtain ⟨ts, hts⟩ := OrdMap.exists_getElem?_of_mem h
    exact ⟨ts, windowTimes_eq_some.mp hts⟩
  · rintro ⟨ts, hts⟩
    exact OrdMap.mem_of_getElem?_eq (windowTimes_eq_some.mpr hts)

theorem getElem?_window (A : Chain R) (b : BlockNumber) :
    (window sw A)[b]? = if b ∈ windowTimes sw A then A[b]? else none := by
  rw [window, OrdMap.getElem?_keep]
  simp

theorem mem_window {b : BlockNumber} : b ∈ window sw A ↔ b ∈ windowTimes sw A := by
  rw [window, OrdMap.mem_keep]
  constructor
  · intro h
    simpa using h.2
  · intro h
    obtain ⟨ts, hts, -⟩ := mem_windowTimes.mp h
    exact ⟨mem_of_tsOf hts, by simpa using h⟩

/-- A block of the chain is in the window, or some block expired it. -/
theorem exists_expiredBy {b : BlockNumber} (hb : b ∈ A) (hout : b ∉ windowTimes sw A) :
    ∃ e, ExpiredBy sw A b e := by
  induction A using OrdMap.newest_induction with
  | empty => simp at hb
  | newest A n rows hn ih =>
    by_cases hbn : b = n
    · -- it expired on arrival
      subst hbn
      refine ⟨b, hb, UInt64.le_refl _, ?_, ?_⟩
      · rw [upTo_insert_self hn]
        obtain ⟨ts, hts⟩ := exists_tsOf sw hb
        exact ⟨ts, hts, fun hin => hout (mem_windowTimes.mpr ⟨ts, hts, hin⟩)⟩
      · intro e' _ hle hlt
        grind
    · have hbA : b ∈ A := by grind
      have hlt := hn b hbA
      have hts : tsOf sw (A.insert n rows) b = tsOf sw A b := tsOf_insert_of_lt hlt rows
      have hup : ∀ e' ∈ A, upTo (A.insert n rows) e' = upTo A e' :=
        fun e' he' => upTo_insert_of_lt (hn e' he') rows
      by_cases hin : b ∈ windowTimes sw A
      · -- the new block expires it
        obtain ⟨ts, hts', hinside⟩ := mem_windowTimes.mp hin
        refine ⟨n, by simp, UInt64.le_of_lt hlt, ?_, ?_⟩
        · rw [upTo_insert_self hn, hts]
          refine ⟨ts, hts', fun hi => hout (mem_windowTimes.mpr ⟨ts, hts.trans hts', hi⟩)⟩
        · intro e' he' _ hlt' ts₂ hts₂
          have heA : e' ∈ A := by grind
          rw [hts, hts', Option.some.injEq] at hts₂
          subst hts₂
          rw [hup e' heA]
          exact hinside.of_le (watermark_upTo_le A e')
      · obtain ⟨e, he⟩ := ih hbA hin
        refine ⟨e, by have := he.mem; grind, he.le, ?_, ?_⟩
        · rw [hup e he.mem, hts]
          exact he.outside
        · intro e' he' hle hlt'
          have heA : e' ∈ A := by
            have := hn e he.mem
            grind
          rw [hup e' heA, hts]
          exact he.first e' heA hle hlt'

/-! ## What a block expires -/

variable (sw) in
/-- The blocks that `e` expires, with their times: those in the window before it, and
itself, that its watermark leaves outside. -/
def expiredAt (A : Chain R) (e : BlockNumber) : BTreeMap BlockNumber Int64 :=
  match tsOf sw A e with
  | none => ∅
  | some ts =>
    OrdMap.mapEntries ((windowTimes sw (A.before e)).insert e ts) fun _ ts =>
      if Inside sw (watermark sw (A.upTo e)) ts then none else some ts

theorem expiredAt_eq_empty {e : BlockNumber} (h : e ∉ A) : expiredAt sw A e = ∅ := by
  rw [expiredAt, tsOf_eq_none h]

theorem expiredAt_insert_of_ne {b e : BlockNumber} (h : ∀ b' ∈ A, b' < b) (hne : e ≠ b)
    (rows : List R) : expiredAt sw (A.insert b rows) e = expiredAt sw A e := by
  by_cases he : e ∈ A
  · have hlt := h e he
    rw [expiredAt, expiredAt, tsOf_insert_of_lt hlt, before_insert_of_lt hlt,
      upTo_insert_of_lt hlt]
  · rw [expiredAt_eq_empty he, expiredAt_eq_empty (by grind)]

theorem expiredAt_insert_self {b : BlockNumber} (h : ∀ b' ∈ A, b' < b) (rows : List R) :
    expiredAt sw (A.insert b rows) b
      = OrdMap.mapEntries ((windowTimes sw A).insert b
          (MVEngine.blockMaxTs sw (watermark sw A) rows)) fun _ ts =>
          if Inside sw (watermark sw (A.insert b rows)) ts then none else some ts := by
  rw [expiredAt, tsOf_insert_self h, before_insert h, upTo_insert_self h]

omit [SourceRow R] in
theorem upTo_upTo (A : Chain R) {e p : BlockNumber} (h : e ≤ p) : (A.upTo p).upTo e = A.upTo e := by
  ext b rows
  grind

theorem expiredAt_upTo (A : Chain R) {e p : BlockNumber} (h : e ≤ p) :
    expiredAt sw (A.upTo p) e = expiredAt sw A e := by
  rw [expiredAt, expiredAt, tsOf_upTo, if_pos h, before_upTo A h, upTo_upTo A h]

theorem tsOf_before (A : Chain R) (p b : BlockNumber) :
    tsOf sw (A.before p) b = if b < p then tsOf sw A b else none := by
  rw [tsOf, tsOf, getElem?_before]
  by_cases h : b < p
  · have : (A.before p).before b = A.before b := by
      ext b' rows
      grind
    simp [h, this]
  · simp [h]

omit [SourceRow R] in
/-- A chain that is not empty has a newest block. -/
theorem exists_newest (hne : A ≠ ∅) : ∃ n ∈ A, ∀ b ∈ A, b ≤ n := by
  induction A using OrdMap.newest_induction with
  | empty => exact absurd rfl hne
  | newest A n rows hn _ =>
    refine ⟨n, by simp, ?_⟩
    intro b hb
    have := hn b
    grind

namespace ExpiredBy

variable {b e : BlockNumber} {ts : Int64}

/-- Until the block that expires it, a block is inside. -/
theorem inside_before (h : ExpiredBy sw A b e) (hlt : b < e) (hts : tsOf sw A b = some ts) :
    Inside sw (watermark sw (A.before e)) ts := by
  have hmem := mem_of_tsOf hts
  obtain ⟨n, hn, hmax⟩ := exists_newest (A := A.before e) (by
    intro hempty
    have : b ∈ A.before e := by grind
    simp [hempty] at this)
  have heq : A.before e = A.upTo n := by
    ext b' rows
    have := hmax b'
    grind
  rw [heq]
  have hbn := hmax b (by grind)
  exact h.first n (by grind) hbn (by grind) ts hts

theorem inside_upTo (h : ExpiredBy sw A b e) {p : BlockNumber} (hbp : b ≤ p) (hpe : p < e)
    (hts : tsOf sw A b = some ts) : Inside sw (watermark sw (A.upTo p)) ts := by
  have hle : watermark sw (A.upTo p) ≤ watermark sw (A.before e) := by
    have heq : A.upTo p = (A.before e).upTo p := by
      ext b' rows
      grind
    rw [heq]
    exact watermark_upTo_le _ p
  exact (h.inside_before (by grind) hts).of_le hle

/-- From then on it is outside. -/
theorem not_inside_upTo (h : ExpiredBy sw A b e) {p : BlockNumber} (hep : e ≤ p)
    (hts : tsOf sw A b = some ts) : ¬ Inside sw (watermark sw (A.upTo p)) ts := by
  obtain ⟨ts', hts', hout⟩ := h.outside
  rw [hts, Option.some.injEq] at hts'
  subst hts'
  intro hin
  refine hout (hin.of_le ?_)
  rw [← upTo_upTo A hep]
  exact watermark_upTo_le _ e

theorem not_mem_windowTimes (h : ExpiredBy sw A b e) : b ∉ windowTimes sw A := by
  obtain ⟨ts, hts, hout⟩ := h.outside
  intro hm
  obtain ⟨ts', hts', hin⟩ := mem_windowTimes.mp hm
  rw [hts, Option.some.injEq] at hts'
  subst hts'
  exact hout (hin.of_le (watermark_upTo_le A e))

/-- A block that expires another does so on the whole chain. -/
theorem of_upTo {p : BlockNumber} (h : ExpiredBy sw (A.upTo p) b e) : ExpiredBy sw A b e := by
  have hep : e ∈ A ∧ e ≤ p := by
    have := h.mem
    grind
  have hbp : b ≤ p := by
    have := h.le
    grind
  have hts : tsOf sw (A.upTo p) b = tsOf sw A b := by rw [tsOf_upTo, if_pos hbp]
  refine ⟨hep.1, h.le, ?_, ?_⟩
  · rw [← hts, ← upTo_upTo A hep.2]
    exact h.outside
  · intro e' he' hle hlt
    have hep' : e' ≤ p := by grind
    rw [← hts, ← upTo_upTo A hep']
    exact h.first e' (by grind) hle hlt

/-- **One block expires a block.** -/
theorem unique {e' : BlockNumber} (h : ExpiredBy sw A b e) (h' : ExpiredBy sw A b e') : e = e' := by
  obtain ⟨ts, hts, hout⟩ := h.outside
  obtain ⟨ts', hts', hout'⟩ := h'.outside
  by_contra hne
  have hlt : e < e' ∨ e' < e := by grind
  rcases hlt with hlt | hlt
  · exact hout (h'.first e h.mem h.le hlt ts hts)
  · exact hout' (h.first e' h'.mem h'.le hlt ts' hts')

end ExpiredBy

/-- **What `e` expires are the blocks that it is the first to leave outside.** -/
theorem expiredAt_eq_some {b e : BlockNumber} {ts : Int64} :
    (expiredAt sw A e)[b]? = some ts ↔ tsOf sw A b = some ts ∧ ExpiredBy sw A b e := by
  rw [expiredAt]
  cases he : tsOf sw A e with
  | none =>
    simp only [ExtTreeMap.getElem?_empty, reduceCtorEq, false_iff, not_and]
    rintro - hex
    obtain ⟨ts', hts'⟩ := exists_tsOf sw hex.mem
    rw [he] at hts'
    cases hts'
  | some tsE =>
    have hmem := mem_of_tsOf he
    rw [OrdMap.getElem?_mapEntries, ExtTreeMap.getElem?_insert]
    by_cases hbe : e = b
    · subst hbe
      simp only [compare_self, ↓reduceIte, Option.bind_some, he, Option.some.injEq]
      constructor
      · intro hif
        split at hif
        · cases hif
        · next hout =>
          cases hif
          refine ⟨rfl, hmem, UInt64.le_refl _, ⟨_, he, hout⟩, ?_⟩
          intro e' _ hle hlt
          grind
      · rintro ⟨rfl, hex⟩
        rw [if_neg (hex.not_inside_upTo (UInt64.le_refl _) he)]
    · simp only [Std.compare_eq_iff_eq, hbe, ↓reduceIte, Option.bind_eq_some_iff]
      constructor
      · rintro ⟨ts', hts', hif⟩
        split at hif
        · cases hif
        · next hout =>
          cases hif
          obtain ⟨htsb, hin⟩ := windowTimes_eq_some.mp hts'
          rw [tsOf_before] at htsb
          split at htsb
          · next hlt =>
            refine ⟨htsb, hmem, UInt64.le_of_lt hlt, ⟨_, htsb, hout⟩, ?_⟩
            intro e' he' hle hlt' ts₂ hts₂
            rw [htsb, Option.some.injEq] at hts₂
            subst hts₂
            refine hin.of_le ?_
            have heq : A.upTo e' = (A.before e).upTo e' := by
              ext b' rows
              grind
            rw [heq]
            exact watermark_upTo_le _ e'
          · cases htsb
      · rintro ⟨hts, hex⟩
        have hlt : b < e := by
          have := hex.le
          grind
        refine ⟨ts, windowTimes_eq_some.mpr ⟨?_, hex.inside_before hlt hts⟩, ?_⟩
        · rw [tsOf_before, if_pos hlt]
          exact hts
        · rw [if_neg (hex.not_inside_upTo (UInt64.le_refl _) hts)]

variable (sw) in
/-- A new block leaves in the window what its watermark does not leave outside. -/
theorem windowTimes_insert {b : BlockNumber} (h : ∀ b' ∈ A, b' < b) (rows : List R)
    (b' : BlockNumber) :
    (windowTimes sw (A.insert b rows))[b']?
      = (((windowTimes sw A).insert b (MVEngine.blockMaxTs sw (watermark sw A) rows))[b']?).filter
          fun ts => Inside sw (watermark sw (A.insert b rows)) ts := by
  rw [getElem?_windowTimes, ExtTreeMap.getElem?_insert]
  by_cases hbb : b = b'
  · subst hbb
    simp only [compare_self, ↓reduceIte, tsOf_insert_self h]
  · simp only [Std.compare_eq_iff_eq, hbb, ↓reduceIte, getElem?_windowTimes]
    by_cases hb' : b' ∈ A
    · rw [tsOf_insert_of_lt (h b' hb')]
      cases tsOf sw A b' with
      | none => rfl
      | some ts =>
        simp only [Option.filter]
        by_cases hin : Inside sw (watermark sw (A.insert b rows)) ts
        · have := hin.of_le (watermark_le_insert h rows)
          simp [this]
        · by_cases hin' : Inside sw (watermark sw A) ts <;> simp [hin, hin']
    · rw [tsOf_eq_none hb', tsOf_eq_none (by grind)]
      rfl

/-- A new block adds itself to the window and takes out the blocks that it expires. -/
theorem window_insert {b : BlockNumber} (h : ∀ b' ∈ A, b' < b) (rows : List R) :
    window sw (A.insert b rows)
      = OrdMap.keep ((window sw A).insert b rows)
          fun b' => !(expiredAt sw (A.insert b rows) b).contains b' := by
  refine ExtTreeMap.ext_getElem? fun b' => ?_
  have htimes := windowTimes_insert sw h rows b'
  have hexp : (expiredAt sw (A.insert b rows) b)[b']?
      = (((windowTimes sw A).insert b (MVEngine.blockMaxTs sw (watermark sw A) rows))[b']?).bind
        fun ts => if Inside sw (watermark sw (A.insert b rows)) ts then none else some ts := by
    rw [expiredAt_insert_self h, OrdMap.getElem?_mapEntries]
  simp only [getElem?_window, OrdMap.getElem?_keep, ExtTreeMap.getElem?_insert,
    ExtTreeMap.contains_eq_isSome_getElem?, ExtTreeMap.mem_iff_isSome_getElem?, hexp, htimes]
  by_cases hbb : b = b'
  · subst hbb
    by_cases hin : Inside sw (watermark sw (A.insert b rows))
        (MVEngine.blockMaxTs sw (watermark sw A) rows) <;> simp [hin, Option.filter]
  · simp only [Std.compare_eq_iff_eq, hbb, ↓reduceIte]
    cases hts : (windowTimes sw A)[b']? with
    | none => simp [Option.filter]
    | some ts =>
      by_cases hin : Inside sw (watermark sw (A.insert b rows)) ts <;> simp [hin, Option.filter]

variable (sw) in
/-- Taking blocks off the chain brings back those that they expired. -/
theorem mem_windowTimes_upTo (A : Chain R) (p b : BlockNumber) :
    b ∈ windowTimes sw (A.upTo p) ↔
      b ≤ p ∧ (b ∈ windowTimes sw A ∨ ∃ e, p < e ∧ ExpiredBy sw A b e) := by
  rw [mem_windowTimes, tsOf_upTo]
  constructor
  · rintro ⟨ts, hts, hin⟩
    split at hts
    · next hbp =>
      refine ⟨hbp, ?_⟩
      by_cases hmem : b ∈ windowTimes sw A
      · exact Or.inl hmem
      · obtain ⟨e, he⟩ := exists_expiredBy (mem_of_tsOf hts) hmem
        refine Or.inr ⟨e, ?_, he⟩
        by_contra hnot
        exact he.not_inside_upTo (by grind) hts hin
    · cases hts
  · rintro ⟨hbp, hmem | ⟨e, hpe, he⟩⟩
    · obtain ⟨ts, hts, hin⟩ := mem_windowTimes.mp hmem
      exact ⟨ts, by rw [if_pos hbp]; exact hts, hin.of_le (watermark_upTo_le A p)⟩
    · obtain ⟨ts, hts, -⟩ := he.outside
      exact ⟨ts, by rw [if_pos hbp]; exact hts, he.inside_upTo hbp hpe hts⟩

/-- A time of the chain up to `p`, when no block above `p` expired the block, is a time of
the whole chain. -/
theorem windowTimes_upTo {b p : BlockNumber} (hbp : b ≤ p)
    (hnot : ¬ ∃ e, p < e ∧ ExpiredBy sw A b e) :
    (windowTimes sw (A.upTo p))[b]? = (windowTimes sw A)[b]? := by
  have hiff := mem_windowTimes_upTo sw A p b
  simp only [hbp, hnot, or_false, true_and] at hiff
  have hts : tsOf sw (A.upTo p) b = tsOf sw A b := by
    rw [tsOf_upTo, if_pos hbp]
  by_cases hmem : b ∈ windowTimes sw A
  · obtain ⟨ts, hts₁, hin₁⟩ := mem_windowTimes.mp hmem
    obtain ⟨ts', hts₂, hin₂⟩ := mem_windowTimes.mp (hiff.mpr hmem)
    have : ts' = ts := by
      rw [hts, hts₁, Option.some.injEq] at hts₂
      exact hts₂.symm
    subst this
    rw [windowTimes_eq_some.mpr ⟨hts₂, hin₂⟩, windowTimes_eq_some.mpr ⟨hts₁, hin₁⟩]
  · have hmem' := mt hiff.mp hmem
    rw [ExtTreeMap.mem_iff_isSome_getElem?, Option.not_isSome_iff_eq_none] at hmem hmem'
    rw [hmem, hmem']

end Chain

end Settle
