import Settle.Engine.BlockTimes
import Settle.Engine.WindowBlocks

/-!
# The engine of a sliding view

`WindowRep` relates the engine of a sliding view to the chain `A` of its source: the
engine holds the window of `A`, and the stash of a block `e` of `A` that is not final
holds the blocks that `e` expired, each apart. `fin` are the blocks that were final when
finality last advanced.

Each operation keeps the relation: a new block (`WindowRep.applyBlock`), a rollback
(`WindowRep.rollback`), which brings back the blocks whose expiry it undoes, and an
advance of finality (`WindowRep.advanceFinality`), after which the stashes of the blocks
that became final are gone.
-/

namespace Settle

open Std

variable {R : Type} [SourceRow R] {v : MVShape} {sw : SlidingWindowDef}

/-! ## The cutoff -/

/-- The width fits an `i64`, in seconds. -/
def SlidingWindowDef.Fits (sw : SlidingWindowDef) : Prop := sw.intervalSeconds.toNat < 2 ^ 63

instance (sw : SlidingWindowDef) : Decidable sw.Fits := inferInstanceAs (Decidable (_ < _))

theorem SlidingWindowDef.Fits.windowCutoff_toInt (hw : sw.Fits) {wm : Int64} (h : 0 ≤ wm) :
    (MVEngine.windowCutoff sw wm).toInt
      = wm.toInt - min (2 ^ 63 - 1) (1000 * sw.intervalSeconds.toNat) := by
  unfold SlidingWindowDef.Fits at hw
  have hnonneg : 0 ≤ wm.toInt := Int64.le_iff_toInt_le.mp h
  have hlt : wm.toInt < 2 ^ 63 := wm.toInt_lt
  have hsec : sw.intervalSeconds.toInt64.toInt = sw.intervalSeconds.toNat := by
    have hnat : sw.intervalSeconds.toInt64 = Int64.ofNat sw.intervalSeconds.toNat := by
      rw [← UInt64.toInt64_ofNat', UInt64.ofNat_toNat]
    rw [hnat, Int64.toInt_ofNat_of_lt (by omega)]
  have hms : (MVEngine.i64SaturatingMul sw.intervalSeconds.toInt64 1000).toInt
      = min (2 ^ 63 - 1) (1000 * sw.intervalSeconds.toNat) := by
    have h1000 : (1000 : Int64).toInt = 1000 := by decide
    rw [MVEngine.i64SaturatingMul, hsec, h1000, Int64.toInt_ofInt_of_le (by omega) (by omega)]
    omega
  rw [MVEngine.windowCutoff, Int64.toInt_sub, hms]
  exact Int.bmod_eq_of_le (by omega) (by omega)

/-- The cutoff of the code is the edge of the window: it saturates only where no
time that fits back is outside. -/
theorem SlidingWindowDef.Fits.lt_windowCutoff_iff (hw : sw.Fits) {wm ts : Int64} (h : 0 ≤ wm)
    (hts : Chain.FitsBack sw ts) :
    ts < MVEngine.windowCutoff sw wm ↔ ¬ Chain.Inside sw wm ts := by
  have hfits : 0 ≤ ts.toInt ∨ -2 ^ 63 ≤ ts.toInt - 1000 * sw.intervalSeconds.toNat :=
    hts.imp_left Int64.le_iff_toInt_le.mp
  have hnonneg : 0 ≤ wm.toInt := Int64.le_iff_toInt_le.mp h
  have hlt : wm.toInt < 2 ^ 63 := wm.toInt_lt
  rw [Int64.lt_iff_toInt_lt, hw.windowCutoff_toInt h, Chain.Inside]
  omega

/-! ## The relation -/

/-- The engine `m` of a sliding view holds the window of the chain `A`, and the blocks that
left it in the stashes of the blocks that expired them and are not in `fin`. -/
structure WindowRep (v : MVShape) (sw : SlidingWindowDef) (m : MVEngine) (A fin : Chain R) :
    Prop where
  below : Chain.Below fin A
  timed : Chain.Timed sw A
  reads : m.readsStorage = false
  view : ∀ st, ViewRep v st m (Chain.window sw A) ∅ ∅
  ok : m.blockTimes.Ok
  times : m.blockTimes.byBlock = Chain.windowTimes sw A
  watermark : m.currentWatermark = Chain.watermark sw A
  unstored : ∀ b, b ∈ m.unstored ↔ b ∈ A ∧ b ∉ fin
  /-- the blocks of each stash, in block order -/
  stash : ∀ e : BlockNumber, (m.expired[e]?.getD []).map (fun x => (x.block, x.ts))
    = if e ∈ fin then [] else (Chain.expiredAt sw A e).toList
  stashed : ∀ (e : BlockNumber) x, x ∈ m.expired[e]?.getD [] →
    StashRep v x (A[x.block]?.getD [])

/-- The relation of a view that holds nothing. -/
theorem windowRep_empty (v : MVShape) (sw : SlidingWindowDef) :
    WindowRep v sw {} (∅ : Chain R) ∅ where
  below := ⟨by simp, by simp⟩
  timed := Chain.timed_empty
  reads := rfl
  view := by
    intro st
    have hw : Chain.window sw (∅ : Chain R) = ∅ := OrdMap.keep_empty _
    rw [hw]
    refine ⟨⟨by simp, by simp⟩, by simp, by simp, fun _ _ _ _ => rfl, by simp, ?_, ?_⟩
    · intro b key _ f _
      simp [MVShape.getElem?_data]
    · intro key found hl
      simp only [MVEngine.loadGroup, Bool.not_false, ↓reduceIte, Except.ok.injEq] at hl
      subst hl
      have hno : v.NoData key (∅ : Chain R) := fun f _ => OrdMap.mapEntries_empty _
      exact groupRep_fresh hno hno
  ok := BlockTimes.ok_empty
  times := (OrdMap.mapEntries_empty _).symm
  watermark := Chain.watermark_empty.symm
  unstored := by simp
  stash := by
    intro e
    rw [Chain.expiredAt_eq_empty (by simp)]
    simp
  stashed := by simp

section WindowRep

variable {m : MVEngine} {A fin : Chain R}

theorem WindowRep.mem_of_final (h : WindowRep v sw m A fin) {b : BlockNumber} (hb : b ∈ fin) :
    b ∈ A := by
  obtain ⟨rows, hr⟩ := OrdMap.exists_getElem?_of_mem hb
  exact OrdMap.mem_of_getElem?_eq (h.below.sub b rows hr)

/-- A block in a stash is one that the block of the stash expired. -/
theorem WindowRep.stash_expiredBy (h : WindowRep v sw m A fin) {e : BlockNumber} {x : ExpiredBlock}
    (hx : x ∈ m.expired[e]?.getD []) :
    e ∉ fin ∧ Chain.tsOf sw A x.block = some x.ts ∧ Chain.ExpiredBy sw A x.block e := by
  have hmem : (x.block, x.ts) ∈ (m.expired[e]?.getD []).map fun x => (x.block, x.ts) :=
    List.mem_map_of_mem hx
  rw [h.stash e] at hmem
  split at hmem
  · simp at hmem
  · next he =>
    rw [ExtTreeMap.mem_toList_iff_getElem?_eq_some, Chain.expiredAt_eq_some] at hmem
    exact ⟨he, hmem⟩

/-- A block that a block outside `fin` expired is in its stash. -/
theorem WindowRep.exists_stashed (h : WindowRep v sw m A fin) {b e : BlockNumber}
    (hb : Chain.ExpiredBy sw A b e) (he : e ∉ fin) :
    ∃ x ∈ m.expired[e]?.getD [], x.block = b := by
  obtain ⟨ts, hts, -⟩ := hb.outside
  have hmem : (b, ts) ∈ (m.expired[e]?.getD []).map fun x => (x.block, x.ts) := by
    rw [h.stash e, if_neg he, ExtTreeMap.mem_toList_iff_getElem?_eq_some,
      Chain.expiredAt_eq_some]
    exact ⟨hts, hb⟩
  obtain ⟨x, hx, heq⟩ := List.mem_map.mp hmem
  cases heq
  exact ⟨x, hx, rfl⟩

end WindowRep

/-! ## A new block -/

namespace MVEngine

variable {m : MVEngine} {st : MvReads}

/-- The rows of a block change the groups and the tracked blocks. -/
theorem applyRowsLoop_frame (b : BlockNumber) (rows : List R) (m : MVEngine) (t : Touched) :
    (applyRowsLoop v st b rows (m, t)).1.1
      = { m with
          groups := (applyRowsLoop v st b rows (m, t)).1.1.groups
          blockGroups := (applyRowsLoop v st b rows (m, t)).1.1.blockGroups } := by
  induction rows generalizing m t with
  | nil => rfl
  | cons row rest ih =>
    rw [applyRowsLoop]
    cases hrow : applyRow v st b row (m, t) with
    | error e => rfl
    | ok s =>
      obtain ⟨m', t'⟩ := s
      obtain ⟨found, _, rfl⟩ := applyRow_ok hrow
      dsimp only
      rw [ih (withRow v b row m found) t']
      rfl

end MVEngine

/-- The blocks that one block expires, one after the other. -/
theorem ViewRep.expireBlocks {st : MvReads} {m : MVEngine} {W : Chain R}
    (h : ViewRep v st m W ∅ ∅) {taken : List (BlockNumber × Int64)}
    (hnd : (taken.map Prod.fst).Nodup) (hmem : ∀ e ∈ taken, e.1 ∈ W) (expiredBy : BlockNumber)
    (t : Touched) :
    ∃ m' t' xs, taken.foldl (MVEngine.expireBlock v expiredBy) (m, t) = (m', t') ∧
      ViewRep v st m' (OrdMap.keep W fun b => !(taken.map Prod.fst).contains b) ∅ ∅ ∧
      m' = { m with
        groups := m'.groups, blockGroups := m'.blockGroups, expired := m'.expired } ∧
      (∀ e : BlockNumber, m'.expired[e]?.getD []
        = if e = expiredBy then m.expired[e]?.getD [] ++ xs else m.expired[e]?.getD []) ∧
      xs.map (fun x => (x.block, x.ts)) = taken ∧
      ∀ x ∈ xs, StashRep v x (W[x.block]?.getD []) := by
  induction taken generalizing m W t with
  | nil =>
    refine ⟨m, t, [], rfl, ?_, rfl, by simp, rfl, by simp⟩
    rw [OrdMap.keep_eq_self W (by simp)]
    exact h
  | cons e es ih =>
    obtain ⟨he, hes⟩ := List.nodup_cons.mp (List.map_cons ▸ hnd)
    obtain ⟨rows, hrows⟩ := OrdMap.exists_getElem?_of_mem (hmem e List.mem_cons_self)
    obtain ⟨m₁, t₁, x, heq, hrep, hm₁, hxb, hxt, hx⟩ := h.expireBlock hrows expiredBy e.2 t
    have hother : ∀ e' ∈ es, (W.erase e.1)[e'.1]? = W[e'.1]? := by
      intro e' he'
      have hne : e.1 ≠ e'.1 := fun heq => he (heq ▸ List.mem_map_of_mem he')
      simp [ExtTreeMap.getElem?_erase, hne]
    obtain ⟨m₂, t₂, xs, heq₂, hrep₂, hm₂, hexp, hlist, hxs⟩ := ih hrep hes (by
      intro e' he'
      have hw := hmem e' (List.mem_cons_of_mem _ he')
      rw [ExtTreeMap.mem_iff_isSome_getElem?] at hw ⊢
      rw [hother e' he']
      exact hw) t₁
    refine ⟨m₂, t₂, x :: xs, ?_, ?_, ?_, ?_, ?_, ?_⟩
    · rw [List.foldl_cons, heq]
      exact heq₂
    · convert hrep₂ using 1
      refine ExtTreeMap.ext_getElem? fun b => ?_
      rw [OrdMap.getElem?_keep, OrdMap.getElem?_keep, ExtTreeMap.getElem?_erase]
      by_cases hb : e.1 = b
      · simp [hb]
      · have hne : ¬ b = e.1 := Ne.symm hb
        simp [hb, hne]
    · rw [hm₂, hm₁]
    · intro e'
      rw [hexp e', hm₁]
      dsimp only
      rw [ExtTreeMap.getElem?_alter]
      by_cases hee : e' = expiredBy
      · subst hee
        simp
      · have hne : ¬ expiredBy = e' := Ne.symm hee
        simp [hee, hne]
    · rw [List.map_cons, hlist, hxb, hxt]
    · intro y hy
      rcases List.mem_cons.mp hy with rfl | hy
      · rw [hxb, hrows]
        exact hx
      · have hye : (y.block, y.ts) ∈ es := hlist ▸ List.mem_map_of_mem hy
        have := hxs y hy
        rwa [hother _ hye] at this

variable {m : MVEngine} {A fin : Chain R}

/-- **A new block** enters the window and moves the blocks that it expires to its stash. -/
theorem WindowRep.applyBlock (h : WindowRep v sw m A fin) (hv : v.slidingWindow = some sw)
    (hw : sw.Fits) {b : BlockNumber} (hnew : ∀ b' ∈ A, b' < b) {rows : List R}
    (hn : Chain.Timed sw (A.insert b rows)) (st : MvReads) (t : Touched) :
    ∃ m' t', MVEngine.applyBlock v st b rows (m, t) = ((m', t'), .ok ()) ∧
      WindowRep v sw m' (A.insert b rows) fin ∧
      m'.windowWrites = m.windowWrites := by
  have hbA : b ∉ A := fun hm => by
    have := hnew b hm
    grind
  have hbW : b ∉ Chain.window sw A := fun hm => hbA (by
    obtain ⟨ts, hts, -⟩ := Chain.mem_windowTimes.mp (Chain.mem_window.mp hm)
    exact Chain.mem_of_tsOf hts)
  have hbF : b ∉ fin := fun hm => hbA (h.mem_of_final hm)
  have hcontains : m.blockTimes.byBlock.contains b = false := by
    rw [h.times, ← Bool.not_eq_true, ExtTreeMap.contains_iff_mem, ← Chain.mem_window]
    exact hbW
  -- the state before the rows
  generalize hts : MVEngine.blockMaxTs sw (Chain.watermark sw A) rows = ts
  let m₁ : MVEngine := { m with
    blockTimes := m.blockTimes.insert b ts
    unstored := m.unstored.insert b
    currentWatermark := if m.currentWatermark < ts then ts else m.currentWatermark }
  have hwm : m₁.currentWatermark = Chain.watermark sw (A.insert b rows) := by
    rw [Chain.watermark_insert hnew, hts, ← h.watermark]
  have hok₁ : m₁.blockTimes.Ok := h.ok.insert b ts
  -- the rows of the block enter the window
  obtain ⟨hok, hreads, -⟩ := MVEngine.applyRowsLoop_ok (v := v) (m := m₁) h.reads b rows t
  have hview : ∀ st', ViewRep v st' (MVEngine.applyRowsLoop v st b rows (m₁, t)).1.1
      ((Chain.window sw A).insert b rows) ∅ ∅ := by
    intro st'
    have hstart : ViewRep v st m₁ (Chain.window sw A) ∅ ∅ := (h.view st).of_eq rfl rfl rfl
    obtain ⟨done, -, hall, hrep⟩ := ViewRep.applyRowsLoop (by simp) (by simp) rows t
      (hstart.insert_nil hbW (by simp))
    rw [hall hok, List.nil_append] at hrep
    exact hrep.change_reads hreads st'
  have hframe : (MVEngine.applyRowsLoop v st b rows (m₁, t)).1.1 = _ :=
    MVEngine.applyRowsLoop_frame b rows m₁ t
  generalize hm₂ : (MVEngine.applyRowsLoop v st b rows (m₁, t)).1.1 = m₂ at hview hframe hreads
  generalize ht₂ : (MVEngine.applyRowsLoop v st b rows (m₁, t)).1.2 = t₂
  have hwm₂ : m₂.currentWatermark = Chain.watermark sw (A.insert b rows) := by rw [hframe, hwm]
  have htimes₂ : m₂.blockTimes = m₁.blockTimes := by rw [hframe]
  -- what expires
  have hcut : ∀ (b' : BlockNumber) ts', ((Chain.windowTimes sw A).insert b ts)[b']? = some ts' →
      (ts' < MVEngine.windowCutoff sw m₂.currentWatermark ↔
        ¬ Chain.Inside sw (Chain.watermark sw (A.insert b rows)) ts') := by
    intro b' ts' hb'
    rw [hwm₂]
    refine hw.lt_windowCutoff_iff (Chain.watermark_nonneg _) ?_
    rw [ExtTreeMap.getElem?_insert] at hb'
    split at hb'
    · cases hb'
      rw [← hts]
      exact hn.blockMaxTs (b := b) (by simp) (Chain.watermark_nonneg _)
    · exact h.timed.tsOf (Chain.windowTimes_eq_some.mp hb').1
  have htaken : (m₂.blockTimes.takeOlderThan (MVEngine.windowCutoff sw m₂.currentWatermark)).1
      = (Chain.expiredAt sw (A.insert b rows) b).toList := by
    rw [BlockTimes.takeOlderThan_fst (htimes₂ ▸ hok₁), Chain.expiredAt_insert_self hnew, htimes₂, hts]
    show (OrdMap.mapEntries ((m.blockTimes.insert b ts).byBlock) _).toList = _
    rw [BlockTimes.byBlock_insert, h.times]
    congr 1
    refine ExtTreeMap.ext_getElem? fun b' => ?_
    rw [OrdMap.getElem?_mapEntries, OrdMap.getElem?_mapEntries]
    cases hb' : ((Chain.windowTimes sw A).insert b ts)[b']? with
    | none => rfl
    | some ts' =>
      have hiff := hcut b' ts' hb'
      by_cases hin : Chain.Inside sw (Chain.watermark sw (A.insert b rows)) ts' <;>
        simp [hiff, hin]
  have hW : ∀ e ∈ (Chain.expiredAt sw (A.insert b rows) b).toList,
      e.1 ∈ (Chain.window sw A).insert b rows := by
    intro e he
    rw [ExtTreeMap.mem_toList_iff_getElem?_eq_some, Chain.expiredAt_insert_self hnew,
      OrdMap.getElem?_mapEntries] at he
    obtain ⟨ts', hts', -⟩ := Option.bind_eq_some_iff.mp he
    rw [ExtTreeMap.mem_insert, Chain.mem_window]
    exact ExtTreeMap.mem_insert.mp (OrdMap.mem_of_getElem?_eq hts')
  have hWrows : ∀ b' ∈ (Chain.window sw A).insert b rows,
      ((Chain.window sw A).insert b rows)[b']? = (A.insert b rows)[b']? := by
    intro b' hb'
    rw [ExtTreeMap.getElem?_insert, ExtTreeMap.getElem?_insert, Chain.getElem?_window]
    rw [ExtTreeMap.mem_insert, Chain.mem_window] at hb'
    split
    · rfl
    · next hne => rw [if_pos (hb'.resolve_left hne)]
  have hview₃ : ViewRep v st
      { m₂ with
        blockTimes := (m₂.blockTimes.takeOlderThan
          (MVEngine.windowCutoff sw m₂.currentWatermark)).2 }
      ((Chain.window sw A).insert b rows) ∅ ∅ := (hview st).of_eq rfl rfl rfl
  obtain ⟨m', t', xs, heq, hrep, hm', hexp, hlist, hxs⟩ :=
    hview₃.expireBlocks (OrdMap.nodup_keys _) hW b t₂
  refine ⟨m', t', ?_, ?_, ?_⟩
  · rw [MVEngine.applyBlock, hv]
    dsimp only
    have hpair : MVEngine.applyRowsLoop v st b rows (m₁, t) = ((m₂, t₂), .ok ()) := by
      rw [← hm₂, ← ht₂, ← hok]
    have hm₁ : m₁ = { m with
        blockTimes := m.blockTimes.insert b (MVEngine.blockMaxTs sw m.currentWatermark rows)
        unstored := m.unstored.insert b
        currentWatermark := if m.currentWatermark < MVEngine.blockMaxTs sw m.currentWatermark rows
          then MVEngine.blockMaxTs sw m.currentWatermark rows else m.currentWatermark } := by
      rw [h.watermark, hts]
      simp only [m₁, h.watermark]
    rw [if_neg (by simp [hcontains]), ← hm₁, hpair]
    dsimp only
    rw [MVEngine.expireOldBlocks]
    dsimp only
    rw [htaken, heq]
  · have hreads' : m'.readsStorage = false := by rw [hm']; exact hreads
    refine ⟨?_, hn, hreads', ?_, ?_, ?_, ?_, ?_, ?_, ?_⟩
    · refine ⟨?_, ?_⟩
      · intro b' rows' hr
        have := h.below.sub b' rows' hr
        grind
      · intro b₁ h₁ b₂ h₂ hnf
        by_cases hbb : b = b₂
        · subst hbb
          exact hnew b₁ (h.mem_of_final h₁)
        · exact h.below.lt b₁ h₁ b₂ (by grind) hnf
    · intro st'
      rw [Chain.window_insert hnew]
      simp only [OrdMap.contains_map_fst_toList] at hrep
      exact hrep.change_reads hreads' st'
    · rw [hm']
      exact BlockTimes.Ok.takeOlderThan (htimes₂ ▸ hok₁) _
    · refine ExtTreeMap.ext_getElem? fun b' => ?_
      rw [hm', Chain.windowTimes_insert sw hnew, hts]
      show (m₂.blockTimes.takeOlderThan _).2.byBlock[b']? = _
      rw [BlockTimes.byBlock_takeOlderThan (htimes₂ ▸ hok₁), htimes₂]
      show ((m.blockTimes.insert b ts).byBlock[b']?).filter _ = _
      rw [BlockTimes.byBlock_insert, h.times]
      cases hb' : ((Chain.windowTimes sw A).insert b ts)[b']? with
      | none => rfl
      | some ts' =>
        have hiff := hcut b' ts' hb'
        by_cases hin : Chain.Inside sw (Chain.watermark sw (A.insert b rows)) ts' <;>
          simp [hiff, hin, Option.filter]
    · rw [hm']
      exact hwm₂
    · intro b'
      have hun : m'.unstored = m.unstored.insert b := by rw [hm', hframe]
      rw [hun, ExtTreeSet.mem_insert, h.unstored b', ExtTreeMap.mem_insert,
        Std.compare_eq_iff_eq]
      constructor
      · rintro (rfl | ⟨h₁, h₂⟩)
        · exact ⟨Or.inl rfl, hbF⟩
        · exact ⟨Or.inr h₁, h₂⟩
      · rintro ⟨rfl | h₁, h₂⟩
        · exact Or.inl rfl
        · exact Or.inr ⟨h₁, h₂⟩
    · intro e
      have hold : m₂.expired = m.expired := by rw [hframe]
      rw [hexp e]
      dsimp only
      rw [hold]
      by_cases heb : e = b
      · subst heb
        -- a block that is not on the chain yet has expired nothing
        have hnil := h.stash e
        rw [if_neg hbF, Chain.expiredAt_eq_empty hbA] at hnil
        rw [if_pos rfl, if_neg hbF, List.map_append, hnil, hlist]
        simp
      · rw [if_neg heb, Chain.expiredAt_insert_of_ne hnew heb]
        exact h.stash e
    · intro e x hx
      have hold : m₂.expired = m.expired := by rw [hframe]
      rw [hexp e] at hx
      dsimp only at hx
      rw [hold] at hx
      have hstashed : x ∈ m.expired[e]?.getD [] →
          StashRep v x ((A.insert b rows)[x.block]?.getD []) := by
        intro hx
        have hmem := Chain.mem_of_tsOf (h.stash_expiredBy hx).2.1
        have hne : b ≠ x.block := by rintro rfl; exact hbA hmem
        have := h.stashed e x hx
        simpa [ExtTreeMap.getElem?_insert, hne] using this
      split at hx
      · rcases List.mem_append.mp hx with hx | hx
        · exact hstashed hx
        · have hmem := hW (x.block, x.ts) (hlist ▸ List.mem_map_of_mem hx)
          rw [← hWrows x.block hmem]
          exact hxs x hx
      · exact hstashed hx
  · rw [hm', hframe]

/-! ## Rollback -/

/-- The expired blocks that a rollback to `p` brings back, one after the other. -/
theorem ViewRep.restoreExpired {st : MvReads} {m : MVEngine} {W B : Chain R} {p : BlockNumber}
    (h : ViewRep v st m W ∅ ∅) {xs : List ExpiredBlock} (hnd : (xs.map ExpiredBlock.block).Nodup)
    (hx : ∀ x ∈ xs, x.block ≤ p → x.block ∉ W ∧ ∃ rows, B[x.block]? = some rows ∧
      StashRep v x rows) (t : Touched) :
    ∃ m' t' W', xs.foldl (MVEngine.restoreExpiredBlock p) (m, t) = (m', t') ∧
      ViewRep v st m' W' ∅ ∅ ∧
      (∀ b : BlockNumber, W'[b]? = if b ∈ xs.map ExpiredBlock.block ∧ b ≤ p then B[b]? else W[b]?) ∧
      m' = { m with
        groups := m'.groups, blockGroups := m'.blockGroups, blockTimes := m'.blockTimes } ∧
      (m.blockTimes.Ok → m'.blockTimes.Ok) ∧
      (∀ x ∈ xs, x.block ≤ p → m'.blockTimes.byBlock[x.block]? = some x.ts) ∧
      ∀ b : BlockNumber, ¬ (b ∈ xs.map ExpiredBlock.block ∧ b ≤ p) →
        m'.blockTimes.byBlock[b]? = m.blockTimes.byBlock[b]? := by
  induction xs generalizing m W t with
  | nil => exact ⟨m, t, W, rfl, h, by simp, rfl, id, by simp, by simp⟩
  | cons x xs ih =>
    obtain ⟨hxs, hnd⟩ := List.nodup_cons.mp (List.map_cons ▸ hnd)
    rw [List.foldl_cons]
    by_cases hp : x.block ≤ p
    · obtain ⟨hxW, rows, hrows, hstash⟩ := hx x List.mem_cons_self hp
      obtain ⟨m₁, t₁, heq, hrep, hm₁⟩ := h.restoreExpiredBlock hstash hxW hp t
      obtain ⟨m', t', W', heq', hrep', hW', hm', hok, hin, hout⟩ := ih hrep hnd (by
        intro y hy hyp
        obtain ⟨hyW, hrest⟩ := hx y (List.mem_cons_of_mem _ hy) hyp
        have hne : x.block ≠ y.block := fun heq => hxs (heq ▸ List.mem_map_of_mem hy)
        exact ⟨by simp [ExtTreeMap.mem_insert, hne, hyW], hrest⟩) t₁
      have hbt : m₁.blockTimes = m.blockTimes.insert x.block x.ts := by rw [hm₁]
      refine ⟨m', t', W', by rw [heq, heq'], hrep', ?_, by rw [hm', hm₁], ?_, ?_, ?_⟩
      · intro b
        simp only [hW' b, List.map_cons, List.mem_cons, ExtTreeMap.getElem?_insert]
        by_cases hb : x.block = b
        · subst hb
          simp [hxs, hp, hrows]
        · have hne : ¬ b = x.block := Ne.symm hb
          simp [hb, hne]
      · intro hok₀
        exact hok (hbt ▸ hok₀.insert _ _)
      · intro y hy hyp
        rcases List.mem_cons.mp hy with rfl | hy
        · rw [hout y.block (fun hc => hxs hc.1), hbt, BlockTimes.byBlock_insert]
          simp
        · exact hin y hy hyp
      · intro b hb
        rw [List.map_cons, List.mem_cons] at hb
        rw [hout b (fun hc => hb ⟨Or.inr hc.1, hc.2⟩), hbt, BlockTimes.byBlock_insert,
          ExtTreeMap.getElem?_insert]
        have hne : x.block ≠ b := by
          rintro rfl
          exact hb ⟨Or.inl rfl, hp⟩
        simp [hne]
    · -- rolled back itself
      have hskip : MVEngine.restoreExpiredBlock p (m, t) x = (m, t) := by
        rw [MVEngine.restoreExpiredBlock, if_pos (by grind)]
      obtain ⟨m', t', W', heq', hrep', hW', hm', hok, hin, hout⟩ := ih h hnd
        (fun y hy => hx y (List.mem_cons_of_mem _ hy)) t
      have hiff : ∀ b : BlockNumber, (b ∈ (x :: xs).map ExpiredBlock.block ∧ b ≤ p) ↔
          (b ∈ xs.map ExpiredBlock.block ∧ b ≤ p) := by
        intro b
        rw [List.map_cons, List.mem_cons]
        constructor
        · rintro ⟨rfl | hb, hbp⟩
          · exact absurd hbp hp
          · exact ⟨hb, hbp⟩
        · rintro ⟨hb, hbp⟩
          exact ⟨Or.inr hb, hbp⟩
      refine ⟨m', t', W', by rw [hskip, heq'], hrep', ?_, hm', hok, ?_, ?_⟩
      · intro b
        rw [hW' b]
        simp only [hiff b]
      · intro y hy hyp
        rcases List.mem_cons.mp hy with rfl | hy
        · exact absurd hyp hp
        · exact hin y hy hyp
      · intro b hb
        exact hout b (fun hc => hb ((hiff b).mpr hc))

/-- The blocks in the stashes above `p`: each once, and none of them in the window. -/
theorem WindowRep.unexpired (h : WindowRep v sw m A fin) (p : BlockNumber) :
    (((OrdMap.keep m.expired (p < ·)).toList.flatMap Prod.snd).map ExpiredBlock.block).Nodup ∧
    ∀ x ∈ (OrdMap.keep m.expired (p < ·)).toList.flatMap Prod.snd,
      ∃ e, p < e ∧ x ∈ m.expired[e]?.getD [] := by
  have hmem : ∀ e xs, (e, xs) ∈ (OrdMap.keep m.expired (p < ·)).toList →
      p < e ∧ m.expired[e]?.getD [] = xs := by
    intro e xs he
    rw [ExtTreeMap.mem_toList_iff_getElem?_eq_some, OrdMap.getElem?_keep] at he
    split at he
    · next hpe => exact ⟨by simpa using hpe, by rw [he]; rfl⟩
    · cases he
  refine ⟨?_, ?_⟩
  · rw [List.map_flatMap, List.nodup_flatMap]
    refine ⟨?_, ?_⟩
    · rintro ⟨e, xs⟩ he
      obtain ⟨-, rfl⟩ := hmem e xs he
      have hnd : (((m.expired[e]?.getD []).map fun x => (x.block, x.ts)).map Prod.fst).Nodup := by
        rw [h.stash e]
        split
        · exact List.nodup_nil
        · exact OrdMap.nodup_keys _
      rwa [List.map_map] at hnd
    · refine (OrdMap.sorted_toList _).imp_of_mem ?_
      rintro ⟨e, xs⟩ ⟨e', xs'⟩ he he' hlt b hb hb'
      obtain ⟨-, rfl⟩ := hmem e xs he
      obtain ⟨-, rfl⟩ := hmem e' xs' he'
      -- a block has one expiring block
      obtain ⟨x, hx, rfl⟩ := List.mem_map.mp hb
      obtain ⟨x', hx', heq⟩ := List.mem_map.mp hb'
      have h₁ := (h.stash_expiredBy hx).2.2
      have h₂ := (h.stash_expiredBy hx').2.2
      rw [heq] at h₂
      have := h₁.unique h₂
      grind
  · intro x hx
    obtain ⟨⟨e, xs⟩, he, hx⟩ := List.mem_flatMap.mp hx
    obtain ⟨hpe, rfl⟩ := hmem e xs he
    exact ⟨e, hpe, hx⟩

/-- The largest time in the window is the watermark. -/
theorem WindowRep.maxTs {times : BlockTimes} (hok : times.Ok) (hn : Chain.Timed sw A)
    (ht : times.byBlock = Chain.windowTimes sw A) :
    times.maxTs.getD 0 = Chain.watermark sw A := by
  cases hmax : times.maxTs with
  | none =>
    have hempty := BlockTimes.maxTs_eq_none hok hmax
    by_cases hA : A = ∅
    · rw [hA]
      exact Chain.watermark_empty.symm
    · -- the block of the watermark is in the window
      obtain ⟨b, hb⟩ := Chain.exists_tsOf_eq_watermark hn hA
      have := Chain.windowTimes_eq_some.mpr ⟨hb, Chain.inside_self _⟩
      rw [← ht, hempty] at this
      simp at this
  | some ts =>
    obtain ⟨⟨b, hb⟩, hle⟩ := BlockTimes.maxTs_eq_some hok hmax
    rw [ht] at hb hle
    have htsb := (Chain.windowTimes_eq_some.mp hb).1
    obtain ⟨n, hn⟩ := Chain.exists_tsOf_eq_watermark hn (by
      rintro rfl
      simp [Chain.tsOf] at htsb)
    have hge := hle n _ (Chain.windowTimes_eq_some.mpr ⟨hn, Chain.inside_self _⟩)
    exact Int64.le_antisymm (Chain.tsOf_le_watermark htsb) hge

/-- The stashes above `p` hold the blocks that the blocks above `p` expired. -/
theorem WindowRep.mem_unexpired (h : WindowRep v sw m A fin) {p : BlockNumber}
    (hp : ∀ b ∈ fin, b ≤ p) (b : BlockNumber) :
    b ∈ ((OrdMap.keep m.expired (p < ·)).toList.flatMap Prod.snd).map ExpiredBlock.block ↔
      ∃ e, p < e ∧ Chain.ExpiredBy sw A b e := by
  constructor
  · intro hb
    obtain ⟨x, hx, rfl⟩ := List.mem_map.mp hb
    obtain ⟨e, hpe, hxe⟩ := (h.unexpired p).2 x hx
    exact ⟨e, hpe, (h.stash_expiredBy hxe).2.2⟩
  · rintro ⟨e, hpe, hby⟩
    obtain ⟨x, hx, rfl⟩ := h.exists_stashed hby (fun hf => by
      have := hp e hf
      grind)
    refine List.mem_map_of_mem (List.mem_flatMap.mpr ?_)
    cases hxs : m.expired[e]? with
    | none => simp [hxs] at hx
    | some xs =>
      refine ⟨(e, xs), ?_, by simpa [hxs] using hx⟩
      rw [ExtTreeMap.mem_toList_iff_getElem?_eq_some, OrdMap.getElem?_keep]
      simp [hpe, hxs]

/-- Restoring the stashes above `p` completes the window of the chain up to `p`. -/
theorem WindowRep.restoreExpired (h : WindowRep v sw m A fin) {p : BlockNumber}
    (hp : ∀ b ∈ fin, b ≤ p) {mB : MVEngine}
    (hview : ∀ st, ViewRep v st mB (OrdMap.keep (Chain.window sw A) (· ≤ p)) ∅ ∅)
    (hok : mB.blockTimes.Ok)
    (htimes : ∀ b : BlockNumber, mB.blockTimes.byBlock[b]?
      = if b ≤ p then (Chain.windowTimes sw A)[b]? else none) (t : Touched) :
    ∃ mC tC, MVEngine.restoreExpired (OrdMap.keep m.expired (p < ·)) p (mB, t) = (mC, tC) ∧
      (∀ st, ViewRep v st mC (Chain.window sw (A.upTo p)) ∅ ∅) ∧
      mC = { mB with
        groups := mC.groups, blockGroups := mC.blockGroups, blockTimes := mC.blockTimes } ∧
      mC.blockTimes.Ok ∧
      mC.blockTimes.byBlock = Chain.windowTimes sw (A.upTo p) := by
  obtain ⟨hxnd, hxmem⟩ := h.unexpired p
  have hback := h.mem_unexpired hp
  have hstash : ∀ x ∈ (OrdMap.keep m.expired (p < ·)).toList.flatMap Prod.snd,
      x.block ≤ p → x.block ∉ OrdMap.keep (Chain.window sw A) (· ≤ p) ∧
        ∃ rows, (A.upTo p)[x.block]? = some rows ∧ StashRep v x rows := by
    intro x hx hxp
    obtain ⟨e, hpe, hxe⟩ := hxmem x hx
    obtain ⟨-, hts, hby⟩ := h.stash_expiredBy hxe
    refine ⟨?_, ?_⟩
    · intro hin
      rw [OrdMap.mem_keep, Chain.mem_window] at hin
      exact hby.not_mem_windowTimes hin.1
    · obtain ⟨rows, hr⟩ := OrdMap.exists_getElem?_of_mem (Chain.mem_of_tsOf hts)
      have := h.stashed e x hxe
      rw [hr, Option.getD_some] at this
      exact ⟨rows, by rw [Chain.getElem?_upTo, if_pos hxp, hr], this⟩
  have hloop := fun st => (hview st).restoreExpired hxnd hstash t
  obtain ⟨mC, tC, W', heq, -, hW', hmC, hokC, hinC, houtC⟩ :=
    hloop ⟨.ok false, fun _ => .ok none, .ok []⟩
  have hWeq : W' = Chain.window sw (A.upTo p) := by
    refine ExtTreeMap.ext_getElem? fun b => ?_
    rw [hW' b, Chain.getElem?_window, Chain.getElem?_upTo]
    have hiff := Chain.mem_windowTimes_upTo sw A p b
    rw [← hback b] at hiff
    by_cases hbp : b ≤ p
    · by_cases hb : b ∈ ((OrdMap.keep m.expired (p < ·)).toList.flatMap Prod.snd).map
          ExpiredBlock.block
      · simp only [hb, hbp, and_self, ↓reduceIte, hiff.mpr ⟨hbp, Or.inr hb⟩]
      · rw [OrdMap.getElem?_keep, Chain.getElem?_window]
        simp only [hb, hbp, false_and, ↓reduceIte, decide_true, true_and, or_false] at hiff ⊢
        simp only [hiff]
    · have hnot : b ∉ Chain.windowTimes sw (A.upTo p) := fun hm => hbp (hiff.mp hm).1
      simp [hbp, hnot]
  refine ⟨mC, tC, heq, ?_, hmC, hokC hok, ?_⟩
  · intro st
    obtain ⟨m₂, t₂, W₂, heq₂, hrep₂, hW₂, -⟩ := hloop st
    rw [heq] at heq₂
    cases heq₂
    have : W₂ = W' := ExtTreeMap.ext_getElem? fun b => by rw [hW₂ b, hW' b]
    rw [← hWeq, ← this]
    exact hrep₂
  · refine ExtTreeMap.ext_getElem? fun b => ?_
    by_cases hb : b ∈ ((OrdMap.keep m.expired (p < ·)).toList.flatMap Prod.snd).map
        ExpiredBlock.block ∧ b ≤ p
    · obtain ⟨hbx, hbp⟩ := hb
      obtain ⟨x, hx, rfl⟩ := List.mem_map.mp hbx
      obtain ⟨e, hpe, hxe⟩ := hxmem x hx
      obtain ⟨-, hts, hby⟩ := h.stash_expiredBy hxe
      rw [hinC x hx hbp]
      symm
      rw [Chain.windowTimes_eq_some, Chain.tsOf_upTo, if_pos hbp]
      exact ⟨hts, hby.inside_upTo hbp hpe hts⟩
    · rw [houtC b hb, htimes b]
      by_cases hbp : b ≤ p
      · have hnot : ¬ ∃ e, p < e ∧ Chain.ExpiredBy sw A b e := fun hex =>
          hb ⟨(hback b).mpr hex, hbp⟩
        rw [if_pos hbp, Chain.windowTimes_upTo hbp hnot]
      · rw [if_neg hbp, Chain.getElem?_windowTimes, Chain.tsOf_upTo, if_neg hbp]
        rfl

/-- The parts of the relation that a rollback to `p` settles before it restores blocks. -/
theorem WindowRep.of_upTo (h : WindowRep v sw m A fin) {p : BlockNumber}
    (hp : ∀ b ∈ fin, b ≤ p) {m' : MVEngine}
    (hview : ∀ st, ViewRep v st m' (Chain.window sw (A.upTo p)) ∅ ∅) (hok : m'.blockTimes.Ok)
    (htimes : m'.blockTimes.byBlock = Chain.windowTimes sw (A.upTo p))
    (hwm : m'.currentWatermark = Chain.watermark sw (A.upTo p))
    (hreads : m'.readsStorage = m.readsStorage)
    (hunst : ∀ b, b ∈ m'.unstored ↔ b ∈ m.unstored ∧ b ≤ p)
    (hexp : ∀ e : BlockNumber, m'.expired[e]? = if e ≤ p then m.expired[e]? else none) :
    WindowRep v sw m' (A.upTo p) fin := by
  refine ⟨Chain.below_keep h.below hp, h.timed.upTo p, hreads.trans h.reads, hview, hok, htimes,
    hwm, ?_, ?_, ?_⟩
  · intro b
    rw [hunst b, h.unstored b, Chain.mem_upTo]
    constructor
    · rintro ⟨⟨h₁, h₂⟩, h₃⟩
      exact ⟨⟨h₁, h₃⟩, h₂⟩
    · rintro ⟨⟨h₁, h₂⟩, h₃⟩
      exact ⟨⟨h₁, h₃⟩, h₂⟩
  · intro e
    rw [hexp e]
    by_cases hep : e ≤ p
    · rw [if_pos hep, Chain.expiredAt_upTo A hep]
      exact h.stash e
    · rw [if_neg hep, Chain.expiredAt_eq_empty (by grind)]
      simp
  · intro e x hx
    rw [hexp e] at hx
    split at hx
    · next hep =>
      obtain ⟨-, hts, hby⟩ := h.stash_expiredBy hx
      have hle : x.block ≤ p := by
        have := hby.le
        grind
      rw [Chain.getElem?_upTo, if_pos hle]
      exact h.stashed e x hx
    · simp at hx

/-- **A rollback** drops the blocks above the fork point and brings back the blocks whose
expiry it undoes. -/
theorem WindowRep.rollback (h : WindowRep v sw m A fin) (hv : v.slidingWindow = some sw)
    {p : BlockNumber} (hp : ∀ b ∈ fin, b ≤ p) :
    WindowRep v sw (MVEngine.rollback v m p).1 (A.upTo p) fin ∧
    (MVEngine.rollback v m p).1.windowWrites = m.windowWrites := by
  unfold MVEngine.rollback
  split
  · next hmax =>
    have hall : A.upTo p = A := Chain.upTo_eq_self (by
      intro b _
      rw [hmax, BlockNumber.max]
      grind)
    rw [hall]
    exact ⟨h, rfl⟩
  · next hmax =>
    have hlt : ∀ b : BlockNumber, (b < p + 1) ↔ b ≤ p := fun b => BlockNumber.lt_succ_iff hmax
    have hle : ∀ b : BlockNumber, (p + 1 ≤ b) ↔ p < b := by
      intro b
      have := hlt b
      grind
    have hunst : ∀ b, b ∈ m.unstored.filter (· < p + 1) ↔ b ∈ m.unstored ∧ b ≤ p := by
      intro b
      rw [ExtTreeSet.mem_filter]
      simp [hlt]
    have hexp : ∀ e : BlockNumber, (OrdMap.keep m.expired (· < p + 1))[e]?
        = if e ≤ p then m.expired[e]? else none := by
      intro e
      rw [OrdMap.getElem?_keep]
      simp [hlt]
    have hunexp : OrdMap.keep m.expired (p + 1 ≤ ·) = OrdMap.keep m.expired (p < ·) := by
      ext e xs
      simp [hle]
    have hbg : OrdMap.keep m.blockGroups (· < p + 1) = OrdMap.keep m.blockGroups (· ≤ p) := by
      ext b ks
      simp [hlt]
    have hok := h.ok.splitOff (p + 1)
    have htimes : ∀ b : BlockNumber, (m.blockTimes.splitOff (p + 1)).2.byBlock[b]?
        = if b ≤ p then (Chain.windowTimes sw A)[b]? else none := by
      intro b
      rw [BlockTimes.byBlock_splitOff, OrdMap.getElem?_keep, h.times]
      simp [hlt]
    have hrolled : ∀ key, (∃ (b : BlockNumber), p < b ∧ key ∈ m.blockGroups[b]?.getD ∅) →
        key ∈ (OrdMap.keep m.blockGroups (p + 1 ≤ ·)).toList.flatMap
          fun (e : BlockNumber × FxHashSet GroupKey) => e.2.toList := by
      rintro key ⟨b, hb, hk⟩
      exact MVEngine.mem_rolledBack ((hle b).mpr hb) hk
    dsimp only
    split
    · next hempty =>
      -- nothing is above `p`: no block is left in the window or in a stash there
      simp only [Bool.and_eq_true, ExtTreeMap.isEmpty_iff] at hempty
      obtain ⟨⟨hrb, hue⟩, hrt⟩ := hempty
      have hall : ∀ b ∈ A, b ≤ p := by
        intro b hb
        by_contra hbp
        by_cases hin : b ∈ Chain.windowTimes sw A
        · have hmem : b ∈ (m.blockTimes.splitOff (p + 1)).1 := by
            rw [BlockTimes.splitOff_fst, h.times, OrdMap.mem_keep]
            exact ⟨hin, by simp [hle]; grind⟩
          rw [hrt] at hmem
          simp at hmem
        · obtain ⟨e, he⟩ := Chain.exists_expiredBy hb hin
          have hpe : p < e := by
            have := he.le
            grind
          obtain ⟨x, hx, -⟩ := h.exists_stashed he (fun hf => by
            have := hp e hf
            grind)
          have hnone : (OrdMap.keep m.expired (p + 1 ≤ ·))[e]? = none := by rw [hue]; simp
          rw [OrdMap.getElem?_keep] at hnone
          simp only [hle, hpe, decide_true, ↓reduceIte] at hnone
          simp [hnone] at hx
      have hupTo : A.upTo p = A := Chain.upTo_eq_self hall
      refine ⟨h.of_upTo hp ?_ hok ?_ ?_ rfl hunst hexp, rfl⟩
      · intro st
        have hkeep : OrdMap.keep (Chain.window sw A) (· ≤ p) = Chain.window sw A := by
          refine OrdMap.keep_eq_self _ ?_
          intro b hb
          obtain ⟨ts, hts, -⟩ := Chain.mem_windowTimes.mp (Chain.mem_window.mp hb)
          simpa using hall b (Chain.mem_of_tsOf hts)
        rw [hupTo, ← hkeep]
        refine (h.view st).dropAbove (by simp) List.nodup_nil ?_ rfl hbg rfl
        intro key hk
        have := hrolled key hk
        simp [hrb] at this
      · refine ExtTreeMap.ext_getElem? fun b => ?_
        rw [htimes b, hupTo]
        split
        · rfl
        · next hbp =>
          symm
          rw [Chain.getElem?_windowTimes, Chain.tsOf_eq_none (fun hb => hbp (hall b hb))]
          rfl
      · rw [hupTo]
        exact h.watermark
    · rw [if_pos (by simp [hv])]
      let mA : MVEngine := { m with
        blockGroups := OrdMap.keep m.blockGroups (· < p + 1)
        expired := OrdMap.keep m.expired (· < p + 1)
        blockTimes := (m.blockTimes.splitOff (p + 1)).2
        unstored := m.unstored.filter (· < p + 1) }
      obtain ⟨hnd, hmem⟩ := MVEngine.foldl_snapshot_keys mA
        ((OrdMap.keep m.blockGroups (p + 1 ≤ ·)).toList.flatMap
          fun (e : BlockNumber × FxHashSet GroupKey) => e.2.toList) {} List.nodup_nil
      generalize htouched : ((OrdMap.keep m.blockGroups (p + 1 ≤ ·)).toList.flatMap
          fun (e : BlockNumber × FxHashSet GroupKey) => e.2.toList).foldl
            (MVEngine.snapshot mA) {} = touched at hnd hmem
      let mB : MVEngine := { mA with
        groups := MVEngine.removeBlocksAfter p (touched.groups.map Prod.fst) m.groups }
      -- what is left without the blocks above `p`
      have hviewB : ∀ st, ViewRep v st mB (OrdMap.keep (Chain.window sw A) (· ≤ p)) ∅ ∅ := by
        intro st
        refine (h.view st).dropAbove (by simp) hnd ?_ rfl hbg rfl
        intro key hk
        exact (hmem key).mpr (Or.inl (hrolled key hk))
      obtain ⟨mC, tC, heq, hrep, hmC, hokC, htimesC⟩ :=
        h.restoreExpired hp hviewB hok htimes touched
      have hwmC := WindowRep.maxTs hokC (h.timed.upTo p) htimesC
      have hreadsC : mC.readsStorage = false := by rw [hmC]; exact h.reads
      have hrestore : MVEngine.restoreExpired (OrdMap.keep m.expired (p + 1 ≤ ·)) p (mB, touched)
          = (mC, tC) := by
        rw [hunexp]
        exact heq
      rw [← htouched] at hrestore
      simp only [mB, mA, htouched] at hrestore
      simp only [hrestore]
      refine ⟨?_, by rw [MVEngine.emitChanges_frame, hmC]⟩
      refine h.of_upTo hp ?_ ?_ ?_ ?_ ?_ ?_ ?_
      · intro st
        have hrepC : ViewRep v ⟨.ok false, fun _ => .ok none, .ok []⟩
            { mC with currentWatermark := mC.blockTimes.maxTs.getD 0 } _ ∅ ∅ :=
          (hrep ⟨.ok false, fun _ => .ok none, .ok []⟩).of_eq rfl rfl rfl
        exact (hrepC.change_reads hreadsC st).emitChanges _
      · rw [MVEngine.emitChanges_frame]
        exact hokC
      · rw [MVEngine.emitChanges_frame]
        exact htimesC
      · rw [MVEngine.emitChanges_frame]
        exact hwmC
      · rw [MVEngine.emitChanges_frame, hmC]
      · rw [MVEngine.emitChanges_frame, hmC]
        exact hunst
      · rw [MVEngine.emitChanges_frame, hmC]
        exact hexp

end Settle
