import Settle.Engine.View

/-!
# The times of a window's blocks

`BlockTimes` keeps the blocks of a window by block and by timestamp. `BlockTimes.Ok` says
that the two indexes agree; every operation keeps them so, and is then an operation on
the map from blocks to timestamps.
-/

namespace Settle

open Std

namespace BlockTimes

/-- The two indexes hold the same blocks with the same times. -/
def Ok (t : BlockTimes) : Prop := ∀ e : TsBlock, e ∈ t.byTs ↔ t.byBlock[e.block]? = some e.ts

variable {t : BlockTimes}

theorem ok_empty : ({} : BlockTimes).Ok := by
  intro e
  simp

@[simp] theorem byBlock_insert (t : BlockTimes) (block : BlockNumber) (ts : Int64) :
    (t.insert block ts).byBlock = t.byBlock.insert block ts := rfl

theorem Ok.insert (h : t.Ok) (block : BlockNumber) (ts : Int64) : (t.insert block ts).Ok := by
  intro e
  have he := h e
  have hold : ∀ old, t.byBlock[block]? = some old → (⟨old, block⟩ : TsBlock) ∈ t.byTs :=
    fun old ho => (h ⟨old, block⟩).mpr ho
  obtain ⟨ts', b'⟩ := e
  rw [BlockTimes.insert, ExtTreeMap.getElem?_insert, ExtTreeSet.mem_insert]
  simp only [Std.compare_eq_iff_eq, TsBlock.mk.injEq] at he ⊢
  by_cases hb : block = b'
  · subst hb
    cases ho : t.byBlock[block]? with
    | none =>
      rw [ho] at he
      simp only [and_true, ↓reduceIte, Option.some.injEq]
      simp only [reduceCtorEq, iff_false] at he
      simp [he]
    | some old =>
      rw [ho] at he
      simp only [and_true, ↓reduceIte, Option.some.injEq, ExtTreeSet.mem_erase,
        Std.compare_eq_iff_eq, TsBlock.mk.injEq, ne_eq] at he ⊢
      rw [he]
      constructor
      · rintro (h | ⟨h₁, h₂⟩)
        · exact h
        · exact absurd h₂ h₁
      · exact Or.inl
  · simp only [hb, and_false, ↓reduceIte, false_or]
    rw [← he]
    split
    · simp [ExtTreeSet.mem_erase, hb]
    · rfl

private theorem mem_foldl_erase {α : Type} [Ord α] [TransOrd α] [LawfulEqOrd α] (l : List α)
    (s : ExtTreeSet α compare) (a : α) :
    a ∈ l.foldl (fun s e => s.erase e) s ↔ a ∈ s ∧ a ∉ l := by
  induction l generalizing s with
  | nil => simp
  | cons x xs ih =>
    rw [List.foldl_cons, ih, ExtTreeSet.mem_erase]
    simp only [ne_eq, Std.compare_eq_iff_eq, List.mem_cons, not_or]
    constructor
    · rintro ⟨⟨h₁, h₂⟩, h₃⟩
      exact ⟨h₂, Ne.symm h₁, h₃⟩
    · rintro ⟨h₁, h₂, h₃⟩
      exact ⟨⟨Ne.symm h₂, h₁⟩, h₃⟩

@[simp] theorem splitOff_fst (t : BlockTimes) (block : BlockNumber) :
    (t.splitOff block).1 = OrdMap.keep t.byBlock (block ≤ ·) := rfl

@[simp] theorem byBlock_splitOff (t : BlockTimes) (block : BlockNumber) :
    (t.splitOff block).2.byBlock = OrdMap.keep t.byBlock (· < block) := rfl

theorem Ok.splitOff (h : t.Ok) (block : BlockNumber) : (t.splitOff block).2.Ok := by
  intro e
  have hfold : ∀ (l : List (BlockNumber × Int64)) (s : ExtTreeSet TsBlock),
      l.foldl (fun s (e : BlockNumber × Int64) => s.erase ⟨e.2, e.1⟩) s
        = (l.map fun e => (⟨e.2, e.1⟩ : TsBlock)).foldl (fun s e => s.erase e) s := by
    intro l s
    rw [List.foldl_map]
  have hmem : e ∈ (t.splitOff block).2.byTs ↔ e ∈ t.byTs ∧
      e ∉ ((OrdMap.keep t.byBlock (block ≤ ·)).toList.map fun e => (⟨e.2, e.1⟩ : TsBlock)) := by
    rw [← mem_foldl_erase, ← hfold]
    rfl
  rw [hmem, h e, byBlock_splitOff, OrdMap.getElem?_keep]
  have hin : e ∈ ((OrdMap.keep t.byBlock (block ≤ ·)).toList.map fun e => (⟨e.2, e.1⟩ : TsBlock))
      ↔ block ≤ e.block ∧ t.byBlock[e.block]? = some e.ts := by
    simp only [List.mem_map, Prod.exists, ExtTreeMap.mem_toList_iff_getElem?_eq_some,
      OrdMap.getElem?_keep, decide_eq_true_eq]
    constructor
    · rintro ⟨b, ts, hb, rfl⟩
      split at hb
      · next hle => exact ⟨hle, hb⟩
      · cases hb
    · rintro ⟨hle, hb⟩
      exact ⟨e.block, e.ts, by simp [hle, hb], rfl⟩
  rw [hin]
  by_cases hlt : e.block < block
  · have : ¬ block ≤ e.block := by grind
    simp [hlt, this]
  · have : block ≤ e.block := by grind
    simp only [this, true_and, hlt, decide_false, Bool.false_eq_true, ↓reduceIte, reduceCtorEq,
      iff_false]
    rintro ⟨h₁, h₂⟩
    exact h₂ h₁

/-! ## Expiry -/

/-- On a list where what fails the test is only followed by what fails it, the leading run
is all that passes. -/
private theorem takeWhile_eq_filter {α : Type} {p : α → Bool} {l : List α}
    (h : l.Pairwise fun a b => p b → p a) : l.takeWhile p = l.filter p := by
  induction l with
  | nil => rfl
  | cons a l ih =>
    obtain ⟨ha, hl⟩ := List.pairwise_cons.mp h
    by_cases hp : p a
    · rw [List.takeWhile_cons_of_pos hp, List.filter_cons_of_pos hp, ih hl]
    · rw [List.takeWhile_cons_of_neg hp, List.filter_cons_of_neg hp, eq_comm,
        List.filter_eq_nil_iff]
      exact fun b hb hpb => hp (ha b hb hpb)

/-- The blocks by timestamp stand in the order of their timestamps. -/
theorem byTs_sorted (t : BlockTimes) : t.byTs.toList.Pairwise fun a b => a.ts ≤ b.ts := by
  refine ExtTreeSet.ordered_toList.imp ?_
  intro a b hab
  have hab : compareLex (compareOn TsBlock.ts) (compareOn TsBlock.block) a b = .lt := hab
  have hts : compare a.ts b.ts ≠ .gt := by
    intro hgt
    simp [compareLex, compareOn, hgt] at hab
  cases hc : compare a.ts b.ts with
  | lt => exact Int64.le_of_lt (Std.compare_eq_lt.mp hc)
  | eq => rw [LawfulEqCmp.eq_of_compare hc]; exact Int64.le_refl _
  | gt => exact absurd hc hts

private theorem mem_taken (h : t.Ok) (cutoff : Int64) (e : TsBlock) :
    e ∈ t.byTs.toList.takeWhile (fun e => e.ts < cutoff)
      ↔ t.byBlock[e.block]? = some e.ts ∧ e.ts < cutoff := by
  rw [takeWhile_eq_filter (t.byTs_sorted.imp fun hab hb => by
    simp only [decide_eq_true_eq] at hb ⊢
    exact Int64.lt_of_le_of_lt hab hb), List.mem_filter, ExtTreeSet.mem_toList, h e]
  simp

/-- The blocks older than `cutoff`, in block order. -/
theorem takeOlderThan_fst (h : t.Ok) (cutoff : Int64) :
    (t.takeOlderThan cutoff).1
      = (OrdMap.mapEntries t.byBlock fun _ ts => if ts < cutoff then some ts else none).toList := by
  symm
  have hperm := List.mergeSort_perm
    ((t.byTs.toList.takeWhile fun e => e.ts < cutoff).map fun e => (e.block, e.ts))
    (fun a b => decide (a.1 ≤ b.1))
  have hmem : ∀ b ts, (b, ts) ∈ (t.takeOlderThan cutoff).1 ↔
      t.byBlock[b]? = some ts ∧ ts < cutoff := by
    intro b ts
    rw [takeOlderThan, hperm.mem_iff, List.mem_map]
    constructor
    · rintro ⟨e, he, heq⟩
      cases heq
      exact (mem_taken h cutoff e).mp he
    · intro hb
      exact ⟨⟨ts, b⟩, (mem_taken h cutoff ⟨ts, b⟩).mpr hb, rfl⟩
  refine OrdMap.toList_eq_of_sorted ?_ ?_
  · have hsorted : (t.takeOlderThan cutoff).1.Pairwise fun a b => a.1 ≤ b.1 := by
      have := List.pairwise_mergeSort
        (fun (a b c : BlockNumber × Int64) (hab : decide (a.1 ≤ b.1) = true)
          (hbc : decide (b.1 ≤ c.1) = true) => show decide (a.1 ≤ c.1) = true by
          simp only [decide_eq_true_eq] at hab hbc ⊢
          exact UInt64.le_trans hab hbc)
        (fun a b => by
          simp only [Bool.or_eq_true, decide_eq_true_eq]
          exact UInt64.le_total a.1 b.1)
        ((t.byTs.toList.takeWhile fun e => e.ts < cutoff).map fun e => (e.block, e.ts))
      exact this.imp fun h => by simpa using h
    have hnodup : (t.takeOlderThan cutoff).1.Nodup := by
      refine hperm.nodup_iff.mpr ?_
      refine List.Nodup.map ?_ ((OrdMap.nodup_toList t.byTs).sublist (List.takeWhile_sublist _))
      rintro ⟨ts, b⟩ ⟨ts', b'⟩ heq
      cases heq
      rfl
    -- equal blocks have equal times, so distinct entries have distinct blocks
    refine (hsorted.and hnodup).imp_of_mem ?_
    rintro ⟨b, ts⟩ ⟨b', ts'⟩ hm hm' ⟨hle, hne⟩
    refine UInt64.lt_of_le_of_ne hle ?_
    rintro (heq : b = b')
    subst heq
    have h₁ := ((hmem b ts).mp hm).1
    have h₂ := ((hmem b ts').mp hm').1
    rw [h₁] at h₂
    cases h₂
    exact hne rfl
  · intro b ts
    rw [hmem, OrdMap.getElem?_mapEntries]
    constructor
    · rintro ⟨hb, hlt⟩
      simp [hb, hlt]
    · intro hb
      obtain ⟨ts', hts', hif⟩ := Option.bind_eq_some_iff.mp hb
      split at hif
      · next hlt => cases hif; exact ⟨hts', hlt⟩
      · cases hif

private theorem getElem?_foldl_erase (l : List TsBlock) (m : BTreeMap BlockNumber Int64)
    (b : BlockNumber) : (l.foldl (fun m e => m.erase e.block) m)[b]?
      = if ∃ e ∈ l, e.block = b then none else m[b]? := by
  induction l generalizing m with
  | nil => simp
  | cons x xs ih =>
    rw [List.foldl_cons, ih, ExtTreeMap.getElem?_erase]
    by_cases hx : x.block = b
    · by_cases hxs : ∃ e ∈ xs, e.block = b <;> simp [hx, hxs]
    · by_cases hxs : ∃ e ∈ xs, e.block = b <;> simp [hx, hxs]

/-- The blocks that stay are those at or above the cutoff. -/
theorem byBlock_takeOlderThan (h : t.Ok) (cutoff : Int64) (b : BlockNumber) :
    (t.takeOlderThan cutoff).2.byBlock[b]?
      = t.byBlock[b]?.filter fun ts => !(ts < cutoff) := by
  rw [takeOlderThan, getElem?_foldl_erase]
  cases hb : t.byBlock[b]? with
  | none => simp
  | some ts =>
    have hex : (∃ e ∈ t.byTs.toList.takeWhile (fun e => e.ts < cutoff), e.block = b)
        ↔ ts < cutoff := by
      constructor
      · rintro ⟨e, he, rfl⟩
        obtain ⟨h₁, h₂⟩ := (mem_taken h cutoff e).mp he
        rw [hb] at h₁
        cases h₁
        exact h₂
      · intro hlt
        exact ⟨⟨ts, b⟩, (mem_taken h cutoff ⟨ts, b⟩).mpr ⟨hb, hlt⟩, rfl⟩
    simp only [hex]
    by_cases hlt : ts < cutoff <;> simp [hlt, Option.filter]

theorem Ok.takeOlderThan (h : t.Ok) (cutoff : Int64) : (t.takeOlderThan cutoff).2.Ok := by
  intro e
  have hmem : e ∈ (t.takeOlderThan cutoff).2.byTs
      ↔ e ∈ t.byTs ∧ e ∉ t.byTs.toList.takeWhile (fun e => e.ts < cutoff) := by
    rw [← mem_foldl_erase]
    rfl
  rw [hmem, mem_taken h, h e, byBlock_takeOlderThan h]
  cases hb : t.byBlock[e.block]? with
  | none => simp
  | some ts =>
    by_cases hlt : ts < cutoff
    · simp only [Option.some.injEq, Option.filter, hlt, decide_true, Bool.not_true,
        Bool.false_eq_true, ↓reduceIte, reduceCtorEq, iff_false]
      rintro ⟨rfl, hn⟩
      exact hn ⟨rfl, hlt⟩
    · simp only [Option.some.injEq, Option.filter, hlt, decide_false, Bool.not_false, ↓reduceIte]
      constructor
      · exact fun h => h.1
      · rintro rfl
        exact ⟨rfl, fun hn => hlt hn.2⟩

/-! ## The largest time -/

theorem maxTs_eq_none (h : t.Ok) (hn : t.maxTs = none) : t.byBlock = ∅ := by
  rw [maxTs, Option.map_eq_none_iff, List.getLast?_eq_none_iff] at hn
  refine ExtTreeMap.ext_getElem? fun b => ?_
  rw [ExtTreeMap.getElem?_empty]
  cases hb : t.byBlock[b]? with
  | none => rfl
  | some ts =>
    have := (h ⟨ts, b⟩).mpr hb
    rw [← ExtTreeSet.mem_toList, hn] at this
    cases this

theorem maxTs_eq_some (h : t.Ok) {ts : Int64} (hs : t.maxTs = some ts) :
    (∃ b : BlockNumber, t.byBlock[b]? = some ts) ∧
    ∀ (b : BlockNumber) ts', t.byBlock[b]? = some ts' → ts' ≤ ts := by
  rw [maxTs, Option.map_eq_some_iff] at hs
  obtain ⟨e, he, rfl⟩ := hs
  obtain ⟨init, hl⟩ := List.getLast?_eq_some_iff.mp he
  have hsorted := t.byTs_sorted
  rw [hl] at hsorted
  refine ⟨⟨e.block, (h e).mp (ExtTreeSet.mem_toList.mp (by rw [hl]; simp))⟩, ?_⟩
  intro b ts' hb
  have hmem := (h ⟨ts', b⟩).mpr hb
  rw [← ExtTreeSet.mem_toList, hl, List.mem_append, List.mem_singleton] at hmem
  rcases hmem with hmem | rfl
  · exact (List.pairwise_append.mp hsorted).2.2 _ hmem e (List.mem_singleton.mpr rfl)
  · exact Int64.le_refl _

end BlockTimes

end Settle
