import Mathlib

/-!
# Ordered maps

The ordered maps of this development are `Std.ExtTreeMap`s: two maps are equal as
soon as they answer every lookup alike, and `toList` lists the entries in key
order. This file adds the few operations a `BTreeMap` has and the Std map lacks,
each with its lookup lemma, and the facts that relate the *ordered* list of
entries to the operations:

* `toList_eq_of_sorted` — a sorted list with the right members is `toList`;
* `toList_insert_of_lt` — an entry above all others comes last;
* `toList_eq_append` — a map splits at a key into the part below and the rest;
* `newest_induction` — a map grows from the empty one by its entries in key order.
-/

namespace OrdMap

open Std

variable {α β γ : Type} [Ord α] [TransOrd α] [LawfulEqOrd α]

/-! ## Pairs as keys -/

section Pairs

variable {α β : Type} [Ord α] [Ord β]

/-- Pairs are ordered by their first component, then by their second one. -/
instance instOrdProd : Ord (α × β) := ⟨compareLex (compareOn Prod.fst) (compareOn Prod.snd)⟩

instance instTransOrdProd [TransOrd α] [TransOrd β] : TransOrd (α × β) :=
  inferInstanceAs (TransCmp (compareLex (compareOn Prod.fst) (compareOn Prod.snd)))

instance instLawfulEqOrdProd [LawfulEqOrd α] [LawfulEqOrd β] : LawfulEqOrd (α × β) where
  compare_self {a} := by
    show compareLex (compareOn Prod.fst) (compareOn Prod.snd) a a = .eq
    rw [compareLex_eq_eq]
    exact ⟨ReflCmp.compare_self, ReflCmp.compare_self⟩
  eq_of_compare {a b} h := by
    have h : compareLex (compareOn Prod.fst) (compareOn Prod.snd) a b = .eq := h
    rw [compareLex_eq_eq] at h
    exact Prod.ext (LawfulEqCmp.eq_of_compare h.1) (LawfulEqCmp.eq_of_compare h.2)

end Pairs

/-! ## Lookup of the derived operations -/

section Lookup

variable (m : ExtTreeMap α β compare)

/-- Keep the entries whose key satisfies `p`. -/
def keep (p : α → Bool) : ExtTreeMap α β compare := m.filter fun k _ => p k

@[simp, grind =]
theorem getElem?_keep (p : α → Bool) (k : α) :
    (keep m p)[k]? = if p k then m[k]? else none := by
  rw [keep, ExtTreeMap.getElem?_filter']
  cases m[k]? <;> simp [Option.filter]

@[simp, grind =]
theorem mem_keep (p : α → Bool) (k : α) : k ∈ keep m p ↔ k ∈ m ∧ p k := by
  rw [ExtTreeMap.mem_iff_isSome_getElem?, ExtTreeMap.mem_iff_isSome_getElem?, getElem?_keep]
  by_cases h : p k <;> simp [h]

/-- Transform the value of each entry, dropping those sent to `none`. -/
def mapEntries (f : α → β → Option γ) : ExtTreeMap α γ compare := m.filterMap f

@[simp, grind =]
theorem getElem?_mapEntries (f : α → β → Option γ) (k : α) :
    (mapEntries m f)[k]? = m[k]?.bind (f k) := by
  rw [mapEntries, ExtTreeMap.getElem?_filterMap']

theorem mapEntries_empty (f : α → β → Option γ) :
    mapEntries (∅ : ExtTreeMap α β compare) f = ∅ := by
  ext k; simp

theorem keep_empty (p : α → Bool) : keep (∅ : ExtTreeMap α β compare) p = ∅ := by
  ext k; simp

theorem keep_keep (p q : α → Bool) : keep (keep m p) q = keep m fun k => p k && q k := by
  ext k; grind

theorem keep_eq_self {p : α → Bool} (h : ∀ k ∈ m, p k) : keep m p = m := by
  ext k v
  grind

theorem mapEntries_keep (p : α → Bool) (f : α → β → Option γ) :
    mapEntries (keep m p) f = keep (mapEntries m f) p := by
  ext k; grind

end Lookup

/-! ## The ordered list of entries -/

/-- A list in key order with the members of a map is its list of entries. -/
theorem toList_eq_of_ordered {m : ExtTreeMap α β compare} {l : List (α × β)}
    (hl : l.Pairwise fun a b => compare a.1 b.1 = .lt)
    (h : ∀ k v, (k, v) ∈ l ↔ m[k]? = some v) : m.toList = l := by
  have hnd : ∀ {l : List (α × β)}, (l.Pairwise fun a b => compare a.1 b.1 = .lt) → l.Nodup :=
    fun hl => hl.imp fun {a b} hab heq => by
      subst heq
      simp [ReflCmp.compare_self] at hab
  have hm : m.toList.Pairwise fun a b => compare a.1 b.1 = .lt := ExtTreeMap.ordered_keys_toList
  have hp : m.toList.Perm l := by
    rw [List.perm_ext_iff_of_nodup (hnd hm) (hnd hl)]
    rintro ⟨k, v⟩
    rw [ExtTreeMap.mem_toList_iff_getElem?_eq_some, h]
  refine hp.eq_of_pairwise ?_ hm hl
  -- no two entries of an ordered list are below each other
  intro a b _ _ hab hba
  exact absurd hba (OrientedCmp.not_lt_of_lt hab)

section Ordered

variable [LE α] [LT α] [LawfulOrderOrd α] [LawfulOrderLT α]
variable {m : ExtTreeMap α β compare}

/-- A list of entries in strictly increasing key order. -/
def Sorted (l : List (α × β)) : Prop := l.Pairwise fun a b => a.1 < b.1

omit [LawfulEqOrd α] in
theorem sorted_toList (m : ExtTreeMap α β compare) : Sorted m.toList :=
  ExtTreeMap.ordered_keys_toList.imp fun h => compare_eq_lt.mp h

omit [TransOrd α] in
private theorem Sorted.nodup {l : List (α × β)} (hl : Sorted l) : l.Nodup :=
  hl.imp fun {a b} hab heq => by
    subst heq
    have := compare_eq_lt.mpr hab
    simp [ReflCmp.compare_self] at this

/-- **A sorted list with the members of a map is its list of entries.** -/
theorem toList_eq_of_sorted {l : List (α × β)} (hl : Sorted l)
    (h : ∀ k v, (k, v) ∈ l ↔ m[k]? = some v) : m.toList = l := by
  refine toList_eq_of_ordered ?_ h
  exact hl.imp fun hab => compare_eq_lt.mpr hab

omit [LawfulEqOrd α] [LE α] [LT α] [LawfulOrderOrd α] [LawfulOrderLT α] in
theorem toList_keep (p : α → Bool) : (keep m p).toList = m.toList.filter fun e => p e.1 := by
  rw [keep, ExtTreeMap.toList_filter]

omit [LawfulEqOrd α] [LE α] [LT α] [LawfulOrderOrd α] [LawfulOrderLT α] in
theorem toList_mapEntries (f : α → β → Option γ) :
    (mapEntries m f).toList = m.toList.filterMap fun e => (f e.1 e.2).map fun c => (e.1, c) := by
  rw [mapEntries, ExtTreeMap.toList_filterMap]

omit [LawfulEqOrd α] [LE α] [LT α] [LawfulOrderOrd α] [LawfulOrderLT α] in
theorem exists_getElem?_of_mem {k : α} (h : k ∈ m) : ∃ v, m[k]? = some v := by
  rw [ExtTreeMap.mem_iff_isSome_getElem?] at h
  exact Option.isSome_iff_exists.mp h

omit [LawfulEqOrd α] [LE α] [LT α] [LawfulOrderOrd α] [LawfulOrderLT α] in
theorem mem_of_getElem?_eq {k : α} {v : β} (h : m[k]? = some v) : k ∈ m := by
  rw [ExtTreeMap.mem_iff_isSome_getElem?, h]
  rfl

/-- Two maps with all keys of the first below all keys of the second: their lists of
entries, one after the other, list the map that holds both. -/
theorem toList_eq_append {m₁ m₂ : ExtTreeMap α β compare}
    (hlt : ∀ k₁ ∈ m₁, ∀ k₂ ∈ m₂, k₁ < k₂)
    (h : ∀ (k : α) v, m[k]? = some v ↔ m₁[k]? = some v ∨ m₂[k]? = some v) :
    m.toList = m₁.toList ++ m₂.toList := by
  refine toList_eq_of_sorted ?_ ?_
  · refine List.pairwise_append.mpr ⟨sorted_toList m₁, sorted_toList m₂, ?_⟩
    rintro ⟨k₁, v₁⟩ h₁ ⟨k₂, v₂⟩ h₂
    rw [ExtTreeMap.mem_toList_iff_getElem?_eq_some] at h₁ h₂
    exact hlt k₁ (mem_of_getElem?_eq h₁) k₂ (mem_of_getElem?_eq h₂)
  · intro k v
    simp only [List.mem_append, ExtTreeMap.mem_toList_iff_getElem?_eq_some, h]

/-- An entry whose key is above all others comes last. -/
theorem toList_insert_of_lt {k : α} {v : β} (h : ∀ k' ∈ m, k' < k) :
    (m.insert k v).toList = m.toList ++ [(k, v)] := by
  have hk : m[k]? = none := by
    by_contra hne
    obtain ⟨v', hv'⟩ := Option.ne_none_iff_exists'.mp hne
    have := compare_eq_lt.mpr (h k (mem_of_getElem?_eq hv'))
    simp [ReflCmp.compare_self] at this
  refine toList_eq_of_sorted ?_ ?_
  · refine List.pairwise_append.mpr ⟨sorted_toList m, List.pairwise_singleton _ _, ?_⟩
    rintro ⟨k', v'⟩ hmem b hb
    obtain rfl := List.mem_singleton.mp hb
    rw [ExtTreeMap.mem_toList_iff_getElem?_eq_some] at hmem
    exact h k' (mem_of_getElem?_eq hmem)
  · intro k' v'
    rw [List.mem_append, ExtTreeMap.mem_toList_iff_getElem?_eq_some, List.mem_singleton,
      ExtTreeMap.getElem?_insert]
    by_cases hkk : k = k'
    · subst hkk
      simp [hk, eq_comm]
    · simp [hkk, Ne.symm hkk]

/-- **Induction on a map**: every map arises from the empty one by entries whose keys are
above all keys before. -/
theorem newest_induction {P : ExtTreeMap α β compare → Prop} (empty : P ∅)
    (newest : ∀ (m : ExtTreeMap α β compare) k v, (∀ k' ∈ m, k' < k) → P m → P (m.insert k v))
    (m : ExtTreeMap α β compare) : P m := by
  generalize hl : m.toList = l
  induction l using List.reverseRecOn generalizing m with
  | nil =>
    rw [ExtTreeMap.toList_eq_nil_iff.mp hl]
    exact empty
  | append_singleton l e ih =>
    have hsorted := sorted_toList m
    rw [hl] at hsorted
    have hlt : ∀ e' ∈ l, e'.1 < e.1 := fun e' he' =>
      (List.pairwise_append.mp hsorted).2.2 e' he' e (List.mem_singleton.mpr rfl)
    have hmem : ∀ k v, m[k]? = some v ↔ (k, v) ∈ l ∨ (k, v) = e := by
      intro k v
      rw [← ExtTreeMap.mem_toList_iff_getElem?_eq_some, hl, List.mem_append, List.mem_singleton]
    have herase : ∀ k v, (m.erase e.1)[k]? = some v ↔ (k, v) ∈ l := by
      intro k v
      rw [ExtTreeMap.getElem?_erase]
      by_cases hk : e.1 = k
      · subst hk
        simp only [ReflCmp.compare_self, ↓reduceIte, reduceCtorEq, false_iff]
        intro hin
        have := compare_eq_lt.mpr (hlt _ hin)
        simp [ReflCmp.compare_self] at this
      · simp only [LawfulEqCmp.compare_eq_iff_eq, hk, ↓reduceIte, hmem]
        constructor
        · rintro (h | rfl)
          · exact h
          · exact absurd rfl hk
        · exact Or.inl
    have hlist : (m.erase e.1).toList = l :=
      toList_eq_of_sorted (List.pairwise_append.mp hsorted).1 fun k v => (herase k v).symm
    have hm : m = (m.erase e.1).insert e.1 e.2 := by
      refine ExtTreeMap.ext_getElem? fun k => ?_
      rw [ExtTreeMap.getElem?_insert]
      by_cases hk : e.1 = k
      · subst hk
        simpa using (hmem e.1 e.2).mpr (Or.inr rfl)
      · simp [hk, ExtTreeMap.getElem?_erase]
    rw [hm]
    refine newest _ _ _ ?_ (ih _ hlist)
    intro k' hk'
    obtain ⟨v', hv'⟩ := exists_getElem?_of_mem hk'
    exact hlt _ ((herase k' v').mp hv')

end Ordered

/-! ## Loops over keys -/

section Loops

/-- Change the values of some keys, one after the other. -/
theorem getElem?_foldl_modify [DecidableEq α] (g : β → β) {keys : List α} (hk : keys.Nodup)
    (m : ExtTreeMap α β compare) (k : α) :
    (keys.foldl (fun m k => m.modify k g) m)[k]? = if k ∈ keys then m[k]?.map g else m[k]? := by
  induction keys generalizing m with
  | nil => simp
  | cons k' ks ih =>
    obtain ⟨hk', hks⟩ := List.nodup_cons.mp hk
    rw [List.foldl_cons, ih hks, ExtTreeMap.getElem?_modify]
    by_cases h : k' = k
    · subst h
      simp [hk']
    · simp [h, Ne.symm h]

/-- Collecting keys into a set. -/
theorem mem_foldl_insert (keys : List α) (s : ExtTreeSet α compare) (k : α) :
    k ∈ keys.foldl (fun s k => s.insert k) s ↔ k ∈ keys ∨ k ∈ s := by
  induction keys generalizing s with
  | nil => simp
  | cons k' ks ih =>
    rw [List.foldl_cons, ih, ExtTreeSet.mem_insert]
    simp only [List.mem_cons, Std.compare_eq_iff_eq]
    constructor
    · rintro (h | rfl | h)
      · exact Or.inl (Or.inr h)
      · exact Or.inl (Or.inl rfl)
      · exact Or.inr h
    · rintro ((rfl | h) | h)
      · exact Or.inr (Or.inl rfl)
      · exact Or.inl h
      · exact Or.inr (Or.inr h)

/-- Two ordered lists of keys with the same members are the same. -/
theorem eq_of_ordered {l₁ l₂ : List α} (h₁ : l₁.Pairwise fun a b => compare a b = .lt)
    (h₂ : l₂.Pairwise fun a b => compare a b = .lt) (h : ∀ a, a ∈ l₁ ↔ a ∈ l₂) : l₁ = l₂ := by
  have hnd : ∀ {l : List α}, (l.Pairwise fun a b => compare a b = .lt) → l.Nodup := fun hl =>
    hl.imp fun {a b} hab heq => by
      subst heq
      simp [ReflCmp.compare_self] at hab
  refine ((List.perm_ext_iff_of_nodup (hnd h₁) (hnd h₂)).mpr h).eq_of_pairwise ?_ h₁ h₂
  intro a b _ _ hab hba
  exact absurd hba (OrientedCmp.not_lt_of_lt hab)

omit [LawfulEqOrd α] in
theorem nodup_keys (m : ExtTreeMap α β compare) : (m.toList.map Prod.fst).Nodup := by
  rw [ExtTreeMap.map_fst_toList_eq_keys]
  exact ExtTreeMap.nodup_keys

theorem contains_map_fst_toList [BEq α] [LawfulBEq α] (m : ExtTreeMap α β compare) (k : α) :
    (m.toList.map Prod.fst).contains k = m.contains k := by
  rw [ExtTreeMap.map_fst_toList_eq_keys, Bool.eq_iff_iff, List.contains_iff_mem,
    ExtTreeMap.contains_iff_mem]
  exact ExtTreeMap.mem_keys

theorem nodup_toList (s : ExtTreeSet α compare) : s.toList.Nodup :=
  ExtTreeSet.distinct_toList.imp fun {a b} h heq => by
    subst heq
    simp at h

end Loops

/-- A list made of the entries of one key only. -/
theorem flatMap_toList_eq {δ : Type} {m : ExtTreeMap α β compare} {f : α × β → List δ} {k : α}
    (h : ∀ e ∈ m.toList, e.1 ≠ k → f e = []) :
    m.toList.flatMap f = (m[k]?.map fun v => f (k, v)).getD [] := by
  cases hk : m[k]? with
  | none =>
    refine List.flatMap_eq_nil_iff.mpr fun e he => h e he fun heq => ?_
    have := ExtTreeMap.mem_toList_iff_getElem?_eq_some.mp (show (e.1, e.2) ∈ m.toList from he)
    rw [heq, hk] at this
    cases this
  | some v =>
    obtain ⟨pre, post, hsplit⟩ :=
      List.append_of_mem (ExtTreeMap.mem_toList_iff_getElem?_eq_some.mpr hk)
    have hnodup := nodup_keys m
    rw [hsplit, List.map_append, List.map_cons] at hnodup
    have hne : ∀ e ∈ pre ++ post, e.1 ≠ k := by
      have := (List.nodup_middle.mp hnodup)
      rw [List.nodup_cons, ← List.map_append] at this
      exact fun e he heq => this.1 (List.mem_map.mpr ⟨e, he, heq⟩)
    have hmem : ∀ e ∈ pre ++ post, e ∈ m.toList := by
      intro e he
      rw [hsplit]
      rcases List.mem_append.mp he with he | he
      · exact List.mem_append_left _ he
      · exact List.mem_append_right _ (List.mem_cons_of_mem _ he)
    have hnil : ∀ e ∈ pre ++ post, f e = [] := fun e he => h e (hmem e he) (hne e he)
    rw [hsplit, List.flatMap_append, List.flatMap_cons,
      List.flatMap_eq_nil_iff.mpr fun e he => hnil e (List.mem_append_left _ he),
      List.flatMap_eq_nil_iff.mpr fun e he => hnil e (List.mem_append_right _ he)]
    simp

end OrdMap
