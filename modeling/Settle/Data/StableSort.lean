import Mathlib.Data.List.Basic

/-!
# Stable sorts

A sort by a numeric key keeps the order of the elements of each key. So it is the only list in key
order with the same elements of each key in the same order, whatever the order of the keys was.
-/

namespace StableSort

variable {α : Type*} {key : α → Nat} {l l' : List α}

/-- Two lists in key order with the same elements of each key are the same. -/
theorem eq_of_filter_eq (hl : l.Pairwise fun a b => key a ≤ key b)
    (hl' : l'.Pairwise fun a b => key a ≤ key b)
    (h : ∀ j, l.filter (key · = j) = l'.filter (key · = j)) : l = l' := by
  induction l generalizing l' with
  | nil =>
    cases l' with
    | nil => rfl
    | cons a' l' =>
      have := h (key a')
      simp at this
  | cons a l ih =>
    cases l' with
    | nil =>
      have := h (key a)
      simp at this
    | cons a' l' =>
      obtain ⟨ha, hl⟩ := List.pairwise_cons.mp hl
      obtain ⟨ha', htail⟩ := List.pairwise_cons.mp hl'
      -- the first elements have the lowest key, which is the same
      have hle : key a' ≤ key a := by
        have hmem : a ∈ (a' :: l').filter (key · = key a) := by
          rw [← h]
          simp
        rcases List.mem_cons.mp (List.mem_filter.mp hmem).1 with rfl | hm
        · exact Nat.le_refl _
        · exact ha' a hm
      have hge : key a ≤ key a' := by
        have hmem : a' ∈ (a :: l).filter (key · = key a') := by
          rw [h]
          simp
        rcases List.mem_cons.mp (List.mem_filter.mp hmem).1 with rfl | hm
        · exact Nat.le_refl _
        · exact ha a' hm
      have hkey : key a = key a' := Nat.le_antisymm hge hle
      have hfirst := h (key a)
      rw [List.filter_cons_of_pos (by simp), List.filter_cons_of_pos (by simp [hkey])] at hfirst
      obtain ⟨rfl, -⟩ := List.cons.inj hfirst
      congr 1
      refine ih hl htail ?_
      intro j
      have hj := h j
      by_cases heq : key a = j
      · rw [List.filter_cons_of_pos (by simpa using heq),
          List.filter_cons_of_pos (by simpa using heq)] at hj
        exact (List.cons.inj hj).2
      · rwa [List.filter_cons_of_neg (by simpa using heq),
          List.filter_cons_of_neg (by simpa using heq)] at hj

/-- **A list in key order with the elements of `l` of each key is `l` sorted.** -/
theorem mergeSort_eq_of_filter (key : α → Nat) (hl' : l'.Pairwise fun a b => key a ≤ key b)
    (h : ∀ j, l.filter (key · = j) = l'.filter (key · = j)) :
    l.mergeSort (fun a b => key a ≤ key b) = l' := by
  have htrans : ∀ a b c : α, decide (key a ≤ key b) = true → decide (key b ≤ key c) = true →
      decide (key a ≤ key c) = true := by
    intro a b c hab hbc
    simp only [decide_eq_true_eq] at *
    omega
  have htotal : ∀ a b : α, (decide (key a ≤ key b) || decide (key b ≤ key a)) = true := by
    intro a b
    simp only [Bool.or_eq_true, decide_eq_true_eq]
    omega
  refine eq_of_filter_eq ?_ hl' ?_
  · exact (List.pairwise_mergeSort htrans htotal l).imp fun h => by simpa using h
  · intro j
    rw [← h j]
    -- the elements of one key are a sublist that is in order, so the sort keeps it
    have hord : (l.filter (key · = j)).Pairwise fun a b => decide (key a ≤ key b) = true := by
      refine List.pairwise_of_forall_mem_list ?_
      intro a ha b hb
      have hka := (List.mem_filter.mp ha).2
      have hkb := (List.mem_filter.mp hb).2
      simp only [decide_eq_true_eq] at *
      omega
    have hsub := (List.sublist_mergeSort htrans htotal hord List.filter_sublist).filter (key · = j)
    rw [List.filter_filter] at hsub
    simp only [Bool.and_self] at hsub
    refine (hsub.eq_of_length ?_).symm
    exact ((List.mergeSort_perm l _).filter _).length_eq.symm

end StableSort
