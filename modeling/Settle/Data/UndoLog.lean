import Mathlib.Data.List.Basic

/-!
# Undo logs

A cell that changes at increasing positions keeps its current value and, for each change,
the value that the change replaced. A *cut* separates the changes below it from the others:
the cell as of a cut is what the first change at or above the cut replaced, and the current
value if there is none.

The lemmas say what the usual operations of such a log do to the cell as of every cut: a
change at the end, a roll-back to a cut, and a purge of the changes below a cut.
-/

namespace UndoLog

variable {V : Type*}

/-- The value of the cell as of `cut`. -/
def asOf (log : List (Nat × V)) (current : V) (cut : Nat) : V :=
  match log.find? fun e => cut ≤ e.1 with
  | some e => e.2
  | none => current

/-- The positions do not decrease. -/
def Sorted (log : List (Nat × V)) : Prop := log.Pairwise fun a b => a.1 ≤ b.1

variable {log : List (Nat × V)} {current : V} {cut p : Nat}

@[simp] theorem asOf_nil (current : V) (cut : Nat) : asOf [] current cut = current := rfl

theorem asOf_cons (e : Nat × V) (log : List (Nat × V)) (current : V) (cut : Nat) :
    asOf (e :: log) current cut = if cut ≤ e.1 then e.2 else asOf log current cut := by
  unfold asOf
  rw [List.find?_cons]
  by_cases h : cut ≤ e.1
  · simp [h]
  · simp [h]

/-- A log in two parts: the second part gives the value below the first. -/
theorem asOf_append (log log' : List (Nat × V)) (current : V) (cut : Nat) :
    asOf (log ++ log') current cut = asOf log (asOf log' current cut) cut := by
  induction log with
  | nil => rfl
  | cons e log ih => rw [List.cons_append, asOf_cons, asOf_cons, ih]

/-- Above every change stands the current value. -/
theorem asOf_of_lt (h : ∀ e ∈ log, e.1 < cut) : asOf log current cut = current := by
  induction log with
  | nil => rfl
  | cons e log ih =>
    rw [asOf_cons, if_neg (by have := h e (by simp); omega)]
    exact ih fun e' he' => h e' (List.mem_cons_of_mem e he')

/-- Below or at some change, the current value does not matter. -/
theorem asOf_of_exists (h : ∃ e ∈ log, cut ≤ e.1) (current' : V) :
    asOf log current cut = asOf log current' cut := by
  induction log with
  | nil => simp at h
  | cons e log ih =>
    rw [asOf_cons, asOf_cons]
    split
    · rfl
    · next hlt =>
      apply ih
      obtain ⟨e', he', hc⟩ := h
      rcases List.mem_cons.mp he' with rfl | he'
      · exact absurd hc hlt
      · exact ⟨e', he', hc⟩

/-- Two cuts with no change between them see the same value. -/
theorem asOf_congr {cut' : Nat} (h : ∀ e ∈ log, cut ≤ e.1 ↔ cut' ≤ e.1) :
    asOf log current cut = asOf log current cut' := by
  induction log with
  | nil => rfl
  | cons e log ih =>
    rw [asOf_cons, asOf_cons, ih fun e' he' => h e' (List.mem_cons_of_mem e he')]
    simp only [h e (by simp)]

/-- A change at `p`, not below the others: it shows above `p`. -/
theorem asOf_push (h : ∀ e ∈ log, e.1 ≤ p) (new : V) :
    asOf (log ++ [(p, current)]) new cut
      = if cut ≤ p then asOf log current cut else new := by
  rw [asOf_append, asOf_cons, asOf_nil]
  split
  · rfl
  · next hc => exact asOf_of_lt fun e he => by have := h e he; omega

/-- The changes below `p` go: nothing changes for the cuts that see none of them. -/
theorem asOf_purge (h : ∀ e ∈ log, e.1 < p → e.1 < cut) :
    asOf (log.filter fun e => p ≤ e.1) current cut = asOf log current cut := by
  induction log with
  | nil => rfl
  | cons e log ih =>
    have ih := ih fun e' he' => h e' (List.mem_cons_of_mem e he')
    rw [asOf_cons, List.filter_cons]
    split
    · rw [asOf_cons, ih]
    · next hp =>
      have := h e (by simp) (by simpa using hp)
      rw [ih, if_neg (by omega)]

/-- A roll-back to `p`: the changes at or above it go, and the cell takes its value as of
`p`. Then every cut sees what the lower of it and `p` saw. -/
theorem asOf_rollback (hs : Sorted log) :
    asOf (log.filter fun e => e.1 < p) (asOf log current p) cut
      = asOf log current (min p cut) := by
  induction log with
  | nil => rfl
  | cons e log ih =>
    obtain ⟨hle, hs⟩ := List.pairwise_cons.mp hs
    by_cases hp : p ≤ e.1
    · -- every change is at or above `p`
      have hnil : (e :: log).filter (fun e => e.1 < p) = [] := by
        apply List.filter_eq_nil_iff.mpr
        intro e' he'
        rcases List.mem_cons.mp he' with rfl | he'
        · simpa using hp
        · have := hle e' he'
          simpa using Nat.le_trans hp this
      rw [hnil, asOf_nil, asOf_cons, asOf_cons, if_pos hp, if_pos (by omega)]
    · rw [List.filter_cons_of_pos (by simpa using hp), asOf_cons, asOf_cons, asOf_cons,
        if_neg hp, ih hs]
      by_cases hc : cut ≤ e.1
      · rw [if_pos hc, if_pos (by omega)]
      · rw [if_neg hc, if_neg (by omega)]

end UndoLog
