import Settle.Schema.Validate

/-!
# The GROUP BY of a view

What `check_view_keys` asks: every GROUP BY entry names some key item, and together they name each
key item exactly once (`checkViewKeys_ok`).
-/

namespace Settle

namespace MVDef

variable {mv : MVDef} {keys : List SelectItem}

theorem entryItems_lt {entry : String} {i : Nat} (h : i ∈ entryItems keys entry) :
    i < keys.length := by
  rw [entryItems] at h
  split at h
  · obtain ⟨hlt, -, -⟩ := List.findIdx?_eq_some_iff_getElem.mp (Option.mem_toList.mp h)
    exact hlt
  · exact List.mem_range.mp (List.mem_filter.mp h).1

/-- The items that are named so far. -/
def setNamed (named : List Bool) (items : List Nat) : List Bool :=
  items.foldl (fun named i => named.set i true) named

theorem length_setNamed (items : List Nat) (named : List Bool) :
    (setNamed named items).length = named.length := by
  induction items generalizing named with
  | nil => rfl
  | cons i items ih =>
    rw [setNamed, List.foldl_cons]
    exact (ih (named.set i true)).trans List.length_set

theorem getElem?_setNamed {items : List Nat} {named : List Bool} {i : Nat} (hi : i < named.length) :
    (setNamed named items)[i]? = if i ∈ items then some true else named[i]? := by
  induction items generalizing named with
  | nil => rfl
  | cons j items ih =>
    rw [setNamed, List.foldl_cons]
    refine (@ih (named.set j true) (by simpa using hi)).trans ?_
    by_cases hij : j = i
    · subst hij
      by_cases hmem : j ∈ items
      · simp [hmem]
      · simp [hmem, hi]
    · by_cases hmem : i ∈ items
      · simp [hmem]
      · simp [hmem, hij, Ne.symm hij]

theorem nameItems_ok {items : List Nat} {named named' : List Bool}
    (hlt : ∀ i ∈ items, i < named.length) :
    mv.nameItems keys items named = .ok named' ↔
      items.Nodup ∧ (∀ i ∈ items, named[i]? = some false) ∧ named' = setNamed named items := by
  induction items generalizing named with
  | nil =>
    rw [nameItems, Except.ok.injEq]
    simp [setNamed, eq_comm]
  | cons i items ih =>
    have hi := hlt i (by simp)
    rw [nameItems]
    split
    · next htrue =>
      constructor
      · intro h
        cases h
      · rintro ⟨-, hfalse, -⟩
        rw [hfalse i (by simp)] at htrue
        cases htrue
    · next hnot =>
      have hfalse : named[i]? = some false := by
        rw [List.getElem?_eq_getElem hi] at hnot ⊢
        cases hn : named[i] with
        | true => simp [hn] at hnot
        | false => rfl
      rw [ih (by simpa using fun j hj => hlt j (by simp [hj])), List.nodup_cons]
      constructor
      · rintro ⟨hnd, hrest, rfl⟩
        refine ⟨⟨?_, hnd⟩, ?_, rfl⟩
        · intro hmem
          have := hrest i hmem
          simp [hi] at this
        · intro j hj
          rcases List.mem_cons.mp hj with rfl | hj
          · exact hfalse
          · have hset := hrest j hj
            by_cases hij : i = j
            · subst hij
              exact hfalse
            · rwa [List.getElem?_set_ne hij] at hset
      · rintro ⟨⟨hnot, hnd⟩, hall, rfl⟩
        refine ⟨hnd, fun j hj => ?_, rfl⟩
        have hij : i ≠ j := fun heq => hnot (heq ▸ hj)
        rw [List.getElem?_set_ne hij]
        exact hall j (by simp [hj])

theorem nameEntries_ok {entries : List String} {named named' : List Bool}
    (hlen : named.length = keys.length) :
    mv.nameEntries keys entries named = .ok named' ↔
      (∀ e ∈ entries, entryItems keys e ≠ []) ∧ (entries.flatMap (entryItems keys)).Nodup ∧
        (∀ i ∈ entries.flatMap (entryItems keys), named[i]? = some false) ∧
        named' = setNamed named (entries.flatMap (entryItems keys)) := by
  induction entries generalizing named with
  | nil =>
    rw [nameEntries, Except.ok.injEq]
    constructor
    · rintro rfl
      exact ⟨by simp, List.nodup_nil, by simp, rfl⟩
    · rintro ⟨-, -, -, heq⟩
      exact heq.symm
  | cons entry entries ih =>
    have hlt : ∀ i ∈ entryItems keys entry, i < named.length := fun i hi => by
      rw [hlen]
      exact entryItems_lt hi
    rw [nameEntries]
    split
    · next hnil =>
      constructor
      · intro h
        cases h
      · rintro ⟨hall, -⟩
        exact absurd hnil (hall entry (by simp))
    · next items hitems =>
      have hbind : (do
          let named ← mv.nameItems keys (entryItems keys entry) named
          mv.nameEntries keys entries named) = .ok named' ↔
        ∃ next, mv.nameItems keys (entryItems keys entry) named = .ok next ∧
          mv.nameEntries keys entries next = .ok named' := by
        cases mv.nameItems keys (entryItems keys entry) named with
        | error e =>
          constructor
          · intro h
            cases h
          · rintro ⟨next, h, -⟩
            cases h
        | ok next =>
          constructor
          · exact fun h => ⟨next, rfl, h⟩
          · rintro ⟨next', h, hrest⟩
            cases h
            exact hrest
      rw [hbind]
      constructor
      · rintro ⟨next, hfirst, hrest⟩
        obtain ⟨hnd, hfalse, rfl⟩ := (nameItems_ok hlt).mp hfirst
        obtain ⟨hall, hndRest, hfalseRest, rfl⟩ :=
          (ih ((length_setNamed _ _).trans hlen)).mp hrest
        have hfresh : ∀ i ∈ entries.flatMap (entryItems keys), i ∉ entryItems keys entry ∧
            named[i]? = some false := by
          intro i hi
          have hilt : i < named.length := by
            obtain ⟨e, -, hie⟩ := List.mem_flatMap.mp hi
            rw [hlen]
            exact entryItems_lt hie
          have hset := hfalseRest i hi
          rw [getElem?_setNamed hilt] at hset
          split at hset
          · cases hset
          · next hnot => exact ⟨hnot, hset⟩
        refine ⟨?_, ?_, ?_, ?_⟩
        · intro e he
          rcases List.mem_cons.mp he with rfl | he
          · exact hitems
          · exact hall e he
        · rw [List.flatMap_cons, List.nodup_append]
          refine ⟨hnd, hndRest, ?_⟩
          rintro a ha b hb rfl
          exact (hfresh a hb).1 ha
        · intro i hi
          rw [List.flatMap_cons] at hi
          rcases List.mem_append.mp hi with hi | hi
          · exact hfalse i hi
          · exact (hfresh i hi).2
        · rw [List.flatMap_cons, setNamed, setNamed, setNamed, List.foldl_append]
      · rintro ⟨hall, hnd, hfalse, rfl⟩
        rw [List.flatMap_cons, List.nodup_append] at hnd
        rw [List.flatMap_cons] at hfalse
        refine ⟨setNamed named (entryItems keys entry), (nameItems_ok hlt).mpr
          ⟨hnd.1, fun i hi => hfalse i (List.mem_append_left _ hi), rfl⟩, ?_⟩
        refine (ih ((length_setNamed _ _).trans hlen)).mpr
          ⟨fun e he => hall e (by simp [he]), hnd.2.1, ?_, ?_⟩
        · intro i hi
          have hilt : i < named.length := by
            obtain ⟨e, -, hie⟩ := List.mem_flatMap.mp hi
            rw [hlen]
            exact entryItems_lt hie
          rw [getElem?_setNamed hilt, if_neg fun hmem => hnd.2.2 i hmem i hi rfl]
          exact hfalse i (List.mem_append_right _ hi)
        · rw [List.flatMap_cons, setNamed, setNamed, setNamed, List.foldl_append]

/-- An error at the item that was found. -/
theorem findError_ok {ε : Type} {found : Option Nat} {err : Nat → ε} :
    (match found with
      | some i => Except.error (err i)
      | none => Except.ok ()) = Except.ok () ↔ found = none := by
  cases found <;> simp

/-- **What `check_view_keys` asks.** -/
theorem checkViewKeys_ok : mv.checkViewKeys = .ok () ↔
    (∀ e ∈ mv.groupBy, entryItems mv.keyItems e ≠ []) ∧
      (mv.groupBy.flatMap (entryItems mv.keyItems)).Nodup ∧
      ∀ i < mv.keyItems.length, i ∈ mv.groupBy.flatMap (entryItems mv.keyItems) := by
  have hspec : ∀ named', mv.nameEntries mv.keyItems mv.groupBy
      (List.replicate mv.keyItems.length false) = .ok named' ↔
        (∀ e ∈ mv.groupBy, entryItems mv.keyItems e ≠ []) ∧
          (mv.groupBy.flatMap (entryItems mv.keyItems)).Nodup ∧
          named' = setNamed (List.replicate mv.keyItems.length false)
            (mv.groupBy.flatMap (entryItems mv.keyItems)) := by
    intro named'
    rw [nameEntries_ok (by simp)]
    constructor
    · rintro ⟨hall, hnd, -, heq⟩
      exact ⟨hall, hnd, heq⟩
    · rintro ⟨hall, hnd, heq⟩
      refine ⟨hall, hnd, fun i hi => ?_, heq⟩
      obtain ⟨e, -, hie⟩ := List.mem_flatMap.mp hi
      rw [List.getElem?_replicate, if_pos (entryItems_lt hie)]
  rw [checkViewKeys]
  cases hnamed : mv.nameEntries mv.keyItems mv.groupBy
      (List.replicate mv.keyItems.length false) with
  | error e =>
    constructor
    · intro h
      cases h
    · rintro ⟨hall, hnd, -⟩
      rw [(hspec _).mpr ⟨hall, hnd, rfl⟩] at hnamed
      cases hnamed
  | ok named =>
    obtain ⟨hall, hnd, rfl⟩ := (hspec named).mp hnamed
    have hcover : (setNamed (List.replicate mv.keyItems.length false)
        (mv.groupBy.flatMap (entryItems mv.keyItems))).findIdx? (! ·) = none ↔
          ∀ i < mv.keyItems.length, i ∈ mv.groupBy.flatMap (entryItems mv.keyItems) := by
      rw [List.findIdx?_eq_none_iff]
      constructor
      · intro htrue i hi
        by_contra hnot
        have hget := @getElem?_setNamed (mv.groupBy.flatMap (entryItems mv.keyItems))
          (List.replicate mv.keyItems.length false) i (by simpa using hi)
        rw [if_neg hnot, List.getElem?_replicate, if_pos hi] at hget
        have := htrue false (List.mem_of_getElem? hget)
        cases this
      · intro hcovers x hx
        obtain ⟨i, hi, rfl⟩ := List.getElem_of_mem hx
        have hlt : i < mv.keyItems.length := by simpa [length_setNamed] using hi
        have hget := @getElem?_setNamed (mv.groupBy.flatMap (entryItems mv.keyItems))
          (List.replicate mv.keyItems.length false) i (by simpa using hlt)
        rw [if_pos (hcovers i hlt), List.getElem?_eq_getElem hi] at hget
        rw [Option.some.inj hget]
        rfl
    dsimp only [bind, Except.bind]
    apply findError_ok.trans
    constructor
    · intro hnone
      exact ⟨hall, hnd, hcover.mp hnone⟩
    · rintro ⟨-, -, hcovers⟩
      exact hcover.mpr hcovers

end MVDef

end Settle
