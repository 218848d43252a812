import Settle.Storage.Format
import Mathlib.Data.List.Basic
import Mathlib.Logic.Function.Basic

/-!
# JSON texts

`Json.text` is the text that serde_json writes for a value. It determines the value
(`Json.text_injective`): names are escaped, so that a quote ends a string, and a value tells by its
first character what it is.
-/

namespace Settle

namespace Json

/-- A character inside a JSON string. -/
def escape (c : Char) : List Char :=
  if c = '"' then ['\\', '"']
  else if c = '\\' then ['\\', '\\']
  else if c.toNat = 8 then ['\\', 'b']
  else if c.toNat = 9 then ['\\', 't']
  else if c.toNat = 10 then ['\\', 'n']
  else if c.toNat = 12 then ['\\', 'f']
  else if c.toNat = 13 then ['\\', 'r']
  else if c.toNat < 32 then
    ['\\', 'u', '0', '0', hexDigit (c.toNat / 16), hexDigit (c.toNat % 16)]
  else [c]

/-- A JSON string. -/
def quote (s : String) : List Char := '"' :: (s.toList.flatMap escape ++ ['"'])

mutual

/-- A value without blanks, as characters. -/
def print : Json → List Char
  | .null => ['n', 'u', 'l', 'l']
  | .num n => (toString n).toList
  | .str s => quote s
  | .arr items => '[' :: (printItems items ++ [']'])
  | .obj fields => '\x7b' :: (printFields fields ++ ['\x7d'])

/-- The items of an array, each after the first with a comma before it. -/
def printItems : List Json → List Char
  | [] => []
  | item :: rest => print item ++ printMoreItems rest

def printMoreItems : List Json → List Char
  | [] => []
  | item :: rest => ',' :: (print item ++ printMoreItems rest)

/-- The fields of an object. -/
def printFields : List (String × Json) → List Char
  | [] => []
  | (name, value) :: rest => quote name ++ (':' :: (print value ++ printMoreFields rest))

def printMoreFields : List (String × Json) → List Char
  | [] => []
  | (name, value) :: rest => ',' :: (quote name ++ (':' :: (print value ++ printMoreFields rest)))

end

def text (j : Json) : String := String.ofList j.print

/-! ## Strings -/

/-- The character that an escape stands for, with what follows it. -/
def unescape : List Char → Option (Char × List Char)
  | '\\' :: '"' :: rest => some ('"', rest)
  | '\\' :: '\\' :: rest => some ('\\', rest)
  | '\\' :: 'b' :: rest => some (Char.ofNat 8, rest)
  | '\\' :: 't' :: rest => some (Char.ofNat 9, rest)
  | '\\' :: 'n' :: rest => some (Char.ofNat 10, rest)
  | '\\' :: 'f' :: rest => some (Char.ofNat 12, rest)
  | '\\' :: 'r' :: rest => some (Char.ofNat 13, rest)
  | '\\' :: 'u' :: '0' :: '0' :: high :: low :: rest =>
    ((List.range 32).find? fun n => hexDigit (n / 16) = high ∧ hexDigit (n % 16) = low).map
      fun n => (Char.ofNat n, rest)
  | c :: rest => some (c, rest)
  | [] => none

theorem ofNat_of_toNat {c : Char} {n : Nat} (h : c.toNat = n) : c = Char.ofNat n := by
  rw [← h, Char.ofNat_toNat]

theorem find?_hexDigit : ∀ n < 32, ((List.range 32).find? fun m =>
    hexDigit (m / 16) = hexDigit (n / 16) ∧ hexDigit (m % 16) = hexDigit (n % 16)) = some n := by
  decide

theorem unescape_escape (c : Char) (rest : List Char) :
    unescape (escape c ++ rest) = some (c, rest) := by
  unfold escape
  split
  · next h => rw [h]; rfl
  split
  · next h => rw [h]; rfl
  split
  · next h => rw [ofNat_of_toNat h]; rfl
  split
  · next h => rw [ofNat_of_toNat h]; rfl
  split
  · next h => rw [ofNat_of_toNat h]; rfl
  split
  · next h => rw [ofNat_of_toNat h]; rfl
  split
  · next h => rw [ofNat_of_toNat h]; rfl
  split
  · next h =>
    show ((List.range 32).find? fun n => hexDigit (n / 16) = hexDigit (c.toNat / 16) ∧
      hexDigit (n % 16) = hexDigit (c.toNat % 16)).map (fun n => (Char.ofNat n, rest)) = _
    rw [find?_hexDigit c.toNat h, Option.map_some, Char.ofNat_toNat]
  · next hslash _ _ _ _ _ _ =>
    show unescape (c :: rest) = _
    unfold unescape
    split <;> simp_all

/-- No escape begins with a quote. -/
theorem head?_escape (c : Char) (rest : List Char) : (escape c ++ rest).head? ≠ some '"' := by
  unfold escape
  repeat' split
  all_goals simp_all

theorem quote_unique {s t : String} {r r' : List Char} (h : quote s ++ r = quote t ++ r') :
    s = t ∧ r = r' := by
  have hchars : ∀ (cs ds : List Char),
      cs.flatMap escape ++ '"' :: r = ds.flatMap escape ++ '"' :: r' →
      cs = ds ∧ r = r' := by
    intro cs
    induction cs with
    | nil =>
      intro ds heq
      cases ds with
      | nil => exact ⟨rfl, by simpa using heq⟩
      | cons d ds =>
        rw [List.flatMap_cons, List.append_assoc] at heq
        exact absurd (congrArg List.head? heq).symm (head?_escape d _)
    | cons c cs ih =>
      intro ds heq
      cases ds with
      | nil =>
        rw [List.flatMap_cons, List.append_assoc] at heq
        exact absurd (congrArg List.head? heq) (head?_escape c _)
      | cons d ds =>
        rw [List.flatMap_cons, List.flatMap_cons, List.append_assoc, List.append_assoc] at heq
        have hread := congrArg unescape heq
        rw [unescape_escape, unescape_escape, Option.some.injEq, Prod.mk.injEq] at hread
        obtain ⟨hcs, hr⟩ := ih ds hread.2
        exact ⟨by rw [hread.1, hcs], hr⟩
  rw [quote, quote, List.cons_append, List.cons_append, List.append_assoc, List.append_assoc,
    List.cons.injEq] at h
  obtain ⟨hst, hr⟩ := hchars s.toList t.toList h.2
  exact ⟨String.toList_injective hst, hr⟩

/-! ## Values -/

/-- What a value is. -/
def kind : Json → Nat
  | .null => 0
  | .num _ => 1
  | .str _ => 2
  | .arr _ => 3
  | .obj _ => 4

/-- The kind of the value that begins with a character. -/
def kindOf (c : Char) : Nat :=
  if c.isDigit then 1
  else if c = 'n' then 0
  else if c = '"' then 2
  else if c = '[' then 3
  else if c = '\x7b' then 4
  else 5

theorem isDigit_of_mem_toString {n : Nat} {c : Char} (h : c ∈ (toString n).toList) :
    c.isDigit = true := by
  rw [show toString n = Nat.repr n from rfl, Nat.toList_repr] at h
  exact Nat.isDigit_of_mem_toDigits (by decide) (by decide) h

theorem kindOf_head (j : Json) : ∃ c rest, j.print = c :: rest ∧ kindOf c = j.kind := by
  cases j with
  | null => exact ⟨'n', ['u', 'l', 'l'], rfl, rfl⟩
  | num n =>
    have hne : (toString n).toList ≠ [] := by
      rw [show toString n = Nat.repr n from rfl, Nat.toList_repr]
      exact Nat.toDigits_ne_nil
    obtain ⟨c, rest, hcons⟩ := List.exists_cons_of_ne_nil hne
    refine ⟨c, rest, hcons, ?_⟩
    have hdigit : c.isDigit = true := @isDigit_of_mem_toString n c (by rw [hcons]; simp)
    rw [kindOf, if_pos hdigit]
    rfl
  | str s => exact ⟨'"', _, rfl, rfl⟩
  | arr items => exact ⟨'[', _, by rw [print], rfl⟩
  | obj fields => exact ⟨'\x7b', _, by rw [print], rfl⟩

/-- Equal texts begin values of one kind. -/
theorem kind_eq {a b : Json} {r r' : List Char} (h : a.print ++ r = b.print ++ r') :
    a.kind = b.kind := by
  obtain ⟨c, rest, hc, hkind⟩ := kindOf_head a
  obtain ⟨c', rest', hc', hkind'⟩ := kindOf_head b
  rw [hc, hc', List.cons_append, List.cons_append, List.cons.injEq] at h
  rw [← hkind, ← hkind', h.1]

/-- What follows a value does not continue a number. -/
def NoDigit (r : List Char) : Prop := ∀ c rest, r = c :: rest → c.isDigit = false

theorem num_unique {m n : Nat} {r r' : List Char} (hr : NoDigit r) (hr' : NoDigit r')
    (h : (toString m).toList ++ r = (toString n).toList ++ r') : m = n ∧ r = r' := by
  have hdigits : ∀ (k : Nat) (rest : List Char), NoDigit rest →
      ((toString k).toList ++ rest).takeWhile Char.isDigit = (toString k).toList := by
    intro k rest hrest
    rw [List.takeWhile_append_of_pos fun c hc => isDigit_of_mem_toString hc]
    cases rest with
    | nil => simp
    | cons c rest => simp [hrest c rest rfl]
  have htake := congrArg (List.takeWhile Char.isDigit) h
  rw [hdigits m r hr, hdigits n r' hr'] at htake
  have hmn : m = n := Nat.repr_injective (String.toList_injective htake)
  subst hmn
  exact ⟨rfl, List.append_cancel_left h⟩

theorem noDigit_cons {c : Char} (rest : List Char) (h : c.isDigit = false) :
    NoDigit (c :: rest) := by
  intro c' rest' heq
  rw [← (List.cons.inj heq).1]
  exact h

theorem noDigit_moreItems (items : List Json) (r : List Char) :
    NoDigit (printMoreItems items ++ ']' :: r) := by
  cases items with
  | nil => exact noDigit_cons _ (by decide)
  | cons item items => exact noDigit_cons _ (by decide)

theorem noDigit_moreFields (fields : List (String × Json)) (r : List Char) :
    NoDigit (printMoreFields fields ++ '\x7d' :: r) := by
  cases fields with
  | nil => exact noDigit_cons _ (by decide)
  | cons field fields => exact noDigit_cons _ (by decide)

mutual

/-- A text determines its value and what follows. -/
theorem print_unique : ∀ (a b : Json) (r r' : List Char), NoDigit r → NoDigit r' →
    a.print ++ r = b.print ++ r' → a = b ∧ r = r'
  | .null, .null, r, r', _, _, h => ⟨rfl, List.append_cancel_left h⟩
  | .num m, .num n, r, r', hr, hr', h => by
    rw [print, print] at h
    obtain ⟨rfl, hrest⟩ := num_unique hr hr' h
    exact ⟨rfl, hrest⟩
  | .str s, .str t, r, r', _, _, h => by
    rw [print, print] at h
    obtain ⟨rfl, hrest⟩ := quote_unique h
    exact ⟨rfl, hrest⟩
  | .arr xs, .arr ys, r, r', _, _, h => by
    rw [print, print] at h
    obtain ⟨rfl, hrest⟩ := printItems_unique xs ys r r' (by simpa using h)
    exact ⟨rfl, hrest⟩
  | .obj fs, .obj gs, r, r', _, _, h => by
    rw [print, print] at h
    obtain ⟨rfl, hrest⟩ := printFields_unique fs gs r r' (by simpa using h)
    exact ⟨rfl, hrest⟩
  | .null, .num _, _, _, _, _, h | .null, .str _, _, _, _, _, h | .null, .arr _, _, _, _, _, h
  | .null, .obj _, _, _, _, _, h | .num _, .null, _, _, _, _, h | .num _, .str _, _, _, _, _, h
  | .num _, .arr _, _, _, _, _, h | .num _, .obj _, _, _, _, _, h | .str _, .null, _, _, _, _, h
  | .str _, .num _, _, _, _, _, h | .str _, .arr _, _, _, _, _, h | .str _, .obj _, _, _, _, _, h
  | .arr _, .null, _, _, _, _, h | .arr _, .num _, _, _, _, _, h | .arr _, .str _, _, _, _, _, h
  | .arr _, .obj _, _, _, _, _, h | .obj _, .null, _, _, _, _, h | .obj _, .num _, _, _, _, _, h
  | .obj _, .str _, _, _, _, _, h | .obj _, .arr _, _, _, _, _, h => nomatch kind_eq h

theorem printItems_unique : ∀ (xs ys : List Json) (r r' : List Char),
    printItems xs ++ ']' :: r = printItems ys ++ ']' :: r' → xs = ys ∧ r = r'
  | [], [], r, r', h => ⟨rfl, by simpa [printItems] using h⟩
  | [], y :: ys, r, r', h => by
    obtain ⟨c, rest, hc, hkind⟩ := kindOf_head y
    rw [printItems, printItems, hc] at h
    obtain ⟨rfl, -⟩ := List.cons.inj h
    cases y <;> cases hkind
  | x :: xs, [], r, r', h => by
    obtain ⟨c, rest, hc, hkind⟩ := kindOf_head x
    rw [printItems, printItems, hc] at h
    obtain ⟨rfl, -⟩ := List.cons.inj h
    cases x <;> cases hkind
  | x :: xs, y :: ys, r, r', h => by
    rw [printItems, printItems, List.append_assoc, List.append_assoc] at h
    obtain ⟨rfl, hmore⟩ := print_unique x y _ _ (noDigit_moreItems xs r) (noDigit_moreItems ys r') h
    obtain ⟨rfl, hrest⟩ := printMoreItems_unique xs ys r r' hmore
    exact ⟨rfl, hrest⟩

theorem printMoreItems_unique : ∀ (xs ys : List Json) (r r' : List Char),
    printMoreItems xs ++ ']' :: r = printMoreItems ys ++ ']' :: r' → xs = ys ∧ r = r'
  | [], [], r, r', h => ⟨rfl, by simpa [printMoreItems] using h⟩
  | [], y :: ys, r, r', h => by simp [printMoreItems] at h
  | x :: xs, [], r, r', h => by simp [printMoreItems] at h
  | x :: xs, y :: ys, r, r', h => by
    rw [printMoreItems, printMoreItems, List.cons_append, List.cons_append, List.cons.injEq,
      List.append_assoc, List.append_assoc] at h
    obtain ⟨rfl, hmore⟩ :=
      print_unique x y _ _ (noDigit_moreItems xs r) (noDigit_moreItems ys r') h.2
    obtain ⟨rfl, hrest⟩ := printMoreItems_unique xs ys r r' hmore
    exact ⟨rfl, hrest⟩

theorem printFields_unique : ∀ (xs ys : List (String × Json)) (r r' : List Char),
    printFields xs ++ '\x7d' :: r = printFields ys ++ '\x7d' :: r' → xs = ys ∧ r = r'
  | [], [], r, r', h => ⟨rfl, by simpa [printFields] using h⟩
  | [], (name, y) :: ys, r, r', h => by simp [printFields, quote] at h
  | (name, x) :: xs, [], r, r', h => by simp [printFields, quote] at h
  | (name, x) :: xs, (name', y) :: ys, r, r', h => by
    rw [printFields, printFields, List.append_assoc, List.append_assoc] at h
    obtain ⟨rfl, hvalue⟩ := quote_unique h
    rw [List.cons_append, List.cons_append, List.cons.injEq, List.append_assoc,
      List.append_assoc] at hvalue
    obtain ⟨rfl, hmore⟩ :=
      print_unique x y _ _ (noDigit_moreFields xs r) (noDigit_moreFields ys r') hvalue.2
    obtain ⟨rfl, hrest⟩ := printMoreFields_unique xs ys r r' hmore
    exact ⟨rfl, hrest⟩

theorem printMoreFields_unique : ∀ (xs ys : List (String × Json)) (r r' : List Char),
    printMoreFields xs ++ '\x7d' :: r = printMoreFields ys ++ '\x7d' :: r' → xs = ys ∧ r = r'
  | [], [], r, r', h => ⟨rfl, by simpa [printMoreFields] using h⟩
  | [], (name, y) :: ys, r, r', h => by simp [printMoreFields] at h
  | (name, x) :: xs, [], r, r', h => by simp [printMoreFields] at h
  | (name, x) :: xs, (name', y) :: ys, r, r', h => by
    rw [printMoreFields, printMoreFields, List.cons_append, List.cons_append, List.cons.injEq,
      List.append_assoc, List.append_assoc] at h
    obtain ⟨rfl, hvalue⟩ := quote_unique h.2
    rw [List.cons_append, List.cons_append, List.cons.injEq, List.append_assoc,
      List.append_assoc] at hvalue
    obtain ⟨rfl, hmore⟩ :=
      print_unique x y _ _ (noDigit_moreFields xs r) (noDigit_moreFields ys r') hvalue.2
    obtain ⟨rfl, hrest⟩ := printMoreFields_unique xs ys r r' hmore
    exact ⟨rfl, hrest⟩

end

/-- **A JSON text determines its value.** -/
theorem text_injective : Function.Injective text := by
  intro a b h
  have hprint : a.print = b.print := String.ofList_injective h
  exact (print_unique a b [] [] (fun _ _ heq => nomatch heq) (fun _ _ heq => nomatch heq)
    (by rw [hprint])).1

end Json

end Settle
