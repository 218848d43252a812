import Settle.Schema.ReducerParser

/-!
# The defaults of state fields

`StateField::default_value` of `src/schema/ast.rs`: the value of a DEFAULT, by the type of its
field. The parsers of floats, of 256-bit numbers and of JSON are parameters (`LiteralParsers`).
-/

namespace Settle

/-! ## Numbers -/

/-- A number of decimal digits. -/
def parseDigits (cs : List Char) : Option Nat :=
  if cs.isEmpty || !cs.all isAsciiDigit then none else some (digitsValue cs)

/-- `str::parse::<u64>`. -/
def parseU64 (s : String) : Option UInt64 :=
  let digits := match s.toList with
    | '+' :: cs => cs
    | cs => cs
  (parseDigits digits).bind fun n => if n < 2 ^ 64 then some (UInt64.ofNat n) else none

/-- `str::parse::<i64>`. -/
def parseI64 (s : String) : Option Int64 :=
  match s.toList with
  | '-' :: cs =>
    (parseDigits cs).bind fun n => if n ≤ 2 ^ 63 then some (Int64.ofInt (-n)) else none
  | '+' :: cs => (parseDigits cs).bind fun n => if n < 2 ^ 63 then some (Int64.ofInt n) else none
  | cs => (parseDigits cs).bind fun n => if n < 2 ^ 63 then some (Int64.ofInt n) else none

/-! ## Quoted literals -/

/-- `str::replace` of a doubled quote by one. -/
def undouble (quote : Char) : List Char → List Char
  | c :: d :: cs =>
    if c == quote && d == quote then quote :: undouble quote cs else c :: undouble quote (d :: cs)
  | cs => cs

/-- `unquote`. -/
def unquote (text : String) : Option String :=
  match text.toList with
  | quote :: inner =>
    if (quote == '\'' || quote == '"') && inner.getLast? == some quote then
      some (String.ofList (undouble quote inner.dropLast))
    else none
  | [] => none

/-! ## Defaults -/

/-- The parsers of literals that Settle has from elsewhere. -/
class LiteralParsers where
  /-- `str::parse::<f64>`: the bits of the float -/
  float : String → Option UInt64
  /-- `U256::from_str_prefixed` -/
  uint256 : String → Option (BitVec 256)
  /-- `serde_json::from_str`: the text of the value -/
  json : String → Option String

namespace StateField

variable [LiteralParsers]

/-- The value of a text, if it is one of the type. -/
def literal (columnType : ColumnType) (text : String) : Option Value :=
  let quoted := unquote text
  match columnType with
  | .float64 => (LiteralParsers.float text).map .float64
  | .uint64 => (parseU64 text).map .uint64
  | .int64 => (parseI64 text).map .int64
  | .dateTime => (parseI64 text).map .dateTime
  | .boolean =>
    match String.ofList (text.toList.map asciiLower) with
    | "true" | "1" => some (.boolean true)
    | "false" | "0" => some (.boolean false)
    | _ => none
  | .uint256 => (LiteralParsers.uint256 text).map .uint256
  | .string => quoted.map .string
  | .json => (quoted.bind LiteralParsers.json).map .json
  | .bytes => (quoted.filter String.isEmpty).map fun _ => ColumnType.bytes.defaultValue
  | .base58 => (quoted.filter String.isEmpty).map fun _ => ColumnType.base58.defaultValue

/-- `default_value`: the value of DEFAULT, or why the text is not a value of the type. -/
def defaultValue (f : StateField) : Except String Value :=
  match literal f.columnType f.default with
  | some value => .ok value
  | none => .error ("DEFAULT " ++ f.default ++ " is not a " ++ f.columnType.text ++ " value")

end StateField

/-! ## What is printed reads back -/

theorem isAsciiDigit_of_mem_toString {n : Nat} {c : Char} (h : c ∈ (toString n).toList) :
    isAsciiDigit c = true := by
  have hdigit := Nat.isDigit_of_mem_toDigits (by decide) (by decide)
    (show c ∈ Nat.toDigits 10 n by
      rwa [show toString n = Nat.repr n from rfl, Nat.toList_repr] at h)
  rw [Char.isDigit, Bool.and_eq_true, decide_eq_true_iff, decide_eq_true_iff] at hdigit
  rw [isAsciiDigit, Bool.and_eq_true, decide_eq_true_iff, decide_eq_true_iff]
  exact hdigit

theorem toString_ne_nil (n : Nat) : (toString n).toList ≠ [] := by
  rw [show toString n = Nat.repr n from rfl, Nat.toList_repr]
  exact Nat.toDigits_ne_nil

theorem parseDigits_toString (n : Nat) : parseDigits (toString n).toList = some n := by
  have hall : (toString n).toList.all isAsciiDigit = true :=
    List.all_eq_true.mpr fun c hc => isAsciiDigit_of_mem_toString hc
  have hne : (toString n).toList.isEmpty = false :=
    List.isEmpty_eq_false_iff.mpr (toString_ne_nil n)
  have hvalue : digitsValue (toString n).toList = n := by
    have hfold : ∀ (cs : List Char), digitsValue cs = Nat.ofDigitChars 10 cs 0 := by
      intro cs
      rw [digitsValue, Nat.ofDigitChars]
      simp only [Nat.mul_comm]
      rfl
    rw [hfold, show toString n = Nat.repr n from rfl, Nat.toList_repr]
    exact Nat.ofDigitChars_ten_toDigits
  rw [parseDigits, hall, hne, hvalue]
  rfl

/-- The digits of a number begin with none of the signs. -/
theorem toString_cons (n : Nat) :
    ∃ c cs, (toString n).toList = c :: cs ∧ isAsciiDigit c = true := by
  obtain ⟨c, cs, hcons⟩ := List.exists_cons_of_ne_nil (toString_ne_nil n)
  exact ⟨c, cs, hcons, @isAsciiDigit_of_mem_toString n c (by rw [hcons]; simp)⟩

theorem parseU64_toString (v : UInt64) : parseU64 (toString v.toNat) = some v := by
  have hlt := v.toNat_lt
  obtain ⟨c, cs, hcons, hdigit⟩ := toString_cons v.toNat
  have hread := parseDigits_toString v.toNat
  rw [parseU64]
  rw [hcons] at hread ⊢
  split
  · next heq =>
    obtain ⟨rfl, -⟩ := List.cons.inj heq
    exact absurd hdigit (by decide)
  · rw [hread, Option.bind_some, if_pos hlt]
    exact congrArg some (UInt64.ofNat_toNat)

/-- The text of a signed number. -/
theorem parseI64_toString (v : Int64) : parseI64 (toString v.toInt) = some v := by
  have hlt := v.toInt_lt
  have hle := v.le_toInt
  rcases hint : v.toInt with n | n
  · obtain ⟨c, cs, hcons, hdigit⟩ := toString_cons n
    have hread := parseDigits_toString n
    have htext : toString (Int.ofNat n) = toString n := rfl
    have hbound : n < 2 ^ 63 := by
      rw [hint] at hlt
      have : (n : Int) < 2 ^ 63 := hlt
      omega
    rw [parseI64, htext]
    rw [hcons] at hread ⊢
    split
    · next heq =>
      obtain ⟨rfl, -⟩ := List.cons.inj heq
      exact absurd hdigit (by decide)
    · next heq =>
      obtain ⟨rfl, -⟩ := List.cons.inj heq
      exact absurd hdigit (by decide)
    · rw [hread, Option.bind_some, if_pos hbound]
      have hv : (n : Int) = v.toInt := hint.symm
      rw [hv, Int64.ofInt_toInt]
  · have htext : (toString (Int.negSucc n)).toList = '-' :: (toString (n + 1)).toList := by
      show ("-" ++ Nat.repr (n + 1)).toList = _
      rw [String.toList_append]
      rfl
    have hbound : n + 1 ≤ 2 ^ 63 := by
      rw [hint] at hle
      have := Int.negSucc_eq n
      omega
    rw [parseI64, htext]
    show (parseDigits (toString (n + 1)).toList).bind _ = _
    rw [parseDigits_toString, Option.bind_some, if_pos hbound]
    have hv : (-((n + 1 : Nat) : Int)) = v.toInt := hint.symm
    rw [hv, Int64.ofInt_toInt]

/-! ## Quoted text -/

/-- `sql_escape`, as characters. -/
def escapeQuotes (cs : List Char) : List Char :=
  cs.flatMap fun c => if c == '\'' then ['\'', '\''] else [c]

/-- The text in single quotes. -/
def sqlQuote (s : String) : String := "'" ++ String.ofList (escapeQuotes s.toList) ++ "'"

theorem toList_sqlQuote (s : String) :
    (sqlQuote s).toList = '\'' :: (escapeQuotes s.toList ++ ['\'']) := by
  simp [sqlQuote, String.toList_append]

theorem escapeQuotes_cons (c : Char) (cs : List Char) : escapeQuotes (c :: cs) =
    (if c == '\'' then ['\'', '\''] else [c]) ++ escapeQuotes cs := List.flatMap_cons

theorem undouble_escapeQuotes (cs : List Char) : undouble '\'' (escapeQuotes cs) = cs := by
  induction cs with
  | nil => rfl
  | cons c cs ih =>
    rw [escapeQuotes_cons]
    split
    · next hquote =>
      rw [List.cons_append, List.cons_append, List.nil_append, undouble, ih, beq_iff_eq.mp hquote]
      rfl
    · next hquote =>
      rw [List.singleton_append]
      cases hrest : escapeQuotes cs with
      | nil =>
        rw [hrest] at ih
        rw [← ih]
        rfl
      | cons d ds =>
        have hc : (c == '\'' && d == '\'') = false := by simp [hquote]
        rw [undouble, hc, ← hrest, ih]
        rfl

/-- A quoted text is read to its end. -/
theorem readQuoted_escapeQuotes (cs rest : List Char) (hrest : rest.head? ≠ some '\'') :
    Parser.readQuoted '\'' (escapeQuotes cs ++ '\'' :: rest) =
      (escapeQuotes cs ++ ['\''], rest) := by
  induction cs with
  | nil =>
    show Parser.readQuoted '\'' ('\'' :: rest) = _
    cases rest with
    | nil => rfl
    | cons d ds =>
      have hd : (d == '\'') = false := by simpa using hrest
      rw [Parser.readQuoted]
      simp [hd]
      rfl
  | cons c cs ih =>
    rw [escapeQuotes_cons]
    split
    · simp only [List.cons_append, List.nil_append]
      rw [Parser.readQuoted]
      simp [ih]
    · next hquote =>
      show Parser.readQuoted '\'' (c :: (escapeQuotes cs ++ '\'' :: rest)) =
        (c :: (escapeQuotes cs ++ ['\'']), rest)
      rw [Parser.readQuoted.eq_def]
      simp [hquote, ih]

theorem unquote_sqlQuote (s : String) : unquote (sqlQuote s) = some s := by
  have hlast : (escapeQuotes s.toList ++ ['\'']).getLast? = some '\'' := by simp
  rw [unquote, toList_sqlQuote]
  simp [undouble_escapeQuotes, String.ofList_toList]

end Settle
