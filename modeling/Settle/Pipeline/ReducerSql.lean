import Settle.Schema.Defaults

/-!
# The reducers of the pipeline builder

`reducer_to_sql` and `infer_state_fields` of `src/pipeline/codegen.rs`, read back by the parser of
reducers. A reducer without GROUP BY columns is written as `GROUP BY  STATE`, where the parser reads
`STATE` as a column; every other one reads back as it was built (`reducer_reads_back_iff`).
-/

namespace Settle

open Settle.Parser

/-! ## The text of a reducer -/

/-- `StateField` of the builder: a column of STATE. -/
structure StateColumn where
  name : String
  sqlType : String
  default : String
deriving DecidableEq

structure ReducerSpec where
  name : String
  source : String
  groupBy : List String
  stateFields : List StateColumn

def StateColumn.sql (f : StateColumn) : String :=
  f.name ++ " " ++ f.sqlType ++ " DEFAULT " ++ f.default

/-- `reducer_to_sql`. -/
def reducerToSql (r : ReducerSpec) : String :=
  "CREATE REDUCER " ++ r.name ++ " SOURCE " ++ r.source ++ " GROUP BY " ++
    ", ".intercalate r.groupBy ++ " STATE (" ++
    ", ".intercalate (r.stateFields.map StateColumn.sql) ++ ") LANGUAGE EXTERNAL;"

/-! ## The state -/

/-- The column of an entry of the initial state. `formatFloat` is the text of a float. -/
def inferStateField (formatFloat : UInt64 → String) (k : String) : Value → Except String StateColumn
  | .float64 bits => .ok { name := k, sqlType := "Float64", default := formatFloat bits }
  | .uint64 n => .ok { name := k, sqlType := "UInt64", default := toString n.toNat }
  | .int64 n => .ok { name := k, sqlType := "Int64", default := toString n.toInt }
  | .string s => .ok { name := k, sqlType := "String", default := sqlQuote s }
  | .boolean b => .ok { name := k, sqlType := "Boolean", default := if b then "true" else "false" }
  | .dateTime n => .ok { name := k, sqlType := "DateTime", default := toString n.toInt }
  | .json text => .ok { name := k, sqlType := "Json", default := sqlQuote text }
  | .null => .error ("initial_state['" ++ k ++ "'] is Null — cannot infer column type")
  | other =>
    .error ("initial_state['" ++ k ++ "']: unsupported Value variant " ++ other.typeName ++
      " for state inference")

/-- `infer_state_fields`, in the order of the names. -/
def inferStateFields (formatFloat : UInt64 → String) (initial : RowMap) :
    Except String (List StateColumn) :=
  initial.toList.mapM fun (k, v) => inferStateField formatFloat k v

/-- The type of the column of a value, for the values that read back. -/
def Value.stateType : Value → Option ColumnType
  | .uint64 _ => some .uint64
  | .int64 _ => some .int64
  | .string _ => some .string
  | .boolean _ => some .boolean
  | .dateTime _ => some .dateTime
  | .json _ => some .json
  | _ => none

/-! ## Reading what was written -/

/-- A name that the parser reads. -/
def IsIdentifier (name : String) : Prop := name ≠ "" ∧ ∀ c ∈ name.toList, isIdentifierChar c = true

/-- What follows an identifier. -/
def EndsIdentifier (rest : List Char) : Prop := rest.head?.any isIdentifierChar = false

namespace Parser

theorem skipWs_space (cs : List Char) : skipWs (' ' :: cs) = skipWs cs := by
  rw [skipWs]
  rfl

theorem skipWs_of_head {c : Char} {cs : List Char} (hws : isAsciiWhitespace c = false)
    (hdash : c ≠ '-' ∨ cs.head? ≠ some '-') : skipWs (c :: cs) = c :: cs := by
  have hcomment : (c == '-' && cs.head? == some '-') = false := by
    rcases hdash with h | h
    · simp [h]
    · simp [h]
  rw [skipWs, hws, hcomment]
  rfl

theorem isIdentifierChar_spec {c : Char} (h : isIdentifierChar c = true) :
    isAsciiWhitespace c = false ∧ c ≠ '-' := by
  constructor
  · rw [Bool.eq_false_iff]
    intro hws
    simp only [isAsciiWhitespace, Bool.or_eq_true, beq_iff_eq] at hws
    rcases hws with (((rfl | rfl) | rfl) | rfl) | rfl <;> exact absurd h (by decide)
  · rintro rfl
    exact absurd h (by decide)

theorem skipWs_identifier {name : String} (h : IsIdentifier name) (rest : List Char) :
    skipWs (name.toList ++ rest) = name.toList ++ rest := by
  obtain ⟨c, cs, hcons⟩ := List.exists_cons_of_ne_nil
    (show name.toList ≠ [] from fun hnil => h.1 (String.toList_injective hnil))
  have hspec := isIdentifierChar_spec (h.2 c (by rw [hcons]; simp))
  rw [hcons]
  exact skipWs_of_head hspec.1 (.inl hspec.2)

theorem readIdentifier_ok (input : List Char) {name : String} (h : IsIdentifier name)
    {rest : List Char} (hrest : EndsIdentifier rest) :
    readIdentifier input (name.toList ++ rest) = .ok (name, rest) := by
  have htake : (name.toList ++ rest).takeWhile isIdentifierChar = name.toList := by
    rw [List.takeWhile_append_of_pos h.2]
    cases rest with
    | nil => simp
    | cons c rest =>
      have hc : isIdentifierChar c = false := by simpa [EndsIdentifier] using hrest
      simp [hc]
  have hdrop : (name.toList ++ rest).dropWhile isIdentifierChar = rest := by
    rw [List.dropWhile_append_of_pos h.2]
    cases rest with
    | nil => rfl
    | cons c rest =>
      have hc : isIdentifierChar c = false := by simpa [EndsIdentifier] using hrest
      rw [List.dropWhile_cons_of_neg (by simp [hc])]
  have hne : name.toList.isEmpty = false :=
    List.isEmpty_eq_false_iff.mpr fun hnil => h.1 (String.toList_injective hnil)
  rw [readIdentifier, htake, hdrop, hne, String.ofList_toList]
  rfl

theorem skipKeyword_ok (input : List Char) {keyword : String}
    (hupper : keyword.toList.map asciiUpper = keyword.toList) {rest : List Char}
    (hrest : rest.head?.any isAsciiAlphanumeric = false) :
    skipKeyword input (keyword.toList ++ rest) keyword = .ok rest := by
  have hstarts : startsWith (keyword.toList ++ rest) keyword = true := by
    rw [startsWith, List.map_append, hupper, List.isPrefixOf_iff_prefix]
    exact List.prefix_append _ _
  have hafter : (keyword.toList ++ rest).drop keyword.length = rest := by
    rw [← String.length_toList, List.drop_left]
  rw [skipKeyword, hafter, hstarts, hrest]
  rfl

/-! ## Lists -/

theorem toList_intercalate_cons (sep a : String) (l : List String) :
    (sep.intercalate (a :: l)).toList = a.toList ++ l.flatMap fun b => sep.toList ++ b.toList := by
  induction l generalizing a with
  | nil => simp
  | cons b l ih =>
    rw [String.intercalate_cons_cons, String.toList_append, String.toList_append, ih,
      List.flatMap_cons]
    simp

/-- A list of names is read to its end. -/
theorem readIdentifierList_ok (input : List Char) {name : String} {names : List String}
    (hnames : ∀ n ∈ name :: names, IsIdentifier n) {start rest : List Char}
    (hstart : skipWs start = (", ".intercalate (name :: names)).toList ++ rest)
    (hrest : EndsIdentifier rest) (hcomma : (skipWs rest).head? ≠ some ',') :
    readIdentifierList input start = .ok (name :: names, skipWs rest) := by
  induction names generalizing name start with
  | nil =>
    rw [toList_intercalate_cons, List.flatMap_nil, List.append_nil] at hstart
    have hread := readIdentifier_ok input (hnames name (by simp)) hrest
    rw [← hstart] at hread
    unfold readIdentifierList
    split
    · next herror =>
      rw [hread] at herror
      cases herror
    · next heq =>
      rw [hread] at heq
      cases heq
      split
      · next hmore =>
        rw [hmore] at hcomma
        exact absurd rfl hcomma
      · rfl
  | cons name' names ih =>
    have htext : skipWs start = name.toList ++
        (',' :: ' ' :: ((", ".intercalate (name' :: names)).toList ++ rest)) := by
      rw [hstart, toList_intercalate_cons, toList_intercalate_cons, List.flatMap_cons]
      simp
    have hread := @readIdentifier_ok input name (hnames name (by simp))
      (',' :: ' ' :: ((", ".intercalate (name' :: names)).toList ++ rest)) rfl
    rw [← htext] at hread
    have hnext : skipWs (' ' :: ((", ".intercalate (name' :: names)).toList ++ rest)) =
        (", ".intercalate (name' :: names)).toList ++ rest := by
      rw [skipWs_space, toList_intercalate_cons, List.append_assoc]
      exact skipWs_identifier (hnames name' (by simp)) _
    have hrec := ih (fun n hn => hnames n (List.mem_cons_of_mem _ hn)) hnext
    unfold readIdentifierList
    split
    · next herror =>
      rw [hread] at herror
      cases herror
    · next heq =>
      rw [hread] at heq
      cases heq
      rw [skipWs_of_head (by decide) (.inl (by decide))]
      split
      · next hmore =>
        cases hmore
        rw [hrec]
        rfl
      · next hne => exact absurd rfl (hne _)

/-! ## Fields -/

/-- The column of STATE reads as the field, up to the next column or the end. -/
def FieldReads (input : List Char) (column : StateColumn) (f : StateField) : Prop :=
  IsIdentifier column.name ∧ ∀ rest : List Char, (rest.head? = some ',' ∨ rest.head? = some ')') →
    parseFieldType input column.name
      ((" " ++ column.sqlType ++ " DEFAULT " ++ column.default).toList ++ rest) = .ok (f, rest)

/-- A turn of the loop reads a field. -/
theorem parseStateFields_step (input : List Char) {acc : List StateField}
    {start tail more : List Char} {name : String} {f : StateField} (hname : IsIdentifier name) (htail : EndsIdentifier tail)
    (hnext : skipComma acc.isEmpty (skipWs start) = name.toList ++ tail)
    (hend : (skipWs start).head? ≠ some ')')
    (hfield : parseFieldType input name tail = .ok (f, more)) :
    parseStateFields input acc start = parseStateFields input (acc ++ [f]) more := by
  have hread := readIdentifier_ok input hname htail
  rw [← hnext] at hread
  conv_lhs => unfold parseStateFields
  split
  · next hclose =>
    rw [hclose] at hend
    exact absurd rfl hend
  · split
    · next herror =>
      rw [hread] at herror
      cases herror
    · next heq =>
      rw [hread] at heq
      cases heq
      split
      · next herror =>
        rw [hfield] at herror
        cases herror
      · next heq =>
        rw [hfield] at heq
        cases heq
        rfl

theorem parseStateFields_end (input : List Char) (acc : List StateField) (rest : List Char) :
    parseStateFields input acc (')' :: rest) = .ok (acc, rest) := by
  have hskip : skipWs (')' :: rest) = ')' :: rest := skipWs_of_head (by decide) (.inl (by decide))
  unfold parseStateFields
  split
  · next heq =>
    rw [hskip] at heq
    cases heq
    rfl
  · next hne => exact absurd hskip (hne rest)

/-- The columns after the first. -/
def moreColumns (columns : List StateColumn) : List Char :=
  columns.flatMap fun c => ", ".toList ++ c.sql.toList

theorem StateColumn.toList_sql (c : StateColumn) (rest : List Char) : c.sql.toList ++ rest =
    c.name.toList ++ ((" " ++ c.sqlType ++ " DEFAULT " ++ c.default).toList ++ rest) := by
  simp [StateColumn.sql]

theorem head?_moreColumns (columns : List StateColumn) (rest : List Char) :
    (moreColumns columns ++ ')' :: rest).head? = some ',' ∨
      (moreColumns columns ++ ')' :: rest).head? = some ')' := by
  cases columns with
  | nil => exact .inr rfl
  | cons c columns => exact .inl rfl

theorem parseStateFields_more (input : List Char) {columns : List StateColumn}
    {fields : List StateField} (h : List.Forall₂ (FieldReads input) columns fields)
    {acc : List StateField} (hacc : acc ≠ []) (rest : List Char) :
    parseStateFields input acc (moreColumns columns ++ ')' :: rest) =
      .ok (acc ++ fields, rest) := by
  induction h generalizing acc with
  | nil =>
    rw [List.append_nil]
    exact parseStateFields_end input acc rest
  | @cons c f columns fields hfield _ ih =>
    have hempty : acc.isEmpty = false := List.isEmpty_eq_false_iff.mpr hacc
    have hskip : ∀ tail : List Char, skipWs (',' :: tail) = ',' :: tail :=
      fun tail => skipWs_of_head (by decide) (.inl (by decide))
    have hstart : moreColumns (c :: columns) ++ ')' :: rest =
        ',' :: ' ' :: (c.sql.toList ++ (moreColumns columns ++ ')' :: rest)) := by
      rw [moreColumns, List.flatMap_cons]
      simp [moreColumns]
    rw [hstart, StateColumn.toList_sql]
    have hstep := @parseStateFields_step input acc
      (',' :: ' ' :: (c.name.toList ++ ((" " ++ c.sqlType ++ " DEFAULT " ++ c.default).toList ++
        (moreColumns columns ++ ')' :: rest))))
      ((" " ++ c.sqlType ++ " DEFAULT " ++ c.default).toList ++
        (moreColumns columns ++ ')' :: rest))
      (moreColumns columns ++ ')' :: rest) c.name f hfield.1 (by simp [EndsIdentifier]; decide)
      (by
        rw [hskip, hempty]
        exact (skipWs_space _).trans (skipWs_identifier hfield.1 _))
      (by rw [hskip]; exact fun heq => by cases heq)
      (hfield.2 _ (head?_moreColumns columns rest))
    rw [hstep, ih (by simp), List.append_assoc]
    rfl

/-- The state of a reducer is read to its end. -/
theorem parseStateBlock_ok (input : List Char) {columns : List StateColumn}
    {fields : List StateField} (h : List.Forall₂ (FieldReads input) columns fields)
    (rest : List Char) :
    parseStateBlock input
      ('(' :: ((", ".intercalate (columns.map StateColumn.sql)).toList ++ ')' :: rest)) =
        .ok (fields, rest) := by
  show parseStateFields input [] _ = _
  cases h with
  | nil => exact parseStateFields_end input [] rest
  | @cons c f columns fields hfield hmore =>
    have hstart : (", ".intercalate ((c :: columns).map StateColumn.sql)).toList ++ ')' :: rest =
        c.name.toList ++ ((" " ++ c.sqlType ++ " DEFAULT " ++ c.default).toList ++
          (moreColumns columns ++ ')' :: rest)) := by
      rw [List.map_cons, toList_intercalate_cons, List.append_assoc, StateColumn.toList_sql,
        List.flatMap_map]
      rfl
    rw [hstart]
    have hskip := skipWs_identifier hfield.1
      ((" " ++ c.sqlType ++ " DEFAULT " ++ c.default).toList ++ (moreColumns columns ++ ')' :: rest))
    have hhead : (skipWs (c.name.toList ++ ((" " ++ c.sqlType ++ " DEFAULT " ++ c.default).toList ++
        (moreColumns columns ++ ')' :: rest)))).head? ≠ some ')' := by
      rw [hskip]
      obtain ⟨d, ds, hcons⟩ := List.exists_cons_of_ne_nil
        (show c.name.toList ≠ [] from fun hnil => hfield.1.1 (String.toList_injective hnil))
      have hchar := hfield.1.2 d (by rw [hcons]; simp)
      rw [hcons]
      intro heq
      obtain rfl : d = ')' := Option.some.inj heq
      exact absurd hchar (by decide)
    have hstep := @parseStateFields_step input [] _ _ (moreColumns columns ++ ')' :: rest) c.name f
      hfield.1 (by simp [EndsIdentifier]; decide) (by rw [hskip]; rfl) hhead
      (hfield.2 _ (head?_moreColumns columns rest))
    rw [hstep, parseStateFields_more input hmore (by simp)]
    rfl

/-! ## Tokens -/

/-- The text is a token, up to a comma or the end of STATE. -/
def IsToken (input : List Char) (text : String) : Prop :=
  ∀ rest : List Char, (rest.head? = some ',' ∨ rest.head? = some ')') →
    skipWs (text.toList ++ rest) = text.toList ++ rest ∧
      readToken input (text.toList ++ rest) = .ok (text, rest)

theorem isToken_sqlQuote (input : List Char) (s : String) : IsToken input (sqlQuote s) := by
  intro rest hrest
  rw [toList_sqlQuote]
  refine ⟨skipWs_of_head (by decide) (.inl (by decide)), ?_⟩
  have hquote : rest.head? ≠ some '\'' := by
    rcases hrest with h | h <;> rw [h] <;> decide
  have hread := readQuoted_escapeQuotes s.toList rest hquote
  show readToken input ('\'' :: (escapeQuotes s.toList ++ ['\''] ++ rest)) = _
  rw [List.append_assoc]
  show Except.ok
    (String.ofList ('\'' :: (readQuoted '\'' (escapeQuotes s.toList ++ '\'' :: rest)).1),
    (readQuoted '\'' (escapeQuotes s.toList ++ '\'' :: rest)).2) = _
  rw [hread, ← toList_sqlQuote, String.ofList_toList]

/-- A text that is not quoted. -/
theorem isToken_bare (input : List Char) {text : String} {c : Char} {cs : List Char}
    (htext : text.toList = c :: cs) (hall : ∀ d ∈ text.toList, isTokenChar d = true)
    (hquote : c ≠ '\'' ∧ c ≠ '"') (hdash : c ≠ '-' ∨ ∃ d ds, cs = d :: ds ∧ d ≠ '-') :
    IsToken input text := by
  intro rest hrest
  have hc := hall c (by rw [htext]; simp)
  have hends : ∃ d ds, rest = d :: ds ∧ isTokenChar d = false := by
    cases rest with
    | nil => simp at hrest
    | cons d ds =>
      refine ⟨d, ds, rfl, ?_⟩
      rcases hrest with h | h
      · rw [Option.some.inj h]
        decide
      · rw [Option.some.inj h]
        decide
  obtain ⟨e, es, rfl, he⟩ := hends
  have hws : isAsciiWhitespace c = false := by
    by_contra h
    rw [Bool.not_eq_false] at h
    rw [isTokenChar, h] at hc
    cases hc
  constructor
  · rw [htext]
    refine skipWs_of_head hws ?_
    rcases hdash with h | ⟨d, ds, rfl, hd⟩
    · exact .inl h
    · exact .inr (by simpa using hd)
  · have htake : (text.toList ++ e :: es).takeWhile isTokenChar = text.toList := by
      rw [List.takeWhile_append_of_pos hall]
      simp [he]
    have hdrop : (text.toList ++ e :: es).dropWhile isTokenChar = e :: es := by
      rw [List.dropWhile_append_of_pos hall]
      simp [he]
    have hbare : readBareToken input (text.toList ++ e :: es) = .ok (text, e :: es) := by
      rw [readBareToken, htake, hdrop, String.ofList_toList, htext]
      rfl
    have hnot : (c == '\'' || c == '"') = false := by simp [hquote]
    rw [htext, List.cons_append] at hbare ⊢
    show (if (c == '\'' || c == '"') = true then _ else readBareToken input _) = _
    rw [hnot]
    exact hbare

/-- A column whose default is a token reads as the field. -/
theorem fieldReads_of_token (input : List Char) {c : StateColumn} {t : ColumnType}
    (hname : IsIdentifier c.name) (htype : IsIdentifier c.sqlType)
    (hmap : c.sqlType.toList.map asciiLower ≠ ['m', 'a', 'p'])
    (hcolumn : strToColumnType c.sqlType = .ok t) (htoken : IsToken input c.default) :
    FieldReads input c { name := c.name, columnType := t, default := c.default, map := false } := by
  refine ⟨hname, fun rest hrest => ?_⟩
  obtain ⟨hskip, hread⟩ := htoken rest hrest
  have htext : (" " ++ c.sqlType ++ " DEFAULT " ++ c.default).toList ++ rest =
      ' ' :: (c.sqlType.toList ++
        (' ' :: ("DEFAULT".toList ++ (' ' :: (c.default.toList ++ rest))))) := by
    simp
  have hkeyword :=
    @skipKeyword_ok input "DEFAULT" (by decide) (' ' :: (c.default.toList ++ rest)) rfl
  have hspace : skipWs (' ' :: ("DEFAULT".toList ++ (' ' :: (c.default.toList ++ rest)))) =
      "DEFAULT".toList ++ (' ' :: (c.default.toList ++ rest)) := by
    rw [skipWs_space]
    exact skipWs_of_head (by decide) (.inl (by decide))
  have htypeRead := @readIdentifier_ok input c.sqlType htype
    (' ' :: ("DEFAULT".toList ++ (' ' :: (c.default.toList ++ rest)))) rfl
  rw [parseFieldType, htext, skipWs_space, skipWs_identifier htype, htypeRead]
  show (if c.sqlType.toList.map asciiLower = ['m', 'a', 'p'] then _ else _) = _
  rw [if_neg hmap, hcolumn, hspace, hkeyword]
  show (readToken input (skipWs (' ' :: (c.default.toList ++ rest))) >>= _) = _
  rw [skipWs_space, hskip, hread]
  rfl

/-! ## The initial state -/

/-- The field has the type and the default of an entry of the initial state. -/
structure IsStateOf [LiteralParsers] (f : StateField) (entry : String × Value) : Prop where
  name : f.name = entry.1
  noMap : f.map = false
  columnType : entry.2.stateType = some f.columnType
  defaultValue : f.defaultValue = .ok entry.2

theorem isTokenChar_of_digit {d : Char} (hd : isAsciiDigit d = true) : isTokenChar d = true := by
  rw [isTokenChar, Bool.not_eq_true', Bool.eq_false_iff]
  intro hbad
  simp only [isAsciiWhitespace, Bool.or_eq_true, beq_iff_eq] at hbad
  rcases hbad with ((((((rfl | rfl) | rfl) | rfl) | rfl) | rfl) | rfl) | rfl <;>
    exact absurd hd (by decide)

theorem ne_of_digit {d e : Char} (hd : isAsciiDigit d = true) (he : isAsciiDigit e = false) :
    d ≠ e := by
  rintro rfl
  rw [hd] at he
  cases he

theorem isToken_toString (input : List Char) (n : Nat) : IsToken input (toString n) := by
  obtain ⟨c, cs, hcons, hdigit⟩ := toString_cons n
  exact isToken_bare input hcons
    (fun d hd => isTokenChar_of_digit (isAsciiDigit_of_mem_toString hd))
    ⟨ne_of_digit hdigit (by decide), ne_of_digit hdigit (by decide)⟩
    (.inl (ne_of_digit hdigit (by decide)))

theorem isToken_toInt (input : List Char) (v : Int) : IsToken input (toString v) := by
  cases v with
  | ofNat n => exact isToken_toString input n
  | negSucc n =>
    have htext : (toString (Int.negSucc n)).toList = '-' :: (toString (n + 1)).toList := by
      show ("-" ++ Nat.repr (n + 1)).toList = _
      rw [String.toList_append]
      rfl
    obtain ⟨c, cs, hcons, hdigit⟩ := toString_cons (n + 1)
    refine isToken_bare input htext (fun d hd => ?_) (by decide)
      (.inr ⟨c, cs, hcons, ne_of_digit hdigit (by decide)⟩)
    rw [htext] at hd
    rcases List.mem_cons.mp hd with rfl | hd
    · decide
    · exact isTokenChar_of_digit (isAsciiDigit_of_mem_toString hd)

/-- Each supported value is written as a default that reads as it. -/
theorem inferStateField_reads [LiteralParsers] (formatFloat : UInt64 → String) {k : String}
    {v : Value} (hk : IsIdentifier k) (hv : v.stateType ≠ none)
    (hjson : ∀ text, v = .json text → LiteralParsers.json text = some text) :
    ∃ column f, inferStateField formatFloat k v = .ok column ∧
      (∀ input, FieldReads input column f) ∧ IsStateOf f (k, v) := by
  have hreads : ∀ (sqlType default : String) (t : ColumnType), IsIdentifier sqlType →
      sqlType.toList.map asciiLower ≠ ['m', 'a', 'p'] → strToColumnType sqlType = .ok t →
      (∀ input, IsToken input default) → v.stateType = some t →
      StateField.literal t default = some v → ∃ f : StateField,
        (∀ input, FieldReads input { name := k, sqlType := sqlType, default := default } f) ∧
          IsStateOf f (k, v) := by
    intro sqlType default t htype hmap hcolumn htoken ht hliteral
    refine ⟨_, fun input => fieldReads_of_token input hk htype hmap hcolumn (htoken input),
      rfl, rfl, ht, ?_⟩
    rw [StateField.defaultValue, hliteral]
  cases v with
  | uint64 n =>
    obtain ⟨f, hf⟩ := hreads "UInt64" (toString n.toNat) .uint64
      ⟨by decide, List.all_eq_true.mp rfl⟩ (by decide) rfl (fun input => isToken_toString input n.toNat) rfl
      (by simp only [StateField.literal, parseU64_toString, Option.map_some])
    exact ⟨_, f, rfl, hf⟩
  | int64 n =>
    obtain ⟨f, hf⟩ := hreads "Int64" (toString n.toInt) .int64
      ⟨by decide, List.all_eq_true.mp rfl⟩ (by decide) rfl (fun input => isToken_toInt input n.toInt) rfl
      (by simp only [StateField.literal, parseI64_toString, Option.map_some])
    exact ⟨_, f, rfl, hf⟩
  | dateTime n =>
    obtain ⟨f, hf⟩ := hreads "DateTime" (toString n.toInt) .dateTime
      ⟨by decide, List.all_eq_true.mp rfl⟩ (by decide) rfl (fun input => isToken_toInt input n.toInt) rfl
      (by simp only [StateField.literal, parseI64_toString, Option.map_some])
    exact ⟨_, f, rfl, hf⟩
  | string s =>
    obtain ⟨f, hf⟩ := hreads "String" (sqlQuote s) .string
      ⟨by decide, List.all_eq_true.mp rfl⟩ (by decide) rfl (fun input => isToken_sqlQuote input s) rfl
      (by simp only [StateField.literal, unquote_sqlQuote, Option.map_some])
    exact ⟨_, f, rfl, hf⟩
  | json text =>
    obtain ⟨f, hf⟩ := hreads "Json" (sqlQuote text) .json
      ⟨by decide, List.all_eq_true.mp rfl⟩ (by decide) rfl (fun input => isToken_sqlQuote input text) rfl
      (by simp only [StateField.literal, unquote_sqlQuote, Option.bind_some, hjson text rfl,
        Option.map_some])
    exact ⟨_, f, rfl, hf⟩
  | boolean b =>
    have htoken : ∀ input, IsToken input (if b then "true" else "false") := by
      intro input
      cases b with
      | true =>
        exact @isToken_bare input "true" 't' ['r', 'u', 'e'] rfl (List.all_eq_true.mp rfl)
          (by decide) (.inl (by decide))
      | false =>
        exact @isToken_bare input "false" 'f' ['a', 'l', 's', 'e'] rfl (List.all_eq_true.mp rfl)
          (by decide) (.inl (by decide))
    obtain ⟨f, hf⟩ := hreads "Boolean" (if b then "true" else "false") .boolean
      ⟨by decide, List.all_eq_true.mp rfl⟩ (by decide) rfl htoken rfl (by cases b <;> rfl)
    exact ⟨_, f, rfl, hf⟩
  | float64 bits => exact absurd rfl hv
  | uint256 n => exact absurd rfl hv
  | bytes b => exact absurd rfl hv
  | base58 b => exact absurd rfl hv
  | null => exact absurd rfl hv

theorem inferStateFields_reads [LiteralParsers] (formatFloat : UInt64 → String)
    {entries : List (String × Value)}
    (hentries : ∀ entry ∈ entries, IsIdentifier entry.1 ∧ entry.2.stateType ≠ none ∧
      ∀ text, entry.2 = .json text → LiteralParsers.json text = some text) :
    ∃ columns fields,
      entries.mapM (fun (k, v) => inferStateField formatFloat k v) = Except.ok columns ∧
        (∀ input, List.Forall₂ (FieldReads input) columns fields) ∧
        List.Forall₂ IsStateOf fields entries := by
  induction entries with
  | nil => exact ⟨[], [], rfl, fun _ => .nil, .nil⟩
  | cons entry entries ih =>
    obtain ⟨k, v⟩ := entry
    obtain ⟨hk, hv, hjson⟩ := hentries (k, v) (by simp)
    obtain ⟨column, f, hinfer, hreads, hstate⟩ := inferStateField_reads formatFloat hk hv hjson
    obtain ⟨columns, fields, hinfers, hmore, hstates⟩ :=
      ih fun entry hentry => hentries entry (by simp [hentry])
    refine ⟨column :: columns, f :: fields, ?_, fun input => .cons (hreads input) (hmore input),
      .cons hstate hstates⟩
    rw [List.mapM_cons]
    exact bind_eq_ok.mpr ⟨column, hinfer, bind_eq_ok.mpr ⟨columns, hinfers, rfl⟩⟩

/-! ## The block -/

theorem ok_bind {α β : Type} (a : α) (f : α → Except String β) : (Except.ok a >>= f) = f a := rfl

theorem skipKeyword_next (input : List Char) {keyword : String} (hkeyword : IsIdentifier keyword)
    (hupper : keyword.toList.map asciiUpper = keyword.toList) {rest : List Char}
    (hrest : rest.head?.any isAsciiAlphanumeric = false) :
    skipKeyword input (skipWs (' ' :: (keyword.toList ++ rest))) keyword = .ok rest := by
  rw [skipWs_space, skipWs_identifier hkeyword]
  exact skipKeyword_ok input hupper hrest

theorem readIdentifier_next (input : List Char) {name : String} (hname : IsIdentifier name)
    {rest : List Char} (hrest : EndsIdentifier rest) :
    readIdentifier input (skipWs (' ' :: (name.toList ++ rest))) = .ok (name, rest) := by
  rw [skipWs_space, skipWs_identifier hname]
  exact readIdentifier_ok input hname hrest

/-- The text from GROUP BY on. -/
def groupByText (groupBy : List String) (columns : List StateColumn) (more : List Char) :
    List Char :=
  "GROUP".toList ++ (' ' :: ("BY".toList ++ (' ' :: ((", ".intercalate groupBy).toList ++
    (' ' :: ("STATE".toList ++ (' ' :: '(' ::
      ((", ".intercalate (columns.map StateColumn.sql)).toList ++ (')' :: ' ' ::
        ("LANGUAGE".toList ++ (' ' :: ("EXTERNAL".toList ++ (';' :: more)))))))))))))

theorem toList_reducerToSql (r : ReducerSpec) (more : List Char) :
    (reducerToSql r).toList ++ more = "CREATE".toList ++ (' ' :: ("REDUCER".toList ++ (' ' ::
      (r.name.toList ++ (' ' :: ("SOURCE".toList ++ (' ' :: (r.source.toList ++ (' ' ::
        groupByText r.groupBy r.stateFields more))))))))) := by
  have hcreate :
      "CREATE REDUCER ".toList = "CREATE".toList ++ (' ' :: ("REDUCER".toList ++ [' '])) := rfl
  have hsource : " SOURCE ".toList = ' ' :: ("SOURCE".toList ++ [' ']) := rfl
  have hgroup :
      " GROUP BY ".toList = ' ' :: ("GROUP".toList ++ (' ' :: ("BY".toList ++ [' ']))) := rfl
  have hstate : " STATE (".toList = ' ' :: ("STATE".toList ++ [' ', '(']) := rfl
  have hlanguage : ") LANGUAGE EXTERNAL;".toList =
      ')' :: ' ' :: ("LANGUAGE".toList ++ (' ' :: ("EXTERNAL".toList ++ [';']))) := rfl
  unfold reducerToSql groupByText
  rw [String.toList_append, String.toList_append, String.toList_append, String.toList_append,
    String.toList_append, String.toList_append, String.toList_append, String.toList_append, hcreate,
    hsource, hgroup, hstate, hlanguage]
  simp only [List.append_assoc, List.cons_append, List.nil_append]

/-- What follows SOURCE. -/
def parseAfterSource (lua : Bool) (input rest : List Char) (name source : String) :
    Except String (ReducerDef × List Char) := do
  let (groupBy, rest) ← parseGroupBy input (skipWs rest)
  let rest ← skipKeyword input rest "STATE"
  let (state, rest) ← parseStateBlock input (skipWs rest)
  let (requires, rest) ← parseRequires input (skipWs rest)
  let (body, rest) ← parseReducerBody lua input rest name
  let rest := match skipWs rest with
    | ';' :: more => more
    | rest => rest
  .ok ({ name := name, source := source, groupBy := groupBy, state := state
         body := fillId name body, requires := requires }, rest)

/-- The name and the source are read back. -/
theorem parseReducerBlock_start (lua : Bool) {r : ReducerSpec} (hname : IsIdentifier r.name)
    (hsource : IsIdentifier r.source) (more : List Char) :
    parseReducerBlock lua ((reducerToSql r).toList ++ more) =
      parseAfterSource lua ((reducerToSql r).toList ++ more)
        (' ' :: groupByText r.groupBy r.stateFields more) r.name r.source := by
  have htext := toList_reducerToSql r more
  generalize (reducerToSql r).toList ++ more = input at htext ⊢
  have hcreate : skipKeyword input input "CREATE" = .ok (' ' :: ("REDUCER".toList ++ (' ' ::
      (r.name.toList ++ (' ' :: ("SOURCE".toList ++ (' ' :: (r.source.toList ++ (' ' ::
        groupByText r.groupBy r.stateFields more))))))))) := by
    conv_lhs => arg 2; rw [htext]
    exact skipKeyword_ok input (by decide) rfl
  have hreducer := @skipKeyword_next input "REDUCER"
    ⟨by decide, List.all_eq_true.mp rfl⟩ (by decide)
    (' ' :: (r.name.toList ++ (' ' :: ("SOURCE".toList ++ (' ' :: (r.source.toList ++ (' ' ::
      groupByText r.groupBy r.stateFields more))))))) rfl
  have hread := @readIdentifier_next input r.name hname (' ' :: ("SOURCE".toList ++ (' ' ::
    (r.source.toList ++ (' ' :: groupByText r.groupBy r.stateFields more))))) rfl
  have hkeyword := @skipKeyword_next input "SOURCE" ⟨by decide, List.all_eq_true.mp rfl⟩ (by decide)
    (' ' :: (r.source.toList ++ (' ' :: groupByText r.groupBy r.stateFields more))) rfl
  have hreadSource := @readIdentifier_next input r.source hsource
    (' ' :: groupByText r.groupBy r.stateFields more) rfl
  rw [parseReducerBlock, hcreate, ok_bind, hreducer, ok_bind, hread, ok_bind]
  dsimp only
  rw [hkeyword, ok_bind, hreadSource, ok_bind]
  rfl

/-- What follows STATE. -/
theorem parseReducerBody_ok (lua : Bool) (input more : List Char) (name : String) :
    parseReducerBody lua input
      ("LANGUAGE".toList ++ (' ' :: ("EXTERNAL".toList ++ (';' :: more)))) name =
      .ok (.external "", ';' :: more) := by
  have hlanguage : startsWith ("LANGUAGE".toList ++ (' ' :: ("EXTERNAL".toList ++ (';' :: more))))
      "LANGUAGE" = true := rfl
  have hexternal : startsWith ((("LANGUAGE".toList ++ (' ' :: ("EXTERNAL".toList ++
      (';' :: more)))).drop "LANGUAGE".length).dropWhile isWhitespace) "EXTERNAL" = true := rfl
  have hskip := @skipKeyword_ok input "LANGUAGE" (by decide)
    (' ' :: ("EXTERNAL".toList ++ (';' :: more))) rfl
  have hkeyword := @skipKeyword_next input "EXTERNAL" ⟨by decide, List.all_eq_true.mp rfl⟩
    (by decide) (';' :: more) rfl
  rw [parseReducerBody, if_pos hlanguage, if_pos hexternal, parseExternalBody, hskip, ok_bind,
    hkeyword, ok_bind, skipWs_of_head (by decide) (.inl (by decide))]

/-- GROUP BY columns are read to STATE. -/
theorem parseGroupBy_ok (input : List Char) {groupBy : List String} (hne : groupBy ≠ [])
    (hgroupBy : ∀ n ∈ groupBy, IsIdentifier n) (columns : List StateColumn) (more : List Char) :
    parseGroupBy input (skipWs (' ' :: groupByText groupBy columns more)) =
      .ok (groupBy, "STATE".toList ++ (' ' :: '(' ::
        ((", ".intercalate (columns.map StateColumn.sql)).toList ++ (')' :: ' ' ::
          ("LANGUAGE".toList ++ (' ' :: ("EXTERNAL".toList ++ (';' :: more)))))))) := by
  obtain ⟨name, names, rfl⟩ := List.exists_cons_of_ne_nil hne
  unfold groupByText
  generalize hstate : "STATE".toList ++ (' ' :: '(' ::
    ((", ".intercalate (columns.map StateColumn.sql)).toList ++ (')' :: ' ' ::
      ("LANGUAGE".toList ++ (' ' :: ("EXTERNAL".toList ++ (';' :: more))))))) = rest
  have hstay : skipWs rest = rest := by
    rw [← hstate]
    exact skipWs_of_head (by decide) (.inl (by decide))
  have hrest : skipWs (' ' :: rest) = rest := (skipWs_space rest).trans hstay
  have hcomma : (skipWs (' ' :: rest)).head? ≠ some ',' := by
    rw [hrest, ← hstate]
    exact fun heq => by cases heq
  have hgroup := @skipKeyword_ok input "GROUP" (by decide) (' ' :: ("BY".toList ++ (' ' ::
    ((", ".intercalate (name :: names)).toList ++ (' ' :: rest))))) rfl
  have hby := @skipKeyword_next input "BY" ⟨by decide, List.all_eq_true.mp rfl⟩ (by decide)
    (' ' :: ((", ".intercalate (name :: names)).toList ++ (' ' :: rest))) rfl
  have hlist := @readIdentifierList_ok input name names hgroupBy
    (skipWs (' ' :: ((", ".intercalate (name :: names)).toList ++ (' ' :: rest)))) (' ' :: rest)
    (by
      rw [skipWs_space, toList_intercalate_cons, List.append_assoc,
        skipWs_identifier (hgroupBy name (by simp)), skipWs_identifier (hgroupBy name (by simp))])
    rfl hcomma
  have hstart : skipWs (' ' :: ("GROUP".toList ++ (' ' :: ("BY".toList ++ (' ' ::
      ((", ".intercalate (name :: names)).toList ++ (' ' :: rest))))))) = "GROUP".toList ++ (' ' ::
        ("BY".toList ++
          (' ' :: ((", ".intercalate (name :: names)).toList ++ (' ' :: rest))))) := by
    rw [skipWs_space]
    exact skipWs_of_head (by decide) (.inl (by decide))
  rw [hstart, parseGroupBy, hgroup]
  dsimp only
  rw [hby, ok_bind, hlist, ok_bind]
  dsimp only
  rw [hrest, hstay]

/-- A reducer with GROUP BY columns reads back as it was written, whatever follows. -/
theorem parseReducerBlock_ok (lua : Bool) {r : ReducerSpec} {fields : List StateField}
    (hname : IsIdentifier r.name) (hsource : IsIdentifier r.source) (hne : r.groupBy ≠ [])
    (hgroupBy : ∀ n ∈ r.groupBy, IsIdentifier n)
    (hfields : ∀ input, List.Forall₂ (FieldReads input) r.stateFields fields) (more : List Char) :
    parseReducerBlock lua ((reducerToSql r).toList ++ more) =
      .ok ({ name := r.name, source := r.source, groupBy := r.groupBy, state := fields
             body := .external r.name, requires := [] }, more) := by
  rw [parseReducerBlock_start lua hname hsource more]
  generalize (reducerToSql r).toList ++ more = input
  have hstate := @skipKeyword_ok input "STATE" (by decide) (' ' :: '(' ::
    ((", ".intercalate (r.stateFields.map StateColumn.sql)).toList ++ (')' :: ' ' ::
      ("LANGUAGE".toList ++ (' ' :: ("EXTERNAL".toList ++ (';' :: more))))))) rfl
  have hskip : ∀ tail : List Char, skipWs (' ' :: '(' :: tail) = '(' :: tail := fun tail => by
    rw [skipWs_space]
    exact skipWs_of_head (by decide) (.inl (by decide))
  have hblock := parseStateBlock_ok input (hfields input)
    (' ' :: ("LANGUAGE".toList ++ (' ' :: ("EXTERNAL".toList ++ (';' :: more)))))
  have hlanguage : skipWs (' ' :: ("LANGUAGE".toList ++ (' ' :: ("EXTERNAL".toList ++
      (';' :: more))))) = "LANGUAGE".toList ++ (' ' :: ("EXTERNAL".toList ++ (';' :: more))) := by
    rw [skipWs_space]
    exact skipWs_of_head (by decide) (.inl (by decide))
  have hrequires : parseRequires input ("LANGUAGE".toList ++ (' ' :: ("EXTERNAL".toList ++
      (';' :: more)))) = .ok ([], "LANGUAGE".toList ++ (' ' :: ("EXTERNAL".toList ++
        (';' :: more)))) := rfl
  have hid : fillId r.name (.external "") = .external r.name := rfl
  rw [parseAfterSource, parseGroupBy_ok input hne hgroupBy, ok_bind]
  dsimp only
  rw [hstate, ok_bind, hskip, hblock, ok_bind]
  dsimp only
  rw [hlanguage, hrequires, ok_bind]
  dsimp only
  rw [parseReducerBody_ok, ok_bind]
  dsimp only
  rw [skipWs_of_head (by decide) (.inl (by decide)), hid]
  rfl

/-- Without GROUP BY columns the parser reads STATE as one, and finds no STATE after it. -/
theorem parseReducerBlock_noGroupBy (lua : Bool) {r : ReducerSpec} (hname : IsIdentifier r.name)
    (hsource : IsIdentifier r.source) (hnil : r.groupBy = []) (more : List Char) :
    ∃ e, parseReducerBlock lua ((reducerToSql r).toList ++ more) = .error e := by
  rw [parseReducerBlock_start lua hname hsource more, hnil]
  generalize (reducerToSql r).toList ++ more = input
  unfold groupByText
  generalize (", ".intercalate (r.stateFields.map StateColumn.sql)).toList ++ (')' :: ' ' ::
    ("LANGUAGE".toList ++ (' ' :: ("EXTERNAL".toList ++ (';' :: more))))) = rest
  rw [String.intercalate_nil]
  have hgroup := @skipKeyword_ok input "GROUP" (by decide) (' ' :: ("BY".toList ++ (' ' ::
    ("".toList ++ (' ' :: ("STATE".toList ++ (' ' :: '(' :: rest))))))) rfl
  have hby := @skipKeyword_next input "BY" ⟨by decide, List.all_eq_true.mp rfl⟩ (by decide)
    (' ' :: ("".toList ++ (' ' :: ("STATE".toList ++ (' ' :: '(' :: rest))))) rfl
  have hopen : skipWs (' ' :: '(' :: rest) = '(' :: rest := by
    rw [skipWs_space]
    exact skipWs_of_head (by decide) (.inl (by decide))
  have hskip : skipWs (skipWs (' ' :: ("".toList ++ (' ' :: ("STATE".toList ++
      (' ' :: '(' :: rest)))))) = (", ".intercalate ["STATE"]).toList ++ (' ' :: '(' :: rest) := by
    rw [String.intercalate_singleton, skipWs_space]
    show skipWs (skipWs (' ' :: ("STATE".toList ++ (' ' :: '(' :: rest)))) = _
    rw [skipWs_space]
    have hstate : skipWs ("STATE".toList ++ (' ' :: '(' :: rest)) =
        "STATE".toList ++ (' ' :: '(' :: rest) := skipWs_of_head (by decide) (.inl (by decide))
    rw [hstate, hstate]
  have hlist := @readIdentifierList_ok input "STATE" []
    (fun n hn => by
      rw [List.mem_singleton.mp hn]
      exact ⟨by decide, List.all_eq_true.mp rfl⟩)
    _ (' ' :: '(' :: rest) hskip rfl (by rw [hopen]; exact fun heq => by cases heq)
  have hstart : skipWs (' ' :: ("GROUP".toList ++ (' ' :: ("BY".toList ++ (' ' :: ("".toList ++
      (' ' :: ("STATE".toList ++ (' ' :: '(' :: rest))))))))) = "GROUP".toList ++ (' ' ::
        ("BY".toList ++ (' ' :: ("".toList ++ (' ' :: ("STATE".toList ++
          (' ' :: '(' :: rest))))))) := by
    rw [skipWs_space]
    exact skipWs_of_head (by decide) (.inl (by decide))
  have hgroupBy : parseGroupBy input (skipWs (' ' :: ("GROUP".toList ++ (' ' :: ("BY".toList ++
      (' ' :: ("".toList ++ (' ' :: ("STATE".toList ++ (' ' :: '(' :: rest)))))))))) =
        .ok (["STATE"], '(' :: rest) := by
    rw [hstart, parseGroupBy, hgroup]
    dsimp only
    rw [hby, ok_bind, hlist, ok_bind]
    dsimp only
    rw [hopen, skipWs_of_head (by decide) (.inl (by decide))]
  rw [parseAfterSource, hgroupBy, ok_bind]
  exact ⟨_, rfl⟩

end Parser

/-- **Reducers of the builder read back as they were built**, exactly when they have GROUP BY
columns. serde_json reads the text of a JSON value as the value. -/
theorem reducer_reads_back_iff [LiteralParsers] (lua : Bool) (formatFloat : UInt64 → String)
    (name source : String) (groupBy : List String) (initial : RowMap) (hname : IsIdentifier name)
    (hsource : IsIdentifier source) (hgroupBy : ∀ n ∈ groupBy, IsIdentifier n)
    (hinitial : ∀ (k : String) (v : Value), initial[k]? = some v →
      IsIdentifier k ∧ v.stateType ≠ none)
    (hjson : ∀ (k text : String), initial[k]? = some (Value.json text) →
      LiteralParsers.json text = some text) :
    ∃ columns, inferStateFields formatFloat initial = .ok columns ∧
      ((∃ r, parseReducerBlock lua (reducerToSql
          { name := name, source := source, groupBy := groupBy, stateFields := columns }).toList =
            .ok (r, []) ∧
        r.name = name ∧ r.source = source ∧ r.groupBy = groupBy ∧
          List.Forall₂ IsStateOf r.state initial.toList) ↔ groupBy ≠ []) := by
  obtain ⟨columns, fields, hinfer, hreads, hstate⟩ :=
    @inferStateFields_reads _ formatFloat initial.toList (fun entry hentry => by
      obtain ⟨k, v⟩ := entry
      have hget := Std.ExtTreeMap.mem_toList_iff_getElem?_eq_some.mp hentry
      refine ⟨(hinitial k v hget).1, (hinitial k v hget).2, fun text htext => ?_⟩
      rw [show v = .json text from htext] at hget
      exact hjson k text hget)
  refine ⟨columns, hinfer, ?_, fun hne => ?_⟩
  · rintro ⟨r, hparse, -⟩ hnil
    obtain ⟨e, herror⟩ := @parseReducerBlock_noGroupBy lua
      { name := name, source := source, groupBy := groupBy, stateFields := columns } hname hsource
      hnil []
    rw [List.append_nil, hparse] at herror
    cases herror
  · have hparse := @parseReducerBlock_ok lua
      { name := name, source := source, groupBy := groupBy, stateFields := columns } fields hname
      hsource hne hgroupBy hreads []
    rw [List.append_nil] at hparse
    exact ⟨_, hparse, rfl, rfl, rfl, hstate⟩

/-- A reducer with one group: the parser reads STATE as a GROUP BY column. -/
theorem empty_groupBy_rejected : inferStateFields (fun _ => "")
      ((∅ : RowMap).insert "total" (.uint64 0)) =
      .ok [{ name := "total", sqlType := "UInt64", default := "0" }] ∧
    reducerToSql { name := "sum", source := "trades", groupBy := []
                   stateFields := [{ name := "total", sqlType := "UInt64", default := "0" }] } =
      "CREATE REDUCER sum SOURCE trades GROUP BY  STATE (total UInt64 DEFAULT 0) " ++
        "LANGUAGE EXTERNAL;" ∧
    ∃ e, parseReducerBlock true
      ("CREATE REDUCER sum SOURCE trades GROUP BY  STATE (total UInt64 DEFAULT 0) " ++
        "LANGUAGE EXTERNAL;").toList = .error e := by
  refine ⟨rfl, rfl, ?_⟩
  obtain ⟨e, herror⟩ := @parseReducerBlock_noGroupBy true
    { name := "sum", source := "trades", groupBy := []
      stateFields := [{ name := "total", sqlType := "UInt64", default := "0" }] }
    ⟨by decide, List.all_eq_true.mp rfl⟩ ⟨by decide, List.all_eq_true.mp rfl⟩ rfl []
  rw [List.append_nil] at herror
  exact ⟨e, herror⟩

/-- The parsers, of which that of JSON reads the literals `null`, `true` and `false`. -/
@[reducible]
def plainParsers : LiteralParsers where
  float _ := none
  uint256 _ := none
  json text := if text ∈ ["null", "true", "false"] then some text else none

/-- A string with a quote, a negative integer and a JSON value. -/
def noteState : RowMap :=
  (((∅ : RowMap).insert "note" (.string "it's")).insert "total" (.int64 (-7))).insert "meta"
    (.json "true")

theorem reducer_reads_back_iff_note : ∃ r, parseReducerBlock true
    ("CREATE REDUCER last SOURCE trades GROUP BY user, day STATE (meta Json DEFAULT 'true', " ++
      "note String DEFAULT 'it''s', total Int64 DEFAULT -7) LANGUAGE EXTERNAL;").toList
        = .ok (r, []) ∧ r.groupBy = ["user", "day"] ∧
    List.Forall₂ (@IsStateOf plainParsers) r.state
      [("meta", .json "true"), ("note", .string "it's"), ("total", .int64 (-7))] := by
  have hinitial : ∀ (k : String) (v : Value), noteState[k]? = some v →
      (k = "note" ∧ v = .string "it's") ∨ (k = "total" ∧ v = .int64 (-7)) ∨
        (k = "meta" ∧ v = .json "true") := by
    intro k v hget
    rw [noteState] at hget
    grind
  obtain ⟨columns, hinfer, hiff⟩ := @reducer_reads_back_iff plainParsers true (fun _ => "") "last"
    "trades" ["user", "day"] noteState ⟨by decide, List.all_eq_true.mp rfl⟩
    ⟨by decide, List.all_eq_true.mp rfl⟩
    (fun n hn => by
      rcases List.mem_pair.mp hn with rfl | rfl
      · exact ⟨by decide, List.all_eq_true.mp rfl⟩
      · exact ⟨by decide, List.all_eq_true.mp rfl⟩)
    (fun k v hget => by
      rcases hinitial k v hget with ⟨rfl, rfl⟩ | ⟨rfl, rfl⟩ | ⟨rfl, rfl⟩
      · exact ⟨⟨by decide, List.all_eq_true.mp rfl⟩, by decide⟩
      · exact ⟨⟨by decide, List.all_eq_true.mp rfl⟩, by decide⟩
      · exact ⟨⟨by decide, List.all_eq_true.mp rfl⟩, by decide⟩)
    (fun k text hget => by
      obtain ⟨-, heq⟩ | ⟨-, heq⟩ | ⟨-, heq⟩ := hinitial k _ hget
      · cases heq
      · cases heq
      · cases heq
        rfl)
  obtain rfl : columns = [{ name := "meta", sqlType := "Json", default := "'true'" },
      { name := "note", sqlType := "String", default := "'it''s'" },
      { name := "total", sqlType := "Int64", default := "-7" }] :=
    Except.ok.inj (hinfer.symm.trans (by decide +kernel))
  obtain ⟨r, hparse, -, -, hgroupBy, hstate⟩ := hiff.mpr (by decide)
  exact ⟨r, hparse, hgroupBy, hstate⟩

end Settle
