import Settle.Pipeline.ViewSql

/-!
# The parser of reducers

`parse_reducer_block` of `src/schema/parser.rs`, with the functions that it reads with. A position
in the input is the text from there on; the input itself is kept for the positions in errors.

The loops read an identifier in each turn, so they end (`readIdentifier_length`).
-/

namespace Settle

namespace Parser

/-! ## Characters -/

/-- `u8::is_ascii_whitespace`. -/
def isAsciiWhitespace (c : Char) : Bool :=
  c == ' ' || c == '\t' || c == '\n' || c == '\x0c' || c == '\r'

def isAsciiAlphanumeric (c : Char) : Bool :=
  ('0' ≤ c && c ≤ '9') || ('a' ≤ c && c ≤ 'z') || ('A' ≤ c && c ≤ 'Z')

def isIdentifierChar (c : Char) : Bool := isAsciiAlphanumeric c || c == '_'

/-- `to_ascii_uppercase`. -/
def asciiUpper (c : Char) : Char := if 'a' ≤ c && c ≤ 'z' then Char.ofNat (c.toNat - 32) else c

/-- The bytes of a text. -/
def byteLen (cs : List Char) : Nat := (cs.map Char.utf8Size).sum

/-- The byte where the rest of the input begins. -/
def position (input rest : List Char) : Nat := byteLen input - byteLen rest

/-- Up to `chars` characters, for an error message. -/
def snippet (rest : List Char) (chars : Nat) : String := String.ofList (rest.take chars)

/-- The uppercase of the rest starts with a keyword. -/
def startsWith (rest : List Char) (keyword : String) : Bool :=
  keyword.toList.isPrefixOf (rest.map asciiUpper)

/-! ## Reading -/

mutual

/-- `skip_ws`: white space and line comments. -/
def skipWs : List Char → List Char
  | [] => []
  | c :: cs =>
    if isAsciiWhitespace c then skipWs cs
    else if c == '-' && cs.head? == some '-' then skipComment cs
    else c :: cs

def skipComment : List Char → List Char
  | [] => []
  | c :: cs => if c == '\n' then skipWs cs else skipComment cs

end

/-- `skip_keyword`. -/
def skipKeyword (input rest : List Char) (keyword : String) : Except String (List Char) :=
  let after := rest.drop keyword.length
  if startsWith rest keyword && !(after.head?.any isAsciiAlphanumeric) then .ok after
  else
    .error ("expected '" ++ keyword ++ "' at position " ++ toString (position input rest) ++
      ", got: '" ++ snippet rest 20 ++ "'")

/-- `read_identifier`. -/
def readIdentifier (input rest : List Char) : Except String (String × List Char) :=
  let name := rest.takeWhile isIdentifierChar
  if name.isEmpty then
    .error ("expected identifier at position " ++ toString (position input rest) ++ ", got: '" ++
      snippet rest 10 ++ "'")
  else .ok (String.ofList name, rest.dropWhile isIdentifierChar)

theorem length_skip (cs : List Char) : (skipWs cs).length ≤ cs.length ∧
    (skipComment cs).length ≤ cs.length := by
  induction cs with
  | nil => exact ⟨Nat.le_refl _, Nat.le_refl _⟩
  | cons c cs ih =>
    rw [skipWs, skipComment, List.length_cons]
    constructor
    · split
      · omega
      · split
        · omega
        · exact Nat.le_refl _
    · split
      · omega
      · omega

theorem length_skipWs (cs : List Char) : (skipWs cs).length ≤ cs.length := (length_skip cs).1

theorem readIdentifier_length {input rest next : List Char} {name : String}
    (h : readIdentifier input rest = .ok (name, next)) : next.length < rest.length := by
  rw [readIdentifier] at h
  split at h
  · cases h
  · next hne =>
    cases h
    have hsplit := congrArg List.length (@List.takeWhile_append_dropWhile _ isIdentifierChar rest)
    rw [List.length_append] at hsplit
    have hpos : (rest.takeWhile isIdentifierChar).length ≠ 0 := by
      simpa [List.isEmpty_iff] using hne
    omega

/-- `read_identifier_list`. -/
def readIdentifierList (input rest : List Char) : Except String (List String × List Char) :=
  match _h : readIdentifier input (skipWs rest) with
  | .error e => .error e
  | .ok (name, next) =>
    match _hnext : skipWs next with
    | ',' :: more => do
      let (names, rest) ← readIdentifierList input more
      .ok (name :: names, rest)
    | rest => .ok ([name], rest)
termination_by rest.length
decreasing_by
  have hname := readIdentifier_length _h
  have hmore := length_skipWs next
  rw [_hnext, List.length_cons] at hmore
  have hrest := length_skipWs rest
  omega

/-- A quoted token after its quote, and what follows. A doubled quote does not end it. -/
def readQuoted (quote : Char) : List Char → List Char × List Char
  | [] => ([], [])
  | c :: cs =>
    if c == quote then
      match cs with
      | d :: ds =>
        if d == quote then
          let (token, rest) := readQuoted quote ds
          (c :: d :: token, rest)
        else ([c], d :: ds)
      | [] => ([c], [])
    else
      let (token, rest) := readQuoted quote cs
      (c :: token, rest)

/-- The characters of a token that is not quoted. -/
def isTokenChar (c : Char) : Bool := !(isAsciiWhitespace c || c == ',' || c == ')' || c == ';')

def readBareToken (input rest : List Char) : Except String (String × List Char) :=
  let token := rest.takeWhile isTokenChar
  if token.isEmpty then .error ("expected token at position " ++ toString (position input rest))
  else .ok (String.ofList token, rest.dropWhile isTokenChar)

/-- `read_token`. -/
def readToken (input rest : List Char) : Except String (String × List Char) :=
  match rest with
  | quote :: cs =>
    if quote == '\'' || quote == '"' then
      let (token, rest) := readQuoted quote cs
      .ok (String.ofList (quote :: token), rest)
    else readBareToken input (quote :: cs)
  | [] => readBareToken input []

/-- `str::find` of `$$`: the text before it, and the text after it. -/
def findDollars : List Char → Option (List Char × List Char)
  | [] => none
  | c :: cs =>
    if c == '$' && cs.head? == some '$' then some ([], cs.tail)
    else (findDollars cs).map fun (before, after) => (c :: before, after)

/-- `read_dollar_quoted`. -/
def readDollarQuoted (rest : List Char) : Except String (String × List Char) :=
  match rest with
  | '$' :: '$' :: cs =>
    match findDollars cs with
    | some (script, rest) => .ok (String.ofList script, rest)
    | none => .error "unterminated $$...$$ block"
  | _ => .error "expected '$$' to start dollar-quoted block"

/-- `str_to_column_type`, of a name of ASCII characters. -/
def strToColumnType (s : String) : Except String ColumnType :=
  match String.ofList (s.toList.map asciiLower) with
  | "uint64" => .ok .uint64
  | "int64" => .ok .int64
  | "float64" => .ok .float64
  | "uint256" => .ok .uint256
  | "string" => .ok .string
  | "datetime" => .ok .dateTime
  | "boolean" => .ok .boolean
  | "bytes" => .ok .bytes
  | "base58" => .ok .base58
  | "json" | "jsonb" => .ok .json
  | _ => .error ("unknown type: '" ++ s ++ "'")

/-! ## State -/

/-- The closure `expect` of `parse_map_type`. -/
def expectChar (start : List Char) (field : String) (c : Char) (rest : List Char) :
    Except String (List Char) :=
  match rest with
  | d :: more =>
    if d == c then .ok (skipWs more)
    else .error ("state field '" ++ field ++ "': expected Map(String, Type), got: '" ++
      snippet start 30 ++ "'")
  | [] => .error ("state field '" ++ field ++ "': expected Map(String, Type), got: '" ++
      snippet start 30 ++ "'")

/-- `parse_map_type`. -/
def parseMapType (input rest : List Char) (field : String) :
    Except String (ColumnType × List Char) := do
  let next ← expectChar rest field '(' rest
  let (key, next) ← readIdentifier input next
  let next ← expectChar rest field ',' (skipWs next)
  let (value, next) ← readIdentifier input next
  let next ← expectChar rest field ')' (skipWs next)
  let keyType ← strToColumnType key
  if keyType ≠ .string then
    .error ("state field '" ++ field ++ "': the keys of a Map are String, not " ++ key)
  else do
    let valueType ← strToColumnType value
    .ok (valueType, next)

/-- The field whose name has been read. -/
def parseFieldType (input : List Char) (name : String) (rest : List Char) :
    Except String (StateField × List Char) := do
  let (typeName, next) ← readIdentifier input (skipWs rest)
  let next := skipWs next
  if typeName.toList.map asciiLower = ['m', 'a', 'p'] then do
    let (columnType, next) ← parseMapType input next name
    let next := skipWs next
    match skipKeyword input next "DEFAULT" with
    | .ok _ =>
      .error ("state field '" ++ name ++
        "': a Map field starts with no entries and takes no DEFAULT")
    | .error _ => .ok ({ name := name, columnType := columnType, default := "", map := true }, next)
  else do
    let columnType ← strToColumnType typeName
    let next ← skipKeyword input next "DEFAULT"
    let (default, next) ← readToken input (skipWs next)
    .ok ({ name := name, columnType := columnType, default := default, map := false }, next)

/-! Reading does not lengthen the rest. -/

theorem bind_eq_ok {α β : Type} {x : Except String α} {f : α → Except String β} {b : β} :
    (x >>= f) = .ok b ↔ ∃ a, x = .ok a ∧ f a = .ok b := by
  cases x with
  | error e =>
    constructor
    · intro h
      cases h
    · rintro ⟨a, h, -⟩
      cases h
  | ok a =>
    constructor
    · exact fun h => ⟨a, rfl, h⟩
    · rintro ⟨a', h, hf⟩
      cases h
      exact hf

theorem skipKeyword_length {input rest next : List Char} {keyword : String}
    (h : skipKeyword input rest keyword = .ok next) : next.length ≤ rest.length := by
  rw [skipKeyword] at h
  split at h
  · cases h
    rw [List.length_drop]
    exact Nat.sub_le _ _
  · cases h

theorem readQuoted_length (quote : Char) : ∀ cs : List Char,
    (readQuoted quote cs).2.length ≤ cs.length
  | [] => Nat.le_refl _
  | [c] => by
    rw [readQuoted]
    split
    · exact Nat.zero_le _
    · exact Nat.zero_le _
  | c :: d :: ds => by
    have htail := readQuoted_length quote ds
    have hcons := readQuoted_length quote (d :: ds)
    rw [readQuoted]
    simp only [List.length_cons] at hcons ⊢
    split
    · split
      · show (readQuoted quote ds).2.length ≤ _
        omega
      · rw [List.length_cons]
        omega
    · show (readQuoted quote (d :: ds)).2.length ≤ _
      omega

theorem readBareToken_length {input rest next : List Char} {token : String}
    (h : readBareToken input rest = .ok (token, next)) : next.length ≤ rest.length := by
  rw [readBareToken] at h
  split at h
  · cases h
  · cases h
    exact (List.dropWhile_sublist _).length_le

theorem readToken_length {input rest next : List Char} {token : String}
    (h : readToken input rest = .ok (token, next)) : next.length ≤ rest.length := by
  unfold readToken at h
  split at h
  · next quote cs =>
    split at h
    · cases h
      exact Nat.le_succ_of_le (readQuoted_length quote cs)
    · exact readBareToken_length h
  · exact readBareToken_length h

theorem expectChar_length {start rest next : List Char} {field : String} {c : Char}
    (h : expectChar start field c rest = .ok next) : next.length ≤ rest.length := by
  unfold expectChar at h
  split at h
  · split at h
    · cases h
      exact Nat.le_succ_of_le (length_skipWs _)
    · cases h
  · cases h

theorem parseMapType_length {input rest next : List Char} {field : String} {columnType : ColumnType}
    (h : parseMapType input rest field = .ok (columnType, next)) : next.length ≤ rest.length := by
  rw [parseMapType] at h
  obtain ⟨afterOpen, hopen, h⟩ := bind_eq_ok.mp h
  obtain ⟨⟨key, afterKey⟩, hkey, h⟩ := bind_eq_ok.mp h
  obtain ⟨afterComma, hcomma, h⟩ := bind_eq_ok.mp h
  obtain ⟨⟨value, afterValue⟩, hvalue, h⟩ := bind_eq_ok.mp h
  obtain ⟨afterClose, hclose, h⟩ := bind_eq_ok.mp h
  obtain ⟨keyType, -, h⟩ := bind_eq_ok.mp h
  split at h
  · cases h
  · obtain ⟨valueType, -, h⟩ := bind_eq_ok.mp h
    cases h
    have h1 := expectChar_length hopen
    have h2 := readIdentifier_length hkey
    have h3 := (expectChar_length hcomma).trans (length_skipWs afterKey)
    have h4 := readIdentifier_length hvalue
    have h5 := (expectChar_length hclose).trans (length_skipWs afterValue)
    omega

theorem parseFieldType_length {input rest next : List Char} {name : String} {f : StateField}
    (h : parseFieldType input name rest = .ok (f, next)) : next.length ≤ rest.length := by
  rw [parseFieldType] at h
  obtain ⟨⟨typeName, afterType⟩, htype, h⟩ := bind_eq_ok.mp h
  have h1 := readIdentifier_length htype
  have h2 := length_skipWs rest
  have h3 := length_skipWs afterType
  dsimp only at h
  split at h
  · obtain ⟨⟨columnType, afterMap⟩, hmap, h⟩ := bind_eq_ok.mp h
    have h4 := parseMapType_length hmap
    have h5 := length_skipWs afterMap
    dsimp only at h
    split at h
    · cases h
    · cases h
      omega
  · obtain ⟨columnType, -, h⟩ := bind_eq_ok.mp h
    obtain ⟨afterDefault, hdefault, h⟩ := bind_eq_ok.mp h
    obtain ⟨⟨token, afterToken⟩, htoken, h⟩ := bind_eq_ok.mp h
    cases h
    show afterToken.length ≤ _
    have h4 := skipKeyword_length hdefault
    have h5 := (readToken_length htoken).trans (length_skipWs afterDefault)
    omega

/-- A comma before a field that is not the first. -/
def skipComma (first : Bool) (rest : List Char) : List Char :=
  if first then rest
  else
    match rest with
    | ',' :: more => skipWs more
    | _ => rest

theorem length_skipComma (first : Bool) (rest : List Char) :
    (skipComma first rest).length ≤ rest.length := by
  unfold skipComma
  split
  · exact Nat.le_refl _
  · split
    · exact Nat.le_succ_of_le (length_skipWs _)
    · exact Nat.le_refl _

/-- The loop of `parse_state_block`. -/
def parseStateFields (input : List Char) (fields : List StateField) (rest : List Char) :
    Except String (List StateField × List Char) :=
  match _hrest : skipWs rest with
  | ')' :: more => .ok (fields, more)
  | next =>
    match _hname : readIdentifier input (skipComma fields.isEmpty next) with
    | .error e => .error e
    | .ok (name, afterName) =>
      match _hfield : parseFieldType input name afterName with
      | .error e => .error e
      | .ok (f, more) => parseStateFields input (fields ++ [f]) more
termination_by rest.length
decreasing_by
  have h1 := length_skipWs rest
  have h2 := length_skipComma fields.isEmpty (skipWs rest)
  have h3 := readIdentifier_length _hname
  have h4 := parseFieldType_length _hfield
  rw [_hrest] at h1 h2
  omega

/-- `parse_state_block`. -/
def parseStateBlock (input rest : List Char) : Except String (List StateField × List Char) :=
  match rest with
  | '(' :: more => parseStateFields input [] more
  | _ => .error "expected '(' after STATE"

/-! ## The body and the block -/

/-- `parse_external_body`: the id is empty. -/
def parseExternalBody (input rest : List Char) : Except String (ReducerBody × List Char) := do
  let next ← skipKeyword input rest "LANGUAGE"
  let next ← skipKeyword input (skipWs next) "EXTERNAL"
  .ok (.external "", skipWs next)

/-- `parse_lua_body`. `lua` says whether the build has the feature `lua`. -/
def parseLuaBody (lua : Bool) (input rest : List Char) :
    Except String (ReducerBody × List Char) := do
  let next ← skipKeyword input rest "LANGUAGE"
  let next ← skipKeyword input (skipWs next) "LUA"
  let next ← skipKeyword input (skipWs next) "PROCESS"
  let (script, next) ← readDollarQuoted (skipWs next)
  if lua then .ok (.lua script, next)
  else .error "Lua reducers require the 'lua' feature. Use LANGUAGE EXTERNAL instead."

/-- `parse_reducer_body`. -/
def parseReducerBody (lua : Bool) (input rest : List Char) (reducer : String) :
    Except String (ReducerBody × List Char) :=
  if startsWith rest "LANGUAGE" then
    if startsWith ((rest.drop "LANGUAGE".length).dropWhile isWhitespace) "EXTERNAL" then
      parseExternalBody input rest
    else parseLuaBody lua input rest
  else if startsWith rest "WHEN" || startsWith rest "ALWAYS" then
    .error ("reducer '" ++ reducer ++ "': event rules (WHEN ... THEN) are not supported; " ++
      "write the body in Lua: LANGUAGE lua PROCESS $$ ... $$")
  else
    .error ("expected LANGUAGE lua or LANGUAGE EXTERNAL after STATE, got: '" ++ snippet rest 30 ++
      "'")

/-- GROUP BY; without it the reducer has one group. -/
def parseGroupBy (input rest : List Char) : Except String (List String × List Char) :=
  match skipKeyword input rest "GROUP" with
  | .error _ => .ok ([], rest)
  | .ok next => do
    let next ← skipKeyword input (skipWs next) "BY"
    let (columns, next) ← readIdentifierList input (skipWs next)
    .ok (columns, skipWs next)

/-- The optional REQUIRE clause. -/
def parseRequires (input rest : List Char) : Except String (List String × List Char) :=
  if startsWith rest "REQUIRE" then do
    let next ← skipKeyword input rest "REQUIRE"
    let (requires, next) ← readIdentifierList input (skipWs next)
    .ok (requires, skipWs next)
  else .ok ([], rest)

/-- The id of an external reducer is its name, if it has none. -/
def fillId (name : String) : ReducerBody → ReducerBody
  | .external id => if id.isEmpty then .external name else .external id
  | .lua script => .lua script

/-- `parse_reducer_block`: the reducer, and the input after it. -/
def parseReducerBlock (lua : Bool) (input : List Char) :
    Except String (ReducerDef × List Char) := do
  let rest ← skipKeyword input input "CREATE"
  let rest ← skipKeyword input (skipWs rest) "REDUCER"
  let (name, rest) ← readIdentifier input (skipWs rest)
  let rest ← skipKeyword input (skipWs rest) "SOURCE"
  let (source, rest) ← readIdentifier input (skipWs rest)
  let (groupBy, rest) ← parseGroupBy input (skipWs rest)
  let rest ← skipKeyword input rest "STATE"
  let (state, rest) ← parseStateBlock input (skipWs rest)
  let (requires, rest) ← parseRequires input (skipWs rest)
  let (body, rest) ← parseReducerBody lua input rest name
  let rest := match skipWs rest with
    | ';' :: more => more
    | rest => rest
  .ok ({ name := name, source := source, groupBy := groupBy, state := state
         body := fillId name body, requires := requires }, rest)

end Parser

end Settle
