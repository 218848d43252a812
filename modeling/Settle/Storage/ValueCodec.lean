import Settle.Data.Wire
import Settle.Storage.Codec

/-!
# Values and rows as bytes

The rest of the value format of `src/storage/mod.rs`: the decoders, and the encoding of rows.

A decoder of the source has the whole input and a position in it. Here it has what is left of the
input; the position, which only errors name, is the length of the input less what is left.

JSON goes through serde. `JsonText` is what the format uses of it: a value has a text, and a text
of a value parses to it.
-/

namespace Settle

open Std Wire

/-- `serde_json`: `to_string` and `from_str`, with the message of an error. -/
structure JsonText where
  Json : Type
  toText : Json → String
  fromText : String → Except String Json
  /-- the text of a value parses to that value -/
  fromText_toText : ∀ j, fromText (toText j) = .ok j
  /-- the message of `str::from_utf8` on bytes that are not UTF-8 -/
  utf8Error : Bytes → String

/-! ## Writing -/

/-- `encode_values`. -/
def encodeValues (values : List Value) : Bytes := encodeGroupKey values

/-- `encode_value_bytes`. -/
def encodeValueBytes (value : Value) : Bytes := encodeValue value

/-- `encode_rows`. The number of columns is that of the first row. -/
def encodeRows : List Row → Bytes
  | [] => le 4 0 ++ le 2 0
  | row :: rest =>
    le 4 ((rest.length + 1) % 2 ^ 32) ++ (le 2 (row.registry.names.length % 2 ^ 16) ++
      (row :: rest).flatMap fun row => row.values.flatMap encodeValue)

/-- `encode_rows_from_maps`. -/
def encodeRowsFromMaps (maps : List RowMap) (registry : ColumnRegistry) : Bytes :=
  le 4 (maps.length % 2 ^ 32) ++ (le 2 (registry.names.length % 2 ^ 16) ++
    maps.flatMap fun map => registry.names.flatMap fun name =>
      match map[name]? with
      | none => [0]
      | some value => encodeValue value)

/-- `get_id`: the map of the registry is filled in the order of the names, so that the last of
equal names counts. -/
def ColumnRegistry.lastId (registry : ColumnRegistry) (name : String) : Option Nat :=
  (registry.names.zipIdx.filter fun e => e.1 == name).getLast?.map Prod.snd

/-- `Row::from_map`. -/
def Row.fromMap (registry : ColumnRegistry) (map : RowMap) : Row where
  registry := registry
  values := map.toList.foldl (fun values e =>
    match registry.lastId e.1 with
    | some id => values.set id e.2
    | none => values) (registry.names.map fun _ => .null)

/-! ## Reading -/

namespace JsonText

variable (serde : JsonText)

/-- `read_bytes`, in an input of `len` bytes. -/
def readBytes (len n : Nat) : Reader Error Bytes :=
  Wire.take (fun rest => .storage ("truncated data: need " ++ toString n ++ " bytes at offset " ++
    toString (len - rest.length) ++ ", have " ++ toString rest.length ++ " remaining")) n

/-- `from_le_bytes` of the next `width` bytes. -/
def readLe (len width : Nat) : Reader Error Nat := do
  let bytes ← readBytes len width
  pure (ofLe bytes)

/-- A payload behind its length. -/
def readPayload (len : Nat) : Reader Error Bytes := do
  let n ← readLe len 4
  readBytes len n

/-- A payload that is text: `what` names it in the error. -/
def readText (len : Nat) (what : String) : Reader Error String := do
  let bytes ← readPayload len
  check (match fromUtf8 bytes with
    | some s => .ok s
    | none => .error (.storage ("invalid utf8 in stored " ++ what ++ ": " ++
      serde.utf8Error bytes)))

def decodeValue (len : Nat) : Reader Error Value := do
  let tag ← readLe len 1
  match tag with
  | 0 => pure .null
  | 1 => do
    let n ← readLe len 8
    pure (.uint64 (UInt64.ofNat n))
  | 2 => do
    let n ← readLe len 8
    pure (.int64 (Int64.ofBitVec (BitVec.ofNat 64 n)))
  | 3 => do
    let n ← readLe len 8
    pure (.float64 (UInt64.ofNat n))
  | 4 => do
    let s ← serde.readText len "string"
    pure (.string s)
  | 5 => do
    let n ← readLe len 8
    pure (.dateTime (Int64.ofBitVec (BitVec.ofNat 64 n)))
  | 6 => do
    let n ← readLe len 1
    pure (.boolean (n != 0))
  | 7 => do
    let bytes ← readPayload len
    pure (.bytes bytes)
  | 8 => do
    let bytes ← readBytes len 32
    pure (.uint256 (BitVec.ofNat 256 (ofLe bytes.reverse)))
  | 9 => do
    let bytes ← readPayload len
    pure (.base58 bytes)
  | 10 => do
    let s ← serde.readText len "json"
    check (match serde.fromText s with
      | .ok j => .ok (.json (serde.toText j))
      | .error e => .error (.storage ("invalid json in stored data: " ++ e)))
  | _ => check (.error (.storage ("unknown value type tag: " ++ toString tag)))

def decodeValueBytes (bytes : Bytes) : Except Error Value :=
  whole (serde.decodeValue bytes.length) (fun _ rest =>
    .storage (toString rest.length ++ " trailing bytes after an encoded value")) bytes

/-- The values of `decode_values`, before it looks for trailing bytes. -/
def readValues (len : Nat) : Reader Error (List Value) := do
  let n ← readLe len 4
  times (serde.decodeValue len) n

def decodeValues (bytes : Bytes) : Except Error (List Value) :=
  whole (serde.readValues bytes.length) (fun out rest =>
    .storage (toString rest.length ++ " trailing bytes after " ++ toString out.length ++
      " encoded values")) bytes

/-- The rows of `decode_rows`. Whether memory for so many rows can be had is up to the
allocator. -/
def readRows (canReserve : Nat → Bool) (len : Nat) (registry : ColumnRegistry) :
    Reader Error (List Row) := do
  let numRows ← readLe len 4
  if numRows = 0 then pure []
  else do
    let numCols ← readLe len 2
    check (if numCols ≠ registry.names.length then
        .error (.storage ("decode_rows: header column count " ++ toString numCols ++
          " does not match registry length " ++ toString registry.names.length))
      else if canReserve numRows then .ok ()
      else .error (.storage ("decode_rows: cannot allocate " ++ toString numRows ++ " rows")))
    times (do
      let values ← times (serde.decodeValue len) numCols
      pure (⟨registry, values⟩ : Row)) numRows

/-- `decode_rows`. It does not look for trailing bytes. -/
def decodeRows (canReserve : Nat → Bool) (bytes : Bytes) (registry : ColumnRegistry) :
    Except Error (List Row) :=
  match (serde.readRows canReserve bytes.length registry).run bytes with
  | .error e => .error e
  | .ok (rows, _) => .ok rows

/-! ## What the readers read -/

/-- A value that the format holds: the length of a payload is a `u32`, and the text of JSON is one
that serde writes. -/
def Fits : Value → Prop
  | .string s => (utf8 s).length < 2 ^ 32
  | .bytes bytes | .base58 bytes => bytes.length < 2 ^ 32
  | .json text => (utf8 text).length < 2 ^ 32 ∧ ∃ j, serde.toText j = text
  | _ => True

variable {serde}

theorem reads_le (len width : Nat) {n : Nat} (hn : n < 256 ^ width) :
    Reads (readLe len width) (le width n) n := by
  have h := (reads_take (fun rest => Error.storage ("truncated data: need " ++ toString width ++
    " bytes at offset " ++ toString (len - rest.length) ++ ", have " ++ toString rest.length ++
    " remaining")) (le width n)).map ofLe
  rw [ofLe_le hn, length_le] at h
  exact h

theorem reads_payload (len : Nat) {bytes : Bytes} (hlen : bytes.length < 2 ^ 32) :
    Reads (readPayload len) (lengthPrefixed bytes) bytes := by
  rw [lengthPrefixed, Nat.mod_eq_of_lt hlen]
  exact (reads_le len 4 hlen).bind (reads_take _ bytes)

theorem reads_text (len : Nat) (what : String) {s : String} (hlen : (utf8 s).length < 2 ^ 32) :
    Reads (serde.readText len what) (lengthPrefixed s.toUTF8.toList) s := by
  have hcheck : Reads (check (match fromUtf8 (utf8 s) with
      | some s => .ok s
      | none => .error (Error.storage ("invalid utf8 in stored " ++ what ++ ": " ++
        serde.utf8Error (utf8 s))))) [] s := by
    rw [fromUtf8_utf8]
    exact reads_check s
  have h : Reads (serde.readText len what) (lengthPrefixed (utf8 s) ++ []) s :=
    (reads_payload len hlen).bind hcheck
  rwa [List.append_nil, ← toUTF8_toList] at h

/-- The reader of a tag. -/
theorem reads_tag (len : Nat) (tag : UInt8) {α : Type} {f : Nat → Reader Error α} {bytes : Bytes}
    {a : α} (h : Reads (f tag.toNat) bytes a) : Reads (readLe len 1 >>= f) (tag :: bytes) a := by
  have hn : tag.toNat < 256 ^ 1 := tag.toNat_lt
  have htag : le 1 tag.toNat = [tag] := by
    have := tag.toNat_lt
    simp [le, Nat.mod_eq_of_lt this]
  have hread := reads_le len 1 hn
  rw [htag] at hread
  exact hread.bind h

theorem reads_i64 (len : Nat) (v : Int64) (make : Int64 → Value) :
    Reads (readLe len 8 >>= fun n => pure (make (Int64.ofBitVec (BitVec.ofNat 64 n))))
      (le 8 v.toBitVec.toNat) (make v) := by
  have h := (reads_le len 8 v.toBitVec.isLt).map fun n =>
    make (Int64.ofBitVec (BitVec.ofNat 64 n))
  rwa [BitVec.ofNat_toNat, BitVec.setWidth_eq, Int64.ofBitVec_toBitVec] at h

theorem reads_u64 (len : Nat) (v : UInt64) (make : UInt64 → Value) :
    Reads (readLe len 8 >>= fun n => pure (make (UInt64.ofNat n)))
      (le 8 v.toNat) (make v) := by
  have h := (reads_le len 8 v.toNat_lt).map fun n => make (UInt64.ofNat n)
  rwa [UInt64.ofNat_toNat] at h

theorem reads_u256 (len : Nat) (v : BitVec 256) :
    Reads (readBytes len 32 >>= fun bytes =>
        pure (Value.uint256 (BitVec.ofNat 256 (ofLe bytes.reverse))))
      (le 32 v.toNat).reverse (.uint256 v) := by
  have h := (reads_take (fun rest => Error.storage ("truncated data: need " ++ toString 32 ++
    " bytes at offset " ++ toString (len - rest.length) ++ ", have " ++ toString rest.length ++
    " remaining")) (le 32 v.toNat).reverse).map fun bytes =>
      Value.uint256 (BitVec.ofNat 256 (ofLe bytes.reverse))
  have hv : v.toNat < 256 ^ 32 := v.isLt
  rw [List.reverse_reverse, ofLe_le hv, BitVec.ofNat_toNat, BitVec.setWidth_eq, List.length_reverse,
    length_le] at h
  exact h

/-- **Every value reads back**, whatever follows it. -/
theorem reads_decodeValue (len : Nat) {v : Value} (h : serde.Fits v) :
    Reads (serde.decodeValue len) (encodeValue v) v := by
  cases v with
  | null => exact reads_tag len 0 (Reads.pure _)
  | uint64 v => exact reads_tag len 1 (reads_u64 len v _)
  | int64 v => exact reads_tag len 2 (reads_i64 len v _)
  | float64 bits => exact reads_tag len 3 (reads_u64 len bits _)
  | string s => exact reads_tag len 4 ((reads_text len "string" h).map _)
  | dateTime v => exact reads_tag len 5 (reads_i64 len v _)
  | boolean v =>
    cases v with
    | false => exact reads_tag len 6 ((reads_le len 1 (by decide : 0 < 256 ^ 1)).map _)
    | true => exact reads_tag len 6 ((reads_le len 1 (by decide : 1 < 256 ^ 1)).map _)
  | bytes v => exact reads_tag len 7 ((reads_payload len h).map _)
  | uint256 v => exact reads_tag len 8 (reads_u256 len v)
  | base58 v => exact reads_tag len 9 ((reads_payload len h).map _)
  | json text =>
    obtain ⟨hlen, j, rfl⟩ := h
    have hcheck : Reads (check (match serde.fromText (serde.toText j) with
        | .ok j => .ok (Value.json (serde.toText j))
        | .error e => .error (Error.storage ("invalid json in stored data: " ++ e)))) []
        (.json (serde.toText j)) := by
      rw [serde.fromText_toText]
      exact reads_check _
    refine reads_tag len 10 ?_
    rw [← List.append_nil (lengthPrefixed _)]
    exact (reads_text len "json" hlen).bind hcheck

theorem reads_values (len : Nat) {values : List Value} (hfit : ∀ v ∈ values, serde.Fits v)
    (hcount : values.length < 2 ^ 32) :
    Reads (serde.readValues len) (encodeValues values) values := by
  have htimes := reads_times fun v hv => reads_decodeValue len (hfit v hv)
  rw [encodeValues, encodeGroupKey, Nat.mod_eq_of_lt hcount]
  exact (reads_le len 4 hcount).bind htimes

/-- A row of the registry: `Row::from_values` asserts that it has a value for each column. -/
structure RowOf (registry : ColumnRegistry) (row : Row) : Prop where
  same : row.registry = registry
  length : row.values.length = registry.names.length

theorem reads_row (len : Nat) {registry : ColumnRegistry} {row : Row} (hrow : RowOf registry row)
    (hfit : ∀ v ∈ row.values, serde.Fits v) :
    Reads (times (serde.decodeValue len) registry.names.length >>= fun values =>
        pure (⟨registry, values⟩ : Row))
      (row.values.flatMap encodeValue) row := by
  have htimes := reads_times fun v hv => reads_decodeValue len (hfit v hv)
  rw [hrow.length] at htimes
  have h := htimes.map fun values => (⟨registry, values⟩ : Row)
  rwa [← hrow.same] at h ⊢

theorem reads_rows {canReserve : Nat → Bool} (len : Nat) {registry : ColumnRegistry}
    {rows : List Row} (hne : rows ≠ []) (hrows : ∀ row ∈ rows, RowOf registry row)
    (hfit : ∀ row ∈ rows, ∀ v ∈ row.values, serde.Fits v)
    (hcols : registry.names.length < 2 ^ 16) (hcount : rows.length < 2 ^ 32)
    (hmemory : canReserve rows.length = true) :
    Reads (serde.readRows canReserve len registry) (encodeRows rows) rows := by
  cases rows with
  | nil => exact absurd rfl hne
  | cons row rest =>
    have htimes := reads_times fun r hr => reads_row len (hrows r hr) (hfit r hr)
    have hbody : Reads (do
        check (if registry.names.length ≠ registry.names.length then
            .error (.storage ("decode_rows: header column count " ++
              toString registry.names.length ++ " does not match registry length " ++
              toString registry.names.length))
          else if canReserve (rest.length + 1) then .ok ()
          else .error (.storage ("decode_rows: cannot allocate " ++ toString (rest.length + 1) ++
            " rows")))
        times (do
          let values ← times (serde.decodeValue len) registry.names.length
          pure (⟨registry, values⟩ : Row)) (rest.length + 1))
        ([] ++ (row :: rest).flatMap fun row => row.values.flatMap encodeValue)
        (row :: rest) := by
      have hok : canReserve (rest.length + 1) = true := hmemory
      rw [if_neg (by simp), if_pos hok]
      exact (reads_check ()).bind htimes
    rw [encodeRows, (hrows row List.mem_cons_self).same, Nat.mod_eq_of_lt hcols]
    have hcount' : rest.length + 1 < 2 ^ 32 := hcount
    rw [Nat.mod_eq_of_lt hcount']
    refine (reads_le len 4 hcount').bind ?_
    rw [if_neg (Nat.succ_ne_zero _)]
    exact (reads_le len 2 hcols).bind hbody

/-! ## What the readers accept -/

theorem local_readLe (len width : Nat) : Local (readLe len width) :=
  (local_take _ width).bind fun _ => Local.pure _

theorem local_readPayload (len : Nat) : Local (readPayload len) :=
  (local_readLe len 4).bind fun n => local_take _ n

theorem local_readText (len : Nat) (what : String) : Local (serde.readText len what) :=
  (local_readPayload len).bind fun _ => local_check _

theorem local_decodeValue (len : Nat) : Local (serde.decodeValue len) := by
  refine (local_readLe len 1).bind ?_
  intro tag
  -- the payload of each type
  split
  all_goals
    first
      | exact Local.pure _
      | exact local_check _
      | exact (local_readLe len _).bind fun _ => Local.pure _
      | exact (local_readText len _).bind fun _ => Local.pure _
      | exact (local_readText len _).bind fun _ => local_check _
      | exact (local_readPayload len).bind fun _ => Local.pure _
      | exact (local_take _ _).bind fun _ => Local.pure _

theorem local_readValues (len : Nat) : Local (serde.readValues len) :=
  (local_readLe len 4).bind fun n => local_times (local_decodeValue len) n

theorem local_readRows (canReserve : Nat → Bool) (len : Nat) (registry : ColumnRegistry) :
    Local (serde.readRows canReserve len registry) := by
  refine (local_readLe len 4).bind ?_
  intro numRows
  split
  · exact Local.pure _
  · refine (local_readLe len 2).bind fun numCols => (local_check _).bind fun _ => ?_
    refine local_times ?_ numRows
    exact (local_times (local_decodeValue len) numCols).bind fun _ => Local.pure _

/-! ## Rows from maps -/

theorem getElem?_lastId {registry : ColumnRegistry} {name : String} {id : Nat}
    (h : registry.lastId name = some id) : registry.names[id]? = some name := by
  unfold ColumnRegistry.lastId at h
  obtain ⟨e, he, rfl⟩ := Option.map_eq_some_iff.mp h
  obtain ⟨hmem, hname⟩ := List.mem_filter.mp (List.mem_of_getLast? he)
  rw [← eq_of_beq hname]
  exact List.mem_zipIdx_iff_getElem?.mp hmem

theorem lastId_of_nodup {registry : ColumnRegistry} (hd : registry.names.Nodup) {name : String}
    {i : Nat} (h : registry.names[i]? = some name) : registry.lastId name = some i := by
  cases hid : registry.lastId name with
  | none =>
    have hmem : (name, i) ∈ registry.names.zipIdx.filter fun e => e.1 == name :=
      List.mem_filter.mpr ⟨List.mem_zipIdx_iff_getElem?.mpr h, beq_self_eq_true name⟩
    have hnil := List.getLast?_eq_none_iff.mp (Option.map_eq_none_iff.mp hid)
    rw [hnil] at hmem
    cases hmem
  | some id =>
    have hlt : id < registry.names.length := (List.getElem?_eq_some_iff.mp (getElem?_lastId hid)).1
    rw [(List.getElem?_inj hlt hd).mp ((getElem?_lastId hid).trans h.symm)]

/-- The position of a column holds the value that the map has for it. -/
theorem getElem?_foldl_set {registry : ColumnRegistry} (hd : registry.names.Nodup)
    {entries : List (String × Value)} {values : List Value} {i : Nat} {name : String} {v : Value}
    (hi : registry.names[i]? = some name) (hone : ∀ e ∈ entries, e.1 = name → e.2 = v)
    (hv : values[i]? = some v ∨ i < values.length ∧ ∃ e ∈ entries, e.1 = name) :
    (entries.foldl (fun values e =>
      match registry.lastId e.1 with
      | some id => values.set id e.2
      | none => values) values)[i]? = some v := by
  induction entries generalizing values with
  | nil =>
    rcases hv with hv | ⟨-, e, he, -⟩
    · exact hv
    · cases he
  | cons e entries ih =>
    rw [List.foldl_cons]
    apply ih fun e' he' => hone e' (List.mem_cons_of_mem e he')
    by_cases hname : e.1 = name
    · -- the entry of this column is written here
      rw [hname, lastId_of_nodup hd hi]
      left
      have hlt : i < values.length := by
        rcases hv with hv | ⟨hlt, -⟩
        · exact (List.getElem?_eq_some_iff.mp hv).1
        · exact hlt
      rw [List.getElem?_set_self hlt, hone e List.mem_cons_self hname]
    · have hrest : values[i]? = some v ∨ i < values.length ∧ ∃ e' ∈ entries, e'.1 = name := by
        rcases hv with hv | ⟨hlt, e', he', hname'⟩
        · exact Or.inl hv
        · rcases List.mem_cons.mp he' with rfl | he'
          · exact absurd hname' hname
          · exact Or.inr ⟨hlt, e', he', hname'⟩
      split
      · next id hid =>
        -- another column: this position stays
        have hne : id ≠ i := by
          intro heq
          rw [heq] at hid
          have := (getElem?_lastId hid).symm.trans hi
          exact hname (Option.some.inj this)
        rw [List.getElem?_set_ne hne, List.length_set]
        exact hrest
      · exact hrest

theorem values_fromMap {registry : ColumnRegistry} (hd : registry.names.Nodup) (map : RowMap) :
    (Row.fromMap registry map).values = registry.names.map fun name => map[name]?.getD .null := by
  apply List.ext_getElem?
  intro i
  rw [List.getElem?_map]
  cases hi : registry.names[i]? with
  | none =>
    have hlen : (Row.fromMap registry map).values.length = registry.names.length := by
      have key : ∀ (entries : List (String × Value)) (values : List Value),
          (entries.foldl (fun values e =>
            match registry.lastId e.1 with
            | some id => values.set id e.2
            | none => values) values).length = values.length := by
        intro entries
        induction entries with
        | nil => exact fun _ => rfl
        | cons e entries ih =>
          intro values
          rw [List.foldl_cons, ih]
          split
          · exact List.length_set
          · rfl
      rw [Row.fromMap, key, List.length_map]
    rw [Option.map_none]
    apply List.getElem?_eq_none
    rw [hlen]
    exact List.getElem?_eq_none_iff.mp hi
  | some name =>
    rw [Option.map_some]
    apply getElem?_foldl_set hd hi
    · intro e he hname
      have hget := ExtTreeMap.mem_toList_iff_getElem?_eq_some.mp (show (e.1, e.2) ∈ _ from he)
      rw [hname] at hget
      rw [hget]
      rfl
    · have hnull : (registry.names.map fun _ => Value.null)[i]? = some .null := by
        rw [List.getElem?_map, hi]
        rfl
      cases hget : map[name]? with
      | none => exact Or.inl hnull
      | some v =>
        refine Or.inr ⟨(List.getElem?_eq_some_iff.mp hnull).1, (name, v), ?_, rfl⟩
        exact ExtTreeMap.mem_toList_iff_getElem?_eq_some.mpr hget

theorem encodeRowsFromMaps_eq {registry : ColumnRegistry} (hd : registry.names.Nodup)
    {maps : List RowMap} (hne : maps ≠ []) :
    encodeRowsFromMaps maps registry = encodeRows (maps.map (Row.fromMap registry)) := by
  cases maps with
  | nil => exact absurd rfl hne
  | cons map maps =>
    have hrow : ∀ map : RowMap, (Row.fromMap registry map).values.flatMap encodeValue
        = registry.names.flatMap fun name =>
          match map[name]? with
          | none => [0]
          | some value => encodeValue value := by
      intro map
      rw [values_fromMap hd, List.flatMap_map]
      congr 1
      funext name
      cases map[name]? with
      | none => rfl
      | some v => rfl
    rw [encodeRowsFromMaps, List.map_cons, encodeRows, List.length_map, List.length_cons,
      ← List.map_cons, List.flatMap_map]
    simp only [hrow]
    rfl

/-! ## The laws of the format -/

theorem encodeValue_ne_nil (v : Value) : encodeValue v ≠ [] := by
  cases v <;> exact List.cons_ne_nil _ _

/-- The count of the values does not matter for which values they are. -/
theorem encodeValues_inj {values values' : List Value} (hfit : ∀ v ∈ values, serde.Fits v)
    (hfit' : ∀ v ∈ values', serde.Fits v) (h : encodeValues values = encodeValues values') :
    values = values' := by
  have hlen : (le 4 (values.length % 2 ^ 32)).length
      = (le 4 (values'.length % 2 ^ 32)).length := by
    rw [length_le, length_le]
  have hrest := (List.append_inj h hlen).2
  exact flatMap_inj (fun v hv => reads_decodeValue 0 (hfit v hv))
    (fun v hv => reads_decodeValue 0 (hfit' v hv)) encodeValue_ne_nil hrest

theorem inRange_decodeRows (canReserve : Nat → Bool) (bytes : Bytes) (registry : ColumnRegistry) :
    InRange (serde.readRows canReserve bytes.length registry) bytes
      (serde.decodeRows canReserve bytes registry) := by
  unfold decodeRows
  split
  · next e _ => exact Or.inl ⟨e, rfl⟩
  · next rows rest hrun =>
    obtain ⟨used, hused, hreads⟩ := local_readRows canReserve bytes.length registry bytes rows rest hrun
    exact Or.inr ⟨rows, used, rest, rfl, hused, hreads⟩

/-- **The value and row formats.** Fewer than 2³² values, and rows of a registry of distinct names,
read back; a cut or an extension of an encoding is an error; encodings are injective; rows encode
from maps as they do from rows; and on arbitrary bytes each decoder gives an error, or what it made
of a part of its input. -/
theorem value_codecs (serde : JsonText) (canReserve : Nat → Bool) :
    (∀ values : List Value, (∀ v ∈ values, serde.Fits v) → values.length < 2 ^ 32 →
      Framed serde.decodeValues (encodeValues values) values) ∧
    (∀ v : Value, serde.Fits v → Framed serde.decodeValueBytes (encodeValueBytes v) v) ∧
    (∀ values values' : List Value, (∀ v ∈ values, serde.Fits v) → (∀ v ∈ values', serde.Fits v) →
      encodeValues values = encodeValues values' → values = values') ∧
    (∀ (registry : ColumnRegistry) (rows : List Row), rows ≠ [] → rows.length < 2 ^ 32 →
      registry.names.length < 2 ^ 16 → (∀ row ∈ rows, RowOf registry row) →
      (∀ row ∈ rows, ∀ v ∈ row.values, serde.Fits v) → canReserve rows.length = true →
      serde.decodeRows canReserve (encodeRows rows) registry = .ok rows) ∧
    (∀ (registry : ColumnRegistry) (maps : List RowMap), registry.names.Nodup → maps ≠ [] →
      encodeRowsFromMaps maps registry = encodeRows (maps.map (Row.fromMap registry))) ∧
    ∀ bytes : Bytes,
      InRange (serde.readValues bytes.length) bytes (serde.decodeValues bytes) ∧
      InRange (serde.decodeValue bytes.length) bytes (serde.decodeValueBytes bytes) ∧
      ∀ registry : ColumnRegistry, InRange (serde.readRows canReserve bytes.length registry) bytes
        (serde.decodeRows canReserve bytes registry) := by
  refine ⟨?_, ?_, ?_, ?_, ?_, ?_⟩
  · intro values hfit hcount
    exact framed_whole local_readValues fun len => reads_values len hfit hcount
  · intro v hfit
    exact framed_whole local_decodeValue fun len => reads_decodeValue len hfit
  · intro values values' hfit hfit' h
    exact encodeValues_inj hfit hfit' h
  · intro registry rows hne hcount hcols hrows hfit hmemory
    unfold decodeRows
    rw [(reads_rows _ hne hrows hfit hcols hcount hmemory).run]
  · intro registry maps hd hne
    exact encodeRowsFromMaps_eq hd hne
  · intro bytes
    refine ⟨inRange_whole (local_readValues _) bytes, inRange_whole (local_decodeValue _) bytes, ?_⟩
    intro registry
    exact inRange_decodeRows canReserve bytes registry

/-- `null` is the only JSON value. -/
def nullOnly : JsonText where
  Json := Unit
  toText _ := "null"
  fromText s := if s = "null" then .ok () else .error "expected null"
  fromText_toText _ := rfl
  utf8Error _ := "invalid utf-8 sequence"

/-- Two rows of one registry. -/
def twoRows : List Row :=
  [{ registry := ⟨["block_number", "note"]⟩, values := [.uint64 1, .json "null"] },
    { registry := ⟨["block_number", "note"]⟩, values := [.uint64 2, .null] }]

theorem value_codecs_null :
    nullOnly.decodeValues (encodeValues [.string "ab", .int64 (-1), .json "null", .bytes [0, 255]])
      = .ok [.string "ab", .int64 (-1), .json "null", .bytes [0, 255]] ∧
    nullOnly.decodeRows (fun _ => true) (encodeRows twoRows) ⟨["block_number", "note"]⟩
      = .ok twoRows := by
  have hnull : nullOnly.Fits (.json "null") := by
    refine ⟨?_, (), rfl⟩
    decide +kernel
  have hstring : nullOnly.Fits (.string "ab") := by
    show (utf8 "ab").length < 2 ^ 32
    decide +kernel
  have hbytes : nullOnly.Fits (.bytes [0, 255]) := by
    show [(0 : UInt8), 255].length < 2 ^ 32
    decide
  obtain ⟨hvalues, -, -, hrows, -⟩ := value_codecs nullOnly fun _ => true
  constructor
  · refine (hvalues _ ?_ (by decide)).back
    intro v hv
    simp only [List.mem_cons, List.not_mem_nil, or_false] at hv
    rcases hv with rfl | rfl | rfl | rfl
    · exact hstring
    · trivial
    · exact hnull
    · exact hbytes
  · apply hrows _ _ (List.cons_ne_nil _ _) (by decide) (by decide)
    · intro row hrow
      rcases List.mem_pair.mp hrow with rfl | rfl
      · exact ⟨rfl, rfl⟩
      · exact ⟨rfl, rfl⟩
    · intro row hrow v hv
      rcases List.mem_pair.mp hrow with rfl | rfl
      · rcases List.mem_pair.mp hv with rfl | rfl
        · trivial
        · exact hnull
      · rcases List.mem_pair.mp hv with rfl | rfl
        · trivial
        · trivial
    · rfl

/-- A count that wraps to zero reads back as no values. -/
theorem decodeValues_of_wrapped {values : List Value} (hne : values ≠ [])
    (hcount : values.length % 2 ^ 32 = 0) : serde.decodeValues (encodeValues values) ≠ .ok values := by
  intro h
  have hrun := whole_eq_ok h
  have hreads : Reads (serde.readValues (encodeValues values).length) (le 4 0) [] :=
    (reads_le _ 4 (by decide : 0 < 256 ^ 4)).bind (Reads.pure [])
  have henc : encodeValues values = le 4 0 ++ values.flatMap encodeValue := by
    rw [encodeValues, encodeGroupKey, hcount]
  rw [henc] at hrun hreads
  rw [hreads] at hrun
  injection hrun with hpair
  injection hpair with hnil _
  exact hne hnil.symm

/-- A row with a value for the column `x`. -/
def mapOfX : RowMap := (∅ : RowMap).insert "x" (.uint64 5)

theorem count_and_names_matter :
    nullOnly.decodeValues (encodeValues (List.replicate (2 ^ 32) .null))
      ≠ .ok (List.replicate (2 ^ 32) .null) ∧
    encodeRowsFromMaps [mapOfX] ⟨["x", "x"]⟩ ≠ encodeRows [Row.fromMap ⟨["x", "x"]⟩ mapOfX] := by
  constructor
  · apply decodeValues_of_wrapped
    · intro hnil
      have hlen := congrArg List.length hnil
      rw [List.length_replicate] at hlen
      cases hlen
    · rw [List.length_replicate, Nat.mod_self]
  · decide +kernel

end JsonText

end Settle
