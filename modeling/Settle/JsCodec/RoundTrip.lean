import Settle.JsCodec.Writer

/-!
# An ingest from JS and back

What `ingest` of `src/napi.rs` reads of the arrays of a writer: the used part by the header
(`readArrays`), and the joined strings as bytes or as UTF-16 (`readStrings`).

The decoder reads the slots in the order that they were put. `Left` is what is left at a cursor:
the ints, the string pieces and the values still to come; each read takes the first of its kind.
-/

namespace Settle

open Std

namespace JsCodec

variable {H : Type}

/-! ## UTF-16 -/

theorem toNat_valid (c : Char) : c.toNat < 0xd800 ∨ (0xdfff < c.toNat ∧ c.toNat < 0x110000) := c.valid

theorem fromUtf16Lossy_unit {u : UInt16} (us : List UInt16)
    (h : u.toNat < 0xd800 ∨ 0xdfff < u.toNat) :
    fromUtf16Lossy (u :: us) = Char.ofNat u.toNat :: fromUtf16Lossy us := by
  conv_lhs => unfold fromUtf16Lossy
  rw [if_pos (by simpa using h)]

theorem fromUtf16Lossy_pair {u v : UInt16} (us : List UInt16)
    (hu : 0xd800 ≤ u.toNat ∧ u.toNat < 0xdc00) (hv : 0xdc00 ≤ v.toNat ∧ v.toNat ≤ 0xdfff) :
    fromUtf16Lossy (u :: v :: us) =
      Char.ofNat (0x10000 + (u.toNat - 0xd800) * 0x400 + (v.toNat - 0xdc00)) ::
        fromUtf16Lossy us := by
  have hunit : ¬(u.toNat < 0xd800 ∨ 0xdfff < u.toNat) := by omega
  conv_lhs => unfold fromUtf16Lossy
  rw [if_neg (by simpa using hunit), if_pos hu.2]
  dsimp only
  rw [if_pos (by simpa using hv)]

/-- A character is read back from its units. -/
theorem fromUtf16Lossy_charUnits (c : Char) (us : List UInt16) :
    fromUtf16Lossy (charUnits c ++ us) = c :: fromUtf16Lossy us := by
  have hvalid := toNat_valid c
  have hc : Char.ofNat c.toNat = c := Char.ofNat_toNat c
  unfold charUnits
  generalize hn : c.toNat = n at *
  split
  · next hsmall =>
    have hunit : (UInt16.ofNat n).toNat = n := UInt16.toNat_ofNat_of_lt hsmall
    rw [List.singleton_append, fromUtf16Lossy_unit us (by omega), hunit, hc]
  · next hlarge =>
    dsimp only
    generalize hhigh : 0xd800 + (n - 0x10000) / 0x400 = high
    generalize hlow : 0xdc00 + (n - 0x10000) % 0x400 = low
    have htoHigh : (UInt16.ofNat high).toNat = high :=
      UInt16.toNat_ofNat_of_lt (by rw [UInt16.size]; omega)
    have htoLow : (UInt16.ofNat low).toNat = low :=
      UInt16.toNat_ofNat_of_lt (by rw [UInt16.size]; omega)
    have hpair : 0x10000 + (high - 0xd800) * 0x400 + (low - 0xdc00) = n := by omega
    rw [List.cons_append, List.singleton_append, fromUtf16Lossy_pair us (by omega) (by omega),
      htoHigh, htoLow, hpair, hc]

/-- **A well-formed string is read back.** -/
theorem fromUtf16Lossy_utf16 (s : String) : fromUtf16Lossy (utf16 s) = s.toList := by
  unfold utf16
  induction s.toList with
  | nil => rfl
  | cons c cs ih => rw [List.flatMap_cons, fromUtf16Lossy_charUnits, ih]

/-! ## What native code reads -/

/-- `read_strings`: the joined strings as bytes if all of them are ASCII. -/
def readStrings (units : List UInt16) : Strings :=
  if units.all fun u => u.toNat < 0x80 then .ascii (units.map fun u => UInt8.ofNat u.toNat)
  else .utf16 units

/-- `Arrays::read`: the used part of the arrays, by the header of the ints. -/
def readArrays (ints : List UInt32) (tags : List UInt8) (nums : List Number) :
    Read (List UInt32 × List UInt8 × List Number) :=
  match ints with
  | intCount :: slotCount :: _ =>
    if intCount.toNat < 2 ∨ ints.length < intCount.toNat ∨
        min tags.length nums.length < slotCount.toNat then
      .error (.error .headerRange)
    else
      .ok (ints.take intCount.toNat, tags.take slotCount.toNat, nums.take slotCount.toNat)
  | _ => .error (.error .noHeader)

/-- `decode_rows`, where `host` reads a host value. -/
def decodeRows (registry : String → Option ColumnRegistry) (host : H → Except String Value)
    (e : Writer.Encoded H) : Read (FxHashMap String (BTreeMap BlockNumber (List Row))) := do
  let (ints, tags, nums) ← readArrays e.ints e.tags e.nums
  let src ← Source.new (ints.drop 2) tags nums (readStrings e.strings) true
  src.decodeIngest registry fun i =>
    match e.others[i]? with
    | some h => host h
    | none => .error "host value out of range"

theorem ascii_piece {piece : List UInt16} (h : ∀ u ∈ piece, u.toNat < 0x80) :
    ((piece.map fun u => UInt8.ofNat u.toNat).map fun b => Char.ofNat b.toNat) =
      fromUtf16Lossy piece := by
  induction piece with
  | nil => rfl
  | cons u us ih =>
    have hu : u.toNat < 0x80 := h u (List.mem_cons_self ..)
    have hbyte : (UInt8.ofNat u.toNat).toNat = u.toNat :=
      UInt8.toNat_ofNat_of_lt (by rw [UInt8.size]; omega)
    rw [List.map_cons, List.map_cons, ih fun v hv => h v (List.mem_cons_of_mem _ hv), hbyte,
      fromUtf16Lossy_unit us (Or.inl (by omega))]

theorem length_readStrings (units : List UInt16) : (readStrings units).length = units.length := by
  unfold readStrings
  split
  · exact List.length_map ..
  · rfl

/-- A string is cut from the joined ones by its units. -/
theorem Source.string_ok {src : Source} {units piece rest : List UInt16} {c : Cursor}
    (hsrc : src.strings = readStrings units) (hlt : units.length < 2 ^ 32)
    (h : units.drop c.nextUnit = piece ++ rest) (hle : c.nextUnit ≤ units.length) :
    src.string piece.length c = .ok (String.ofList (fromUtf16Lossy piece),
      { c with nextUnit := c.nextUnit + piece.length }) := by
  have hlength : (units.drop c.nextUnit).length = (piece ++ rest).length := by rw [h]
  rw [List.length_drop, List.length_append] at hlength
  have hcut : (units.drop c.nextUnit).take piece.length = piece := by rw [h, List.take_left]
  unfold Source.string
  dsimp only
  rw [hsrc, length_readStrings, if_neg (by omega), if_neg (by omega)]
  by_cases hascii : (units.all fun u => u.toNat < 0x80) = true
  · have hpiece : ∀ u ∈ piece, u.toNat < 0x80 := by
      intro u hu
      have hmem : u ∈ units := List.mem_of_mem_drop (h ▸ List.mem_append_left rest hu)
      simpa using List.all_eq_true.mp hascii u hmem
    rw [readStrings, if_pos hascii]
    dsimp only
    rw [← List.map_drop, ← List.map_take, hcut, ascii_piece hpiece]
  · rw [readStrings, if_neg hascii]
    dsimp only
    rw [hcut]

/-! ## What native code is to get -/

/-- What native code reads of a JS value. -/
def JsValue.toValue (hostValue : H → Value) : JsValue H → Value
  | .undefined => .null
  | .null => .null
  | .number (.integer n _) =>
    if 0 ≤ n then .uint64 (UInt64.ofNat n.toNat) else .int64 (Int64.ofInt n)
  | .number .negZero => .uint64 0
  | .number (.float bits _) => .float64 bits
  | .string units => .string (String.ofList (fromUtf16Lossy units))
  | .boolean b => .boolean b
  | .host h => hostValue h

theorem toValue_number (hostValue : H → Value) (n : Number) :
    (JsValue.number n).toValue hostValue = n.toValue true := by
  cases n <;> rfl

/-- The UInt64 or Int64 of a safe integer is that integer. -/
theorem toValue_integer (hostValue : H → Value) (n : Int) (safe : n.natAbs ≤ maxSafeInteger) :
    (0 ≤ n → ∃ u : UInt64, (JsValue.number (.integer n safe)).toValue hostValue = .uint64 u ∧
      (u.toNat : Int) = n) ∧
    (n < 0 → ∃ i : Int64, (JsValue.number (.integer n safe)).toValue hostValue = .int64 i ∧
      i.toInt = n) := by
  have hsafe : n.natAbs < 2 ^ 53 := by
    unfold maxSafeInteger at safe
    omega
  refine ⟨fun hn => ⟨UInt64.ofNat n.toNat, if_pos hn, ?_⟩, fun hn => ⟨Int64.ofInt n, ?_, ?_⟩⟩
  · rw [UInt64.toNat_ofNat_of_lt' (by show n.toNat < 2 ^ 64; omega)]
    omega
  · exact if_neg (by omega)
  · exact Int64.toInt_ofInt_of_le (by omega) (by omega)

/-- The block number of a row, if it is a safe integer from 0 on. -/
def rowBlock (row : Writer.JsRow H) : Option BlockNumber :=
  match row "block_number" with
  | .number (.integer n _) => if 0 ≤ n then some (UInt64.ofNat n.toNat) else none
  | .number .negZero => some 0
  | _ => none

/-- A row by the columns of its table: Null for a column that it lacks. -/
def decodedRow (hostValue : H → Value) (registry : ColumnRegistry) (row : Writer.JsRow H) : Row where
  registry := registry
  values := registry.names.map fun name => (row name).toValue hostValue

/-- The rows of a block, in input order. -/
def blockRows (hostValue : H → Value) (registry : ColumnRegistry) (rows : List (Writer.JsRow H))
    (block : BlockNumber) : List Row :=
  (rows.filter fun row => rowBlock row = some block).map (decodedRow hostValue registry)

/-- A row added to those by block. -/
def addRow (hostValue : H → Value) (registry : ColumnRegistry)
    (byBlock : BTreeMap BlockNumber (List Row)) (row : Writer.JsRow H) :
    BTreeMap BlockNumber (List Row) :=
  let block := (rowBlock row).getD 0
  byBlock.insert block (byBlock[block]?.getD [] ++ [decodedRow hostValue registry row])

/-- A known table added to the data. -/
def addTable (hostValue : H → Value) (registry : String → Option ColumnRegistry)
    (data : FxHashMap String (BTreeMap BlockNumber (List Row))) (t : Writer.Table H) :
    FxHashMap String (BTreeMap BlockNumber (List Row)) :=
  match registry t.name with
  | some r => data.insert t.name (t.rows.foldl (addRow hostValue r) ∅)
  | none => data

theorem toValue_block {row : Writer.JsRow H} {block : BlockNumber} {hostValue : H → Value}
    (h : rowBlock row = some block) : (row "block_number").toValue hostValue = .uint64 block := by
  unfold rowBlock at h
  split at h
  · next n safe hrow =>
    rw [hrow]
    split at h
    · next hn =>
      rw [← Option.some.inj h]
      exact if_pos hn
    · cases h
  · next hrow =>
    rw [hrow, ← Option.some.inj h]
    rfl
  · cases h

/-! ## What is left to read -/

theorem drop_cons {α : Type} {l t : List α} {n : Nat} {a : α} (h : l.drop n = a :: t) :
    l[n]? = some a ∧ l.drop (n + 1) = t ∧ n + 1 ≤ l.length := by
  have hlength : (l.drop n).length = (a :: t).length := by rw [h]
  rw [List.length_drop, List.length_cons] at hlength
  refine ⟨?_, ?_, by omega⟩
  · rw [← List.head?_drop, h]
    rfl
  · rw [← List.tail_drop, h]
    rfl

/-- The number of an index or a length is read back. -/
theorem index_ofCount {n : Nat} (h : n < 2 ^ 32) : index (Number.ofCount n) = .ok n := by
  have hsafe : n ≤ maxSafeInteger := by
    unfold maxSafeInteger
    omega
  rw [Number.ofCount, dif_pos hsafe, Number.ofNat, index, if_pos (by omega)]
  rfl

/-- The source of a decoder, with the string units and the host values that it was made of. -/
structure Encodes (src : Source) (units : List UInt16) (others : List H) : Prop where
  strings : src.strings = readStrings units
  integers : src.integers = true
  units_lt : units.length < 2 ^ 32
  others_lt : others.length < 2 ^ 32

/-- What is left at a cursor: ints, strings without a slot, and values. -/
structure Left (src : Source) (all : List UInt16) (others : List H) (is : List UInt32)
    (names : List (List UInt16)) (vs : List (JsValue H)) (c : Cursor) : Prop where
  ints : src.ints.drop c.nextInt = is
  ints_le : c.nextInt ≤ src.ints.length
  tags : src.tags.drop c.nextSlot = vs.map JsValue.tag
  tags_le : c.nextSlot ≤ src.tags.length
  units : all.drop c.nextUnit = (names ++ vs.flatMap JsValue.strings).flatten
  units_le : c.nextUnit ≤ all.length
  /-- `k` host values are read -/
  slots : ∃ k, NumsOk k vs (src.nums.drop c.nextSlot) ∧ others.drop k = vs.flatMap JsValue.hosts

/-- The host values by their index, as `decodeRows` reads them. -/
def hostValues (hostValue : H → Value) (others : List H) : Others := fun i =>
  match others[i]? with
  | some h => .ok (hostValue h)
  | none => .error "host value out of range"

namespace Left

variable {src : Source} {units : List UInt16} {others : List H} {is : List UInt32}
  {names : List (List UInt16)} {vs : List (JsValue H)} {c : Cursor}

theorem int_ok {n : UInt32} (h : Left src units others (n :: is) names vs c) :
    ∃ c', src.int c = .ok (n, c') ∧ Left src units others is names vs c' := by
  obtain ⟨hget, hdrop, hle⟩ := drop_cons h.ints
  refine ⟨{ c with nextInt := c.nextInt + 1 }, ?_, ?_⟩
  · rw [Source.int, hget]
  · exact { h with ints := hdrop, ints_le := hle }

theorem count_ok {n : Nat} (hn : n < 2 ^ 32)
    (h : Left src units others (UInt32.ofNat n :: is) names vs c) :
    ∃ c', src.count c = .ok (n, c') ∧ Left src units others is names vs c' := by
  obtain ⟨c', hint, hleft⟩ := h.int_ok
  refine ⟨c', ?_, hleft⟩
  show (src.int c).bind _ = _
  rw [hint]
  show Except.ok ((UInt32.ofNat n).toNat, c') = _
  rw [UInt32.toNat_ofNat_of_lt' hn]

/-- The sizes of tables whose counts are 32-bit. -/
theorem readSizes_ok {tables : List (Writer.Table H)} {rest : List UInt32}
    (hfit : ∀ t ∈ tables, (utf16 t.name).length < 2 ^ 32 ∧ t.rows.length < 2 ^ 32 ∧
      t.columns.length + 1 < 2 ^ 32)
    (h : Left src units others (tables.flatMap Writer.Table.ints ++ rest) names vs c) :
    ∃ c', src.readSizes tables.length c = .ok (tables.map fun t =>
        ((utf16 t.name).length, t.rows.length, t.columns.length + 1), c') ∧
      Left src units others rest names vs c' := by
  induction tables generalizing c with
  | nil => exact ⟨c, rfl, h⟩
  | cons t tables ih =>
    obtain ⟨hname, hrows, hwidth⟩ := hfit t (List.mem_cons_self ..)
    obtain ⟨c₁, hname, h⟩ := count_ok hname h
    obtain ⟨c₂, hrows, h⟩ := count_ok hrows h
    obtain ⟨c₃, hwidth, h⟩ := count_ok hwidth h
    obtain ⟨c₄, hsizes, h⟩ := ih (fun u hu => hfit u (List.mem_cons_of_mem _ hu)) h
    refine ⟨c₄, ?_, h⟩
    show (src.count c).bind _ = _
    rw [hname]
    show (src.count c₁).bind _ = _
    rw [hrows]
    show (src.count c₂).bind _ = _
    rw [hwidth]
    show (src.readSizes tables.length c₃).bind _ = _
    rw [hsizes]
    rfl

variable (hsrc : Encodes src units others)
include hsrc

/-- The next string piece. -/
theorem string_ok {piece rest : List UInt16} (hle : c.nextUnit ≤ units.length)
    (h : units.drop c.nextUnit = piece ++ rest) :
    src.string piece.length c = .ok (String.ofList (fromUtf16Lossy piece),
        { c with nextUnit := c.nextUnit + piece.length }) ∧
      units.drop (c.nextUnit + piece.length) = rest ∧ c.nextUnit + piece.length ≤ units.length := by
  have hlength : (units.drop c.nextUnit).length = (piece ++ rest).length := by rw [h]
  rw [List.length_drop, List.length_append] at hlength
  refine ⟨Source.string_ok hsrc.strings hsrc.units_lt h hle, ?_, by omega⟩
  rw [← List.drop_drop, h, List.drop_left]

theorem name_ok {name : List UInt16} (h : Left src units others is (name :: names) vs c) :
    ∃ c', src.string name.length c = .ok (String.ofList (fromUtf16Lossy name), c') ∧
      Left src units others is names vs c' := by
  have hunits := h.units
  rw [List.cons_append, List.flatten_cons] at hunits
  obtain ⟨hstring, hdrop, hle⟩ := string_ok hsrc h.units_le hunits
  exact ⟨_, hstring, { h with units := hdrop, units_le := hle }⟩

theorem readNames_ok {tables : List (Writer.Table H)}
    (h : Left src units others is (tables.map (fun t => utf16 t.name) ++ names) vs c) :
    ∃ c', src.readNames (tables.map fun t =>
          ((utf16 t.name).length, t.rows.length, t.columns.length + 1)) c =
        .ok (tables.map fun t => (t.name, t.rows.length, t.columns.length + 1), c') ∧
      Left src units others is names vs c' := by
  induction tables generalizing c with
  | nil => exact ⟨c, rfl, h⟩
  | cons t tables ih =>
    obtain ⟨c₁, hname, h⟩ := name_ok hsrc h
    obtain ⟨c₂, hnames, h⟩ := ih h
    refine ⟨c₂, ?_, h⟩
    rw [fromUtf16Lossy_utf16, String.ofList_toList] at hname
    show (src.string (utf16 t.name).length c).bind _ = _
    rw [hname]
    show (src.readNames _ c₁).bind _ = _
    rw [hnames]
    rfl

/-- **The next slot reads as the next value.** -/
theorem value_ok {v : JsValue H} (hostValue : H → Value)
    (h : Left src units others is [] (v :: vs) c) :
    ∃ c', src.value (hostValues hostValue others) c = .ok (v.toValue hostValue, c') ∧
      Left src units others is [] vs c' := by
  obtain ⟨htag, htags, htags_le⟩ := drop_cons h.tags
  obtain ⟨k, hnums, hothers⟩ := h.slots
  cases hdrop : src.nums.drop c.nextSlot with
  | nil =>
    rw [hdrop] at hnums
    exact hnums.elim
  | cons x xs =>
    rw [hdrop] at hnums
    obtain ⟨hx, hxs⟩ := hnums
    obtain ⟨hnum, hnums, -⟩ := drop_cons hdrop
    have hunits := h.units
    rw [List.nil_append, List.flatMap_cons, List.flatten_append] at hunits
    rw [List.flatMap_cons] at hothers
    -- what a slot without a string and a host value leaves
    have hslot : v.strings = [] → v.hosts = [] →
        Left src units others is [] vs { c with nextSlot := c.nextSlot + 1 } := by
      intro hstrings hhosts
      rw [hstrings] at hunits
      rw [hhosts] at hothers hxs
      exact { h with
        tags := htags
        tags_le := htags_le
        units := hunits
        slots := ⟨k, hnums ▸ hxs, hothers⟩ }
    unfold Source.value
    rw [htag, hnum]
    cases v with
    | undefined => exact ⟨_, rfl, hslot rfl rfl⟩
    | null => exact ⟨_, rfl, hslot rfl rfl⟩
    | number n =>
      refine ⟨_, ?_, hslot rfl rfl⟩
      show Except.ok (x.toValue src.integers, _) = _
      rw [hsrc.integers, show x = n from hx, toValue_number]
    | boolean b => cases b with
      | true => exact ⟨_, rfl, hslot rfl rfl⟩
      | false => exact ⟨_, rfl, hslot rfl rfl⟩
    | string piece =>
      rw [show JsValue.strings (.string piece : JsValue H) = [piece] from rfl,
        List.flatten_singleton] at hunits
      obtain ⟨hstring, hrest, hle⟩ :=
        string_ok (c := { c with nextSlot := c.nextSlot + 1 }) hsrc h.units_le hunits
      have hpiece : piece.length < 2 ^ 32 := by
        have hunits_lt := hsrc.units_lt
        omega
      refine ⟨{ c with nextSlot := c.nextSlot + 1, nextUnit := c.nextUnit + piece.length }, ?_, ?_⟩
      · show (index x).bind _ = _
        rw [show x = Number.ofCount piece.length from hx, index_ofCount hpiece]
        show (src.string piece.length _).bind _ = _
        rw [hstring]
        rfl
      · exact { h with
          tags := htags
          tags_le := htags_le
          units := hrest
          units_le := hle
          slots := ⟨k, hnums ▸ hxs, hothers⟩ }
    | host x' =>
      obtain ⟨hget, hrest, hle⟩ := drop_cons hothers
      have hk : k < 2 ^ 32 := by
        have hothers_lt := hsrc.others_lt
        omega
      refine ⟨{ c with nextSlot := c.nextSlot + 1 }, ?_, ?_⟩
      · show (index x).bind _ = _
        rw [show x = Number.ofCount k from hx, index_ofCount hk]
        dsimp only [Except.bind]
        rw [hostValues, hget]
        rfl
      · exact { h with
          tags := htags
          tags_le := htags_le
          units := hunits
          slots := ⟨k + 1, hnums ▸ hxs, hrest⟩ }

theorem readValues_ok {us : List (JsValue H)} (hostValue : H → Value)
    (h : Left src units others is [] (us ++ vs) c) :
    ∃ c', src.readValues (hostValues hostValue others) us.length c =
        .ok (us.map (JsValue.toValue hostValue), c') ∧ Left src units others is [] vs c' := by
  induction us generalizing c with
  | nil => exact ⟨c, rfl, h⟩
  | cons u us ih =>
    obtain ⟨c₁, hvalue, h⟩ := value_ok hsrc hostValue h
    obtain ⟨c₂, hvalues, h⟩ := ih h
    refine ⟨c₂, ?_, h⟩
    show (src.value _ c).bind _ = _
    rw [hvalue]
    show (src.readValues _ us.length c₁).bind _ = _
    rw [hvalues]
    rfl

/-- The rows of a table, in the order that they were put. -/
theorem readRows_ok {rows : List (Writer.JsRow H)} (hostValue : H → Value) (table : String)
    (registry : ColumnRegistry) (hblocks : ∀ row ∈ rows, (rowBlock row).isSome)
    (byBlock : BTreeMap BlockNumber (List Row))
    (h : Left src units others is []
      (rows.flatMap (Writer.rowValues registry.names) ++ vs) c) :
    ∃ c', src.readRows (hostValues hostValue others) table registry rows.length byBlock c =
        .ok (rows.foldl (addRow hostValue registry) byBlock, c') ∧
      Left src units others is [] vs c' := by
  induction rows generalizing byBlock c with
  | nil => exact ⟨c, rfl, h⟩
  | cons row rows ih =>
    obtain ⟨b, hb⟩ := Option.isSome_iff_exists.mp (hblocks row (List.mem_cons_self ..))
    rw [List.flatMap_cons, List.append_assoc, Writer.rowValues, List.map_cons, List.cons_append] at h
    obtain ⟨c₁, hnumber, h⟩ := value_ok hsrc hostValue h
    obtain ⟨c₂, hvalues, h⟩ := readValues_ok hsrc hostValue h
    obtain ⟨c₃, hrows, h⟩ := ih (fun row hrow => hblocks row (List.mem_cons_of_mem _ hrow))
      (addRow hostValue registry byBlock row) h
    refine ⟨c₃, ?_, h⟩
    have hadd : addRow hostValue registry byBlock row =
        byBlock.insert b (byBlock[b]?.getD [] ++ [decodedRow hostValue registry row]) := by
      rw [addRow, hb]
      rfl
    rw [List.length_map, List.map_map] at hvalues
    rw [toValue_block hb] at hnumber
    rw [hadd] at hrows
    rw [List.foldl_cons, hadd]
    show (src.value _ c).bind _ = _
    rw [hnumber]
    show (src.readValues _ registry.names.length c₁).bind _ = _
    rw [hvalues]
    exact hrows

/-- The tables, all of them known. -/
theorem readTables_ok {tables : List (Writer.Table H)} (hostValue : H → Value)
    {registry : String → Option ColumnRegistry}
    (hknown : ∀ t ∈ tables, ∃ r, registry t.name = some r ∧ t.columns = r.names)
    (hblocks : ∀ t ∈ tables, ∀ row ∈ t.rows, (rowBlock row).isSome)
    (data : FxHashMap String (BTreeMap BlockNumber (List Row)))
    (h : Left src units others is [] (tables.flatMap Writer.Table.values ++ vs) c) :
    ∃ c', src.readTables (hostValues hostValue others) registry
          (tables.map fun t => (t.name, t.rows.length, t.columns.length + 1)) data c =
        .ok (tables.foldl (addTable hostValue registry) data, c') ∧
      Left src units others is [] vs c' := by
  induction tables generalizing data c with
  | nil => exact ⟨c, rfl, h⟩
  | cons t tables ih =>
    obtain ⟨r, hr, hcolumns⟩ := hknown t (List.mem_cons_self ..)
    rw [List.flatMap_cons, List.append_assoc, Writer.Table.values, hcolumns] at h
    obtain ⟨c₁, hrows, h⟩ := readRows_ok hsrc hostValue t.name r
      (hblocks t (List.mem_cons_self ..)) ∅ h
    obtain ⟨c₂, htables, h⟩ := ih (fun u hu => hknown u (List.mem_cons_of_mem _ hu))
      (fun u hu => hblocks u (List.mem_cons_of_mem _ hu)) (addTable hostValue registry data t) h
    refine ⟨c₂, ?_, h⟩
    have hadd : addTable hostValue registry data t =
        data.insert t.name (t.rows.foldl (addRow hostValue r) ∅) := by
      rw [addTable, hr]
    rw [hadd] at htables
    rw [List.foldl_cons, hadd, List.map_cons, Source.readTables, hr]
    dsimp only
    rw [if_neg (by rw [hcolumns]; simp)]
    show (src.readRows _ t.name r t.rows.length ∅ c).bind _ = _
    rw [hrows]
    exact htables

end Left

/-! ## The rows by block -/

section

variable (hostValue : H → Value)

theorem blockRows_cons (registry : ColumnRegistry) (row : Writer.JsRow H)
    (rows : List (Writer.JsRow H)) (block : BlockNumber) :
    blockRows hostValue registry (row :: rows) block =
      (if rowBlock row = some block then [decodedRow hostValue registry row] else []) ++
        blockRows hostValue registry rows block := by
  unfold blockRows
  by_cases h : rowBlock row = some block
  · rw [List.filter_cons_of_pos (by simpa using h), if_pos h]
    rfl
  · rw [List.filter_cons_of_neg (by simpa using h), if_neg h]
    rfl

/-- Each row goes after the rows of its block, and to no other block. -/
theorem foldl_addRow {registry : ColumnRegistry} {rows : List (Writer.JsRow H)}
    (hblocks : ∀ row ∈ rows, (rowBlock row).isSome) (byBlock : BTreeMap BlockNumber (List Row))
    (block : BlockNumber) :
    (rows.foldl (addRow hostValue registry) byBlock)[block]? =
      if blockRows hostValue registry rows block = [] then byBlock[block]?
      else some (byBlock[block]?.getD [] ++ blockRows hostValue registry rows block) := by
  induction rows generalizing byBlock with
  | nil => rfl
  | cons row rows ih =>
    obtain ⟨b, hb⟩ := Option.isSome_iff_exists.mp (hblocks row (List.mem_cons_self ..))
    have hadd : addRow hostValue registry byBlock row =
        byBlock.insert b (byBlock[b]?.getD [] ++ [decodedRow hostValue registry row]) := by
      rw [addRow, hb]
      rfl
    rw [List.foldl_cons, hadd, ih fun row hrow => hblocks row (List.mem_cons_of_mem _ hrow),
      blockRows_cons, hb]
    by_cases hblock : b = block
    · subst hblock
      have hne : [decodedRow hostValue registry row] ++ blockRows hostValue registry rows b ≠ [] :=
        List.cons_ne_nil _ _
      rw [ExtTreeMap.getElem?_insert_self, if_pos rfl, Option.getD_some, if_neg hne]
      by_cases hrest : blockRows hostValue registry rows b = []
      · rw [if_pos hrest, hrest, List.append_nil]
      · rw [if_neg hrest, List.append_assoc]
    · have hne : ¬compare b block = .eq := fun h => hblock (Std.compare_eq_iff_eq.mp h)
      have hsome : ¬some b = some block := fun h => hblock (Option.some.inj h)
      rw [ExtTreeMap.getElem?_insert, if_neg hne, if_neg hsome]
      rfl

variable (registry : String → Option ColumnRegistry)

theorem foldl_addTable_other {tables : List (Writer.Table H)} {name : String}
    (h : ∀ t ∈ tables, t.name ≠ name) (data : FxHashMap String (BTreeMap BlockNumber (List Row))) :
    (tables.foldl (addTable hostValue registry) data)[name]? = data[name]? := by
  induction tables generalizing data with
  | nil => rfl
  | cons t tables ih =>
    rw [List.foldl_cons, ih fun u hu => h u (List.mem_cons_of_mem _ hu)]
    unfold addTable
    split
    · have hne : ¬compare t.name name = .eq := fun heq =>
        h t (List.mem_cons_self ..) (Std.compare_eq_iff_eq.mp heq)
      rw [ExtTreeMap.getElem?_insert, if_neg hne]
    · rfl

/-- Each table has its own rows. -/
theorem foldl_addTable {tables : List (Writer.Table H)}
    (hnodup : (tables.map Writer.Table.name).Nodup) {t : Writer.Table H} (ht : t ∈ tables)
    {r : ColumnRegistry} (hr : registry t.name = some r)
    (data : FxHashMap String (BTreeMap BlockNumber (List Row))) :
    (tables.foldl (addTable hostValue registry) data)[t.name]? =
      some (t.rows.foldl (addRow hostValue r) ∅) := by
  induction tables generalizing data with
  | nil => cases ht
  | cons u tables ih =>
    rw [List.map_cons, List.nodup_cons] at hnodup
    rw [List.foldl_cons]
    cases ht with
    | head =>
      have hother : ∀ u ∈ tables, u.name ≠ t.name := fun u hu heq =>
        hnodup.1 (heq ▸ List.mem_map_of_mem hu)
      rw [foldl_addTable_other hostValue registry hother, addTable, hr]
      exact ExtTreeMap.getElem?_insert_self
    | tail _ ht => exact ih hnodup.2 ht _

end

/-! ## An encode and a decode -/

theorem length_flatMap_of_mem {α β : Type} {l : List α} {a : α} (f : α → List β) (h : a ∈ l) :
    (f a).length ≤ (l.flatMap f).length := by
  rw [List.flatMap_def]
  exact (List.sublist_flatten_of_mem (List.mem_map_of_mem h)).length_le

theorem length_le_flatMap {α β : Type} {l : List α} {f : α → List β} (h : ∀ a, 1 ≤ (f a).length) :
    l.length ≤ (l.flatMap f).length := by
  induction l with
  | nil => exact Nat.le_refl 0
  | cons a l ih =>
    have ha := h a
    rw [List.flatMap_cons, List.length_append, List.length_cons]
    omega

theorem length_hosts (vs : List (JsValue H)) : (vs.flatMap JsValue.hosts).length ≤ vs.length := by
  induction vs with
  | nil => exact Nat.le_refl 0
  | cons v vs ih =>
    have hv : v.hosts.length ≤ 1 := by cases v <;> simp [JsValue.hosts]
    rw [List.flatMap_cons, List.length_append, List.length_cons]
    omega

theorem readArrays_ok {ints : List UInt32} {tags : List UInt8} {nums : List Number} {a b : UInt32}
    (ha : ints[0]? = some a) (hb : ints[1]? = some b) (htwo : 2 ≤ a.toNat)
    (hints : a.toNat ≤ ints.length) (htags : b.toNat ≤ tags.length)
    (hnums : b.toNat ≤ nums.length) :
    readArrays ints tags nums =
      .ok (ints.take a.toNat, tags.take b.toNat, nums.take b.toNat) := by
  unfold readArrays
  match ints with
  | [] => cases ha
  | [_] => cases hb
  | x :: y :: rest =>
    cases ha
    cases hb
    exact if_neg (by omega)

theorem Left.finish_ok {src : Source} {units : List UInt16} {others : List H} {c : Cursor}
    (hsrc : Encodes src units others) (h : Left src units others [] [] [] c) :
    src.finish c = .ok () := by
  have hints := List.drop_eq_nil_iff.mp h.ints
  have htags := List.drop_eq_nil_iff.mp h.tags
  have hunits := List.drop_eq_nil_iff.mp h.units
  have hints_le := h.ints_le
  have htags_le := h.tags_le
  have hunits_le := h.units_le
  unfold Source.finish
  rw [hsrc.strings, length_readStrings]
  exact if_pos ⟨by omega, by omega, by omega⟩

section

variable {w : Writer H} {tables : List (Writer.Table H)}

/-- The used part of the arrays, as a source. -/
def Writer.source (w : Writer H) : Source where
  tags := w.usedTags
  nums := w.usedNums
  ints := w.usedInts.drop 2
  strings := readStrings w.strings.flatten
  integers := true

/-- What a call wrote is what is left at the start. -/
theorem left_source {is : List UInt32} {names : List (List UInt16)} {vs : List (JsValue H)}
    (h : w.Wrote is names vs) :
    Left w.source w.strings.flatten w.others is names vs {} where
  ints := h.ints
  ints_le := Nat.zero_le _
  tags := h.tags
  tags_le := Nat.zero_le _
  units := by rw [List.drop_zero, h.strings]
  units_le := Nat.zero_le _
  slots := ⟨0, h.nums, h.others⟩

variable (hostValue : H → Value) {registry : String → Option ColumnRegistry}

/-- **A decode of what was written reads all of it.** -/
theorem decodeIngest_source
    (h : w.Wrote (UInt32.ofNat tables.length :: tables.flatMap Writer.Table.ints)
      (tables.map fun t => utf16 t.name) (tables.flatMap Writer.Table.values))
    (hints : w.intCount < 2 ^ 32) (hslots_lt : w.slots < 2 ^ 32)
    (hunits : w.strings.flatten.length < 2 ^ 32)
    (hknown : ∀ t ∈ tables, ∃ r, registry t.name = some r ∧ t.columns = r.names)
    (hcolumns : ∀ t ∈ tables, t.columns.length + 1 < 2 ^ 32)
    (hblocks : ∀ t ∈ tables, ∀ row ∈ t.rows, (rowBlock row).isSome) :
    w.source.decodeIngest registry (hostValues hostValue w.others) =
      .ok (tables.foldl (addTable hostValue registry) ∅) := by
  have hslots := h.slots_eq
  have hslots_le := h.slots_le
  have hcount := h.intCount
  have hcount_le := h.intCount_le
  rw [List.length_cons] at hcount
  have hothers : w.others.length < 2 ^ 32 := by
    have hle := length_hosts (tables.flatMap Writer.Table.values)
    rw [h.others]
    omega
  have hsrc : Encodes w.source w.strings.flatten w.others := ⟨rfl, rfl, hunits, hothers⟩
  have htables : tables.length < 2 ^ 32 := by
    have hle : tables.length ≤ (tables.flatMap Writer.Table.ints).length :=
      length_le_flatMap fun _ => by simp [Writer.Table.ints]
    omega
  have hfit : ∀ t ∈ tables, (utf16 t.name).length < 2 ^ 32 ∧ t.rows.length < 2 ^ 32 ∧
      t.columns.length + 1 < 2 ^ 32 := by
    intro t ht
    refine ⟨?_, ?_, hcolumns t ht⟩
    · have hmem : utf16 t.name ∈ w.strings := by
        rw [h.strings]
        exact List.mem_append_left _ (List.mem_map_of_mem (f := fun t => utf16 t.name) ht)
      have hle := (List.sublist_flatten_of_mem hmem).length_le
      omega
    · have hrows : t.rows.length ≤ t.values.length :=
        length_le_flatMap fun row => by simp [Writer.rowValues]
      have hle := length_flatMap_of_mem Writer.Table.values ht
      omega
  obtain ⟨c₁, hcount, hleft⟩ := (left_source h).count_ok htables
  rw [← List.append_nil (tables.flatMap Writer.Table.ints)] at hleft
  obtain ⟨c₂, hsizes, hleft⟩ := hleft.readSizes_ok hfit
  rw [← List.append_nil (tables.map _)] at hleft
  obtain ⟨c₃, hnames, hleft⟩ := Left.readNames_ok hsrc hleft
  rw [← List.append_nil (tables.flatMap Writer.Table.values)] at hleft
  obtain ⟨c₄, hdata, hleft⟩ := Left.readTables_ok hsrc hostValue hknown hblocks ∅ hleft
  show (w.source.count {}).bind _ = _
  rw [hcount]
  show (w.source.readSizes _ c₁).bind _ = _
  rw [hsizes]
  show (w.source.readNames _ c₂).bind _ = _
  rw [hnames]
  show (w.source.readTables _ _ _ ∅ c₃).bind _ = _
  rw [hdata]
  show (w.source.finish c₄).bind _ = _
  rw [hleft.finish_ok hsrc]
  rfl

/-- The header cuts the used part out of the arrays. -/
theorem decodeRows_wrote {is : List UInt32} {names : List (List UInt16)} {vs : List (JsValue H)}
    (h : w.Wrote is names vs) (hints : w.intCount < 2 ^ 32) (hslots_lt : w.slots < 2 ^ 32)
    (hintCount : w.ints[0]? = some (UInt32.ofNat w.intCount))
    (hslots : w.ints[1]? = some (UInt32.ofNat w.slots)) :
    decodeRows registry (fun x => .ok (hostValue x))
        { ints := w.ints
          tags := w.tags
          nums := w.nums
          strings := w.strings.flatten
          others := w.others } =
      w.source.decodeIngest registry (hostValues hostValue w.others) := by
  have hcount_le := h.intCount_le
  have hslots_le := h.slots_le
  have hnums_length := h.nums_length
  have hcount := h.intCount
  have hcountNat : (UInt32.ofNat w.intCount).toNat = w.intCount :=
    UInt32.toNat_ofNat_of_lt' (by rw [UInt32.size]; omega)
  have hslotsNat : (UInt32.ofNat w.slots).toNat = w.slots :=
    UInt32.toNat_ofNat_of_lt' (by rw [UInt32.size]; omega)
  have hread := @readArrays_ok w.ints w.tags w.nums _ _ hintCount hslots
    (by omega) (by omega) (by omega) (by omega)
  rw [hcountNat, hslotsNat] at hread
  have hnew : Source.new (w.usedInts.drop 2) w.usedTags w.usedNums
      (readStrings w.strings.flatten) true = .ok w.source := by
    refine if_neg (not_not_intro ?_)
    rw [Writer.usedTags, Writer.usedNums, List.length_take, List.length_take, hnums_length]
  unfold decodeRows
  dsimp only
  rw [hread]
  show (Source.new (w.usedInts.drop 2) w.usedTags w.usedNums _ true).bind _ = _
  rw [hnew]
  rfl

/-- The columns of a known table, as JS asks for them. -/
def columnsOf (registry : String → Option ColumnRegistry) (name : String) : Option (List String) :=
  (registry name).map ColumnRegistry.names

/-- The known tables of the data. -/
def tablesOf (registry : String → Option ColumnRegistry)
    (data : List (String × List (Writer.JsRow H))) : List (Writer.Table H) :=
  data.filterMap fun t => (columnsOf registry t.1).map fun columns =>
    { name := t.1, rows := t.2, columns := columns }

theorem mem_tablesOf {data : List (String × List (Writer.JsRow H))} {t : Writer.Table H} :
    t ∈ tablesOf registry data ↔ ∃ r, registry t.name = some r ∧ t.columns = r.names ∧
      (t.name, t.rows) ∈ data := by
  unfold tablesOf columnsOf
  rw [List.mem_filterMap]
  constructor
  · intro ⟨u, hu, ht⟩
    cases hr : registry u.1 with
    | none =>
      rw [hr] at ht
      cases ht
    | some r =>
      rw [hr] at ht
      obtain rfl := Option.some.inj ht
      exact ⟨r, hr, rfl, hu⟩
  · intro ⟨r, hr, hcolumns, hdata⟩
    refine ⟨(t.name, t.rows), hdata, ?_⟩
    dsimp only
    rw [hr]
    show some ({ name := t.name, rows := t.rows, columns := r.names } : Writer.Table H) = some t
    rw [← hcolumns]

theorem nodup_tablesOf {data : List (String × List (Writer.JsRow H))}
    (h : (data.map Prod.fst).Nodup) :
    ((tablesOf registry data).map Writer.Table.name).Nodup := by
  refine List.Nodup.sublist ?_ h
  unfold tablesOf
  induction data with
  | nil => exact List.Sublist.refl _
  | cons t data ih =>
    have hsub := ih (List.nodup_cons.mp (List.map_cons ▸ h)).2
    rw [List.filterMap_cons]
    cases columnsOf registry t.1 with
    | none => exact hsub.cons _
    | some columns => exact hsub.cons_cons _

/-- **An ingest reads what was written.** On a writer after any number of calls, an encode of data
without rows for unknown tables decodes to the rows of each known table by block, in input order,
and nothing else; a well-formed string and a safe integer stay themselves. Past the round trip, no arrays make a decode
index out of range. The counts of used ints, slots and string units are below 2^32. -/
theorem ingest_codec (hw : w.Reachable) {data : List (String × List (Writer.JsRow H))}
    (hkeys : (data.map Prod.fst).Nodup)
    (hunknown : ∀ t ∈ data, registry t.1 = none → t.2 = [])
    (hblocks : ∀ t ∈ data, ∀ row ∈ t.2, (rowBlock row).isSome)
    (hcolumns : ∀ name r, registry name = some r → r.names.length ≤ 2 ^ 16)
    (hints : (w.encode (columnsOf registry) data).1.intCount < 2 ^ 32)
    (hslots : (w.encode (columnsOf registry) data).1.slots < 2 ^ 32)
    (hunits : (w.encode (columnsOf registry) data).1.strings.flatten.length < 2 ^ 32) :
    (∃ e result, (w.encode (columnsOf registry) data).2 = .ok e ∧
      decodeRows registry (fun x => .ok (hostValue x)) e = .ok result ∧
      (∀ t ∈ data, ∀ r, registry t.1 = some r → ∃ byBlock, result[t.1]? = some byBlock ∧
        ∀ block, byBlock[block]? = if blockRows hostValue r t.2 block = [] then none
          else some (blockRows hostValue r t.2 block)) ∧
      ∀ name, (∀ t ∈ data, t.1 = name → registry name = none) → result[name]? = none) ∧
    (∀ s, (JsValue.string (utf16 s)).toValue hostValue = .string s) ∧
    (∀ n safe,
      (0 ≤ n → ∃ u : UInt64, (JsValue.number (.integer n safe)).toValue hostValue = .uint64 u ∧
        (u.toNat : Int) = n) ∧
      (n < 0 → ∃ i : Int64, (JsValue.number (.integer n safe)).toValue hostValue = .int64 i ∧
        i.toInt = n)) ∧
    ∀ ints tags nums strings integers src, Source.new ints tags nums strings integers = .ok src →
      ∀ others, (∀ registry, NoPanic (src.decodeIngest registry others)) ∧
        ∀ columns order groups emits,
          (∀ g ∈ groups, g.start ≤ g.stop ∧ g.stop ≤ order.length) →
          NoPanic (src.decodeGroupResults columns order groups emits others) := by
  refine ⟨?_, ?_, toValue_integer hostValue, ?_⟩
  · have htables : Writer.knownTables (columnsOf registry) data = .ok (tablesOf registry data) := by
      refine Writer.knownTables_eq fun t ht hnone => hunknown t ht ?_
      exact Option.map_eq_none_iff.mp hnone
    obtain ⟨w', hencode, hwrote, hintCount, hslotCount⟩ := Writer.encode_wrote hw.inv htables
    rw [hencode] at hints hslots hunits ⊢
    refine ⟨_, (tablesOf registry data).foldl (addTable hostValue registry) ∅, rfl, ?_, ?_, ?_⟩
    · rw [decodeRows_wrote hostValue hwrote hints hslots hintCount hslotCount]
      refine decodeIngest_source hostValue hwrote hints hslots hunits ?_ ?_ ?_
      · intro t ht
        obtain ⟨r, hr, hcolumns, -⟩ := mem_tablesOf.mp ht
        exact ⟨r, hr, hcolumns⟩
      · intro t ht
        obtain ⟨r, hr, hnames, -⟩ := mem_tablesOf.mp ht
        have hle := hcolumns t.name r hr
        rw [hnames]
        omega
      · intro t ht
        obtain ⟨r, -, -, hdata⟩ := mem_tablesOf.mp ht
        exact hblocks _ hdata
    · intro t ht r hr
      have hmem : ({ name := t.1, rows := t.2, columns := r.names } : Writer.Table H) ∈
          tablesOf registry data := mem_tablesOf.mpr ⟨r, hr, rfl, ht⟩
      refine ⟨_, foldl_addTable hostValue registry (nodup_tablesOf hkeys) hmem hr ∅, ?_⟩
      intro block
      rw [foldl_addRow hostValue (hblocks t ht) ∅ block, ExtTreeMap.getElem?_empty]
      rfl
    · intro name hname
      rw [foldl_addTable_other hostValue registry ?_ ∅]
      · exact ExtTreeMap.getElem?_empty
      · intro t ht heq
        obtain ⟨r, hr, -, hdata⟩ := mem_tablesOf.mp ht
        rw [heq, hname _ hdata heq] at hr
        cases hr
  · intro s
    show Value.string (String.ofList (fromUtf16Lossy (utf16 s))) = _
    rw [fromUtf16Lossy_utf16, String.ofList_toList]
  · intro ints tags nums strings integers src hsrc others
    have hlength : src.tags.length = src.nums.length := by
      unfold Source.new at hsrc
      split at hsrc
      · cases hsrc
      · next h =>
        cases hsrc
        exact not_not.mp h
    exact ⟨Source.decodeIngest_noPanic hlength others,
      fun columns order groups emits hgroups =>
        Source.decodeGroupResults_noPanic hlength others columns order hgroups emits⟩

end

/-- Three rows of block 7, with a text, no note and a negative number, on a writer that wrote a
longer table before. -/
theorem ingest_codec_notes :
    let registry : String → Option ColumnRegistry := fun name =>
      if name = "notes" then some { names := ["note"] } else none
    let block : JsValue Unit := .number (.ofCount 7)
    let row (note : JsValue Unit) : Writer.JsRow Unit := fun name =>
      if name = "block_number" then block else if name = "note" then note else .undefined
    let data := [("notes", [row (.string [0xe9]), row .undefined,
      row (.number (.integer (-3) (by decide)))])]
    let earlier := [("notes", List.replicate 3 (row (.string [0x61, 0x62])))]
    let w := ((Writer.new : Writer Unit).encode (columnsOf registry) earlier).1
    ∃ e result byBlock, (w.encode (columnsOf registry) data).2 = .ok e ∧
      decodeRows registry (fun _ => .ok .null) e = .ok result ∧ result["notes"]? = some byBlock ∧
      byBlock[(7 : BlockNumber)]? = some
        [{ registry := { names := ["note"] }, values := [.string "é"] },
          { registry := { names := ["note"] }, values := [.null] },
          { registry := { names := ["note"] }, values := [.int64 (-3)] }] := by
  intro registry block row data earlier w
  have hw : w.Reachable := .encode _ _ .new
  obtain ⟨⟨e, result, he, hresult, htables, -⟩, -⟩ :=
    @ingest_codec Unit w (fun _ => .null) registry hw data (List.nodup_singleton _)
      (by simp [data, registry]) (by simp [data, row, block]; decide) (by
        intro name r hr
        simp only [registry] at hr
        split at hr
        · rw [← Option.some.inj hr]
          decide
        · cases hr)
      (by decide +kernel) (by decide +kernel) (by decide +kernel)
  obtain ⟨byBlock, hbyBlock, hblock⟩ :=
    htables _ (List.mem_singleton_self _) { names := ["note"] } (if_pos rfl)
  refine ⟨e, result, byBlock, he, hresult, hbyBlock, ?_⟩
  rw [hblock 7]
  decide +kernel

end JsCodec

end Settle
