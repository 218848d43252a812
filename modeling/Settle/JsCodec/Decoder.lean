import Settle.Engine.Reducer

/-!
# Values from JS

The decoder of `src/js_codec/mod.rs`: it reads ints, slots and string units in order, and from them
the rows of an ingest (`decodeIngest`) or the results of a reducer callback (`decodeGroupResults`).

An index out of range is a panic. Whatever the arrays hold, neither decoder panics
(`decodeIngest_noPanic`, `decodeGroupResults_noPanic`): each read is checked, and the two arrays of
a slot have one length.
-/

namespace Settle

namespace JsCodec

/-! ## Numbers -/

/-- 2^53 - 1, the largest integer that a JS number holds exactly. -/
def maxSafeInteger : Nat := 9007199254740991

/-- Whether the `f64` of these bits is a safe integer: the fraction bits past its exponent are 0. -/
def isSafeInteger (bits : UInt64) : Bool :=
  let e := bits.toNat / 2 ^ 52 % 2048
  let m := bits.toNat % 2 ^ 52
  (e = 0 && m = 0) || (1023 ≤ e && e ≤ 1075 && m % 2 ^ (1075 - e) = 0)

/-- A JS number: a safe integer, negative zero, or the bits of another float. -/
inductive Number where
  | integer (n : Int) (safe : n.natAbs ≤ maxSafeInteger)
  | negZero
  | float (bits : UInt64) (other : isSafeInteger bits = false)
deriving DecidableEq

instance : Inhabited Number := ⟨.integer 0 (Nat.zero_le _)⟩

/-- A count as a JS number. -/
def Number.ofNat (n : Nat) (h : n ≤ maxSafeInteger) : Number := .integer n (by simpa using h)

/-- `m >> s`, rounded to nearest, ties to even. -/
def roundShift (m s : Nat) : Nat :=
  let q := m / 2 ^ s
  let r := m % 2 ^ s
  if 2 ^ s < 2 * r ∨ (2 * r = 2 ^ s ∧ q % 2 = 1) then q + 1 else q

/-- `as f64` of an unsigned integer, as bits. -/
def f64OfNat (m : Nat) : UInt64 :=
  if m = 0 then 0
  else
    let e := Nat.log2 m
    let q := if e ≤ 52 then m * 2 ^ (52 - e) else roundShift m (e - 52)
    UInt64.ofNat ((e + 1023) * 2 ^ 52 + (q - 2 ^ 52))

/-- `as f64` of a signed integer, as bits. -/
def f64OfInt (n : Int) : UInt64 :=
  if n < 0 then UInt64.ofNat ((f64OfNat n.natAbs).toNat + 2 ^ 63) else f64OfNat n.natAbs

def Number.bits : Number → UInt64
  | .integer n _ => f64OfInt n
  | .negZero => UInt64.ofNat (2 ^ 63)
  | .float bits _ => bits

/-- `number`: a safe integer reads as UInt64 or Int64 where integers are asked for. -/
def Number.toValue (integers : Bool) (n : Number) : Value :=
  match integers, n with
  | true, .integer n _ => if 0 ≤ n then .uint64 (UInt64.ofNat n.toNat) else .int64 (Int64.ofInt n)
  | true, .negZero => .uint64 0
  | _, n => .float64 n.bits

/-! ## Failures -/

/-- The errors of the decoder, with the data of their messages. -/
inductive DecodeError where
  /-- the ints have no header -/
  | noHeader
  /-- the header is out of range -/
  | headerRange
  /-- `tags` and `nums` differ in length -/
  | tagCount (tags nums : Nat)
  | intsEnd
  | lengthOverflow
  | stringsEnd
  | valuesEnd
  | unknownTag (tag : UInt8)
  | notIndex (n : Number)
  /-- of a host value -/
  | host (message : String)
  | emitRow (row rows : Nat)
  | emitColumn (column columns : Nat)
  | unknownTable (table : String)
  | rowWidth (table : String) (width columns : Nat)
  | missingBlock (table : String)
  | blockType (table : String) (got : Value)
  | dataLeft (ints slots units : Nat)

inductive Failure where
  | error (e : DecodeError)
  /-- an index out of range -/
  | panic

abbrev Read := Except Failure

/-! ## Strings -/

/-- The strings that JS joined. -/
inductive Strings where
  /-- all ASCII: a UTF-16 unit is a byte -/
  | ascii (bytes : List UInt8)
  | utf16 (units : List UInt16)

namespace Strings

def length : Strings → Nat
  | .ascii bytes => bytes.length
  | .utf16 units => units.length

end Strings

/-- `char::REPLACEMENT_CHARACTER`. -/
def replacement : Char := Char.ofNat 0xfffd

/-- `String::from_utf16_lossy`. -/
def fromUtf16Lossy : List UInt16 → List Char
  | [] => []
  | u :: us =>
    if u.toNat < 0xd800 || 0xdfff < u.toNat then Char.ofNat u.toNat :: fromUtf16Lossy us
    else if u.toNat < 0xdc00 then
      match us with
      | v :: vs =>
        if 0xdc00 ≤ v.toNat && v.toNat ≤ 0xdfff then
          Char.ofNat (0x10000 + (u.toNat - 0xd800) * 0x400 + (v.toNat - 0xdc00)) ::
            fromUtf16Lossy vs
        else replacement :: fromUtf16Lossy (v :: vs)
      | [] => [replacement]
    else replacement :: fromUtf16Lossy us

/-! ## The decoder -/

/-- What a decoder reads from. -/
structure Source where
  tags : List UInt8
  nums : List Number
  ints : List UInt32
  strings : Strings
  /-- a safe integer reads as UInt64 or Int64 -/
  integers : Bool

/-- How far a decoder has read. -/
structure Cursor where
  nextInt : Nat := 0
  nextSlot : Nat := 0
  nextUnit : Nat := 0
deriving DecidableEq

/-- `Decoder::new`. -/
def Source.new (ints : List UInt32) (tags : List UInt8) (nums : List Number) (strings : Strings)
    (integers : Bool) : Read Source :=
  if tags.length ≠ nums.length then .error (.error (.tagCount tags.length nums.length))
  else .ok { tags := tags, nums := nums, ints := ints, strings := strings, integers := integers }

/-- A host value by its index. -/
abbrev Others := Nat → Except String Value

/-- `index`. -/
def index : Number → Read Nat
  | .integer n safe =>
    if 0 ≤ n ∧ n < 2 ^ 32 then .ok n.toNat else .error (.error (.notIndex (.integer n safe)))
  | .negZero => .ok 0
  | .float bits other => .error (.error (.notIndex (.float bits other)))

namespace Source

variable (src : Source)

/-- `int`. -/
def int (c : Cursor) : Read (UInt32 × Cursor) :=
  match src.ints[c.nextInt]? with
  | some n => .ok (n, { c with nextInt := c.nextInt + 1 })
  | none => .error (.error .intsEnd)

/-- `count`. -/
def count (c : Cursor) : Read (Nat × Cursor) := do
  let (n, c) ← src.int c
  .ok (n.toNat, c)

/-- `string`. -/
def string (units : Nat) (c : Cursor) : Read (String × Cursor) :=
  let stop := c.nextUnit + units
  if 2 ^ 64 ≤ stop then .error (.error .lengthOverflow)
  else if src.strings.length < stop then .error (.error .stringsEnd)
  else
    let piece := match src.strings with
      | .ascii bytes => ((bytes.drop c.nextUnit).take units).map fun b => Char.ofNat b.toNat
      | .utf16 all => fromUtf16Lossy ((all.drop c.nextUnit).take units)
    .ok (String.ofList piece, { c with nextUnit := stop })

/-- `value`. -/
def value (others : Others) (c : Cursor) : Read (Value × Cursor) :=
  match src.tags[c.nextSlot]? with
  | none => .error (.error .valuesEnd)
  | some tag =>
    match src.nums[c.nextSlot]? with
    | none => .error .panic
    | some num =>
      let c := { c with nextSlot := c.nextSlot + 1 }
      match tag.toNat with
      | 0 => .ok (.null, c)
      | 1 => .ok (num.toValue src.integers, c)
      | 2 => do
        let units ← index num
        let (s, c) ← src.string units c
        .ok (.string s, c)
      | 3 => .ok (.boolean true, c)
      | 4 => .ok (.boolean false, c)
      | 5 => do
        let i ← index num
        match others i with
        | .ok v => .ok (v, c)
        | .error message => .error (.error (.host message))
      | _ => .error (.error (.unknownTag tag))

/-- `finish`. -/
def finish (c : Cursor) : Read Unit :=
  if c.nextInt = src.ints.length ∧ c.nextSlot = src.tags.length ∧
      c.nextUnit = src.strings.length then .ok ()
  else
    .error (.error (.dataLeft (src.ints.length - c.nextInt) (src.tags.length - c.nextSlot)
      (src.strings.length - c.nextUnit)))

/-! ## The rows of an ingest -/

/-- The sizes of the tables: name length, row count, row width. -/
def readSizes : Nat → Cursor → Read (List (Nat × Nat × Nat) × Cursor)
  | 0, c => .ok ([], c)
  | n + 1, c => do
    let (nameLen, c) ← src.count c
    let (rows, c) ← src.count c
    let (width, c) ← src.count c
    let (sizes, c) ← readSizes n c
    .ok ((nameLen, rows, width) :: sizes, c)

/-- The names of the tables, each with its row count and its row width. -/
def readNames : List (Nat × Nat × Nat) → Cursor → Read (List (String × Nat × Nat) × Cursor)
  | [], c => .ok ([], c)
  | (nameLen, rows, width) :: sizes, c => do
    let (name, c) ← src.string nameLen c
    let (names, c) ← readNames sizes c
    .ok ((name, rows, width) :: names, c)

def readValues (others : Others) : Nat → Cursor → Read (List Value × Cursor)
  | 0, c => .ok ([], c)
  | n + 1, c => do
    let (v, c) ← src.value others c
    let (values, c) ← readValues others n c
    .ok (v :: values, c)

/-- The block number of a row. -/
def blockNumber (table : String) : Value → Read BlockNumber
  | .uint64 block => .ok block
  | .null => .error (.error (.missingBlock table))
  | other => .error (.error (.blockType table other))

/-- The rows of a table, added to those by block. -/
def readRows (others : Others) (table : String) (registry : ColumnRegistry) :
    Nat → BTreeMap BlockNumber (List Row) → Cursor →
      Read (BTreeMap BlockNumber (List Row) × Cursor)
  | 0, byBlock, c => .ok (byBlock, c)
  | n + 1, byBlock, c => do
    let (number, c) ← src.value others c
    let block ← blockNumber table number
    let (values, c) ← src.readValues others registry.names.length c
    let row : Row := { registry := registry, values := values }
    readRows others table registry n (byBlock.insert block (byBlock[block]?.getD [] ++ [row])) c

def readTables (others : Others) (registry : String → Option ColumnRegistry) :
    List (String × Nat × Nat) → FxHashMap String (BTreeMap BlockNumber (List Row)) → Cursor →
      Read (FxHashMap String (BTreeMap BlockNumber (List Row)) × Cursor)
  | [], data, c => .ok (data, c)
  | (table, rows, width) :: tables, data, c =>
    match registry table with
    | none =>
      if rows = 0 then readTables others registry tables data c
      else .error (.error (.unknownTable table))
    | some columns =>
      if width ≠ columns.names.length + 1 then
        .error (.error (.rowWidth table width columns.names.length))
      else do
        let (byBlock, c) ← src.readRows others table columns rows ∅ c
        readTables others registry tables (data.insert table byBlock) c

/-- `decode_ingest`. -/
def decodeIngest (registry : String → Option ColumnRegistry) (others : Others) :
    Read (FxHashMap String (BTreeMap BlockNumber (List Row))) := do
  let (tableCount, c) ← src.count {}
  let (sizes, c) ← src.readSizes tableCount c
  let (tables, c) ← src.readNames sizes c
  let (data, c) ← src.readTables others registry tables ∅ c
  src.finish c
  .ok data

end Source

/-! ## The results of a reducer callback -/

/-- `GroupBatch`: the rows of a group as a range of `order`, and its state. -/
structure GroupBatch where
  start : Nat
  stop : Nat
  state : List Value

/-- `&order[range]`. -/
def slice (order : List Nat) (start stop : Nat) : Read (List Nat) :=
  if start ≤ stop ∧ stop ≤ order.length then .ok ((order.drop start).take (stop - start))
  else .error .panic

/-- The positions of the emit columns, by their JS ids. -/
def emitIds : List String → Emits → Emits × List (Option Nat)
  | [], emits => (emits, [])
  | name :: names, emits =>
    let (emits, id) := emits.column name
    let (emits, ids) := emitIds names emits
    (emits, id :: ids)

namespace Source

variable (src : Source)

/-- The fields of an emit. A column past the limit has no position: its value is dropped. -/
def readFields (others : Others) (ids : List (Option Nat)) :
    Nat → List Value → Cursor → Read (List Value × Cursor)
  | 0, values, c => .ok (values, c)
  | n + 1, values, c => do
    let (column, c) ← src.count c
    match ids[column]? with
    | none => .error (.error (.emitColumn column ids.length))
    | some id => do
      let (v, c) ← src.value others c
      let values := match id with
        | some id => Emits.setAt values id v
        | none => values
      readFields others ids n values c

/-- The emits of a group, whose rows are `rows`. -/
def readEmits (others : Others) (ids : List (Option Nat)) (rows : List Nat) :
    Nat → Emits → Cursor → Read (Emits × Cursor)
  | 0, emits, c => .ok (emits, c)
  | n + 1, emits, c => do
    let (row, c) ← src.count c
    match rows[row]? with
    | none => .error (.error (.emitRow row rows.length))
    | some source => do
      let (fields, c) ← src.count c
      let (values, c) ← src.readFields others ids fields [] c
      readEmits others ids rows n { emits with rows := emits.rows ++ [(source, values)] } c

def readGroups (others : Others) (ids : List (Option Nat)) (order : List Nat) :
    List GroupBatch → Emits → Cursor → Read ((List GroupBatch × Emits) × Cursor)
  | [], emits, c => .ok (([], emits), c)
  | group :: groups, emits, c => do
    let (changed, c) ← src.int c
    let (emitCount, c) ← src.count c
    let rows ← slice order group.start group.stop
    let (emits, c) ← src.readEmits others ids rows emitCount emits c
    let (state, c) ← if changed ≠ 0 then src.readValues others group.state.length c
      else .ok (group.state, c)
    let ((groups, emits), c) ← readGroups others ids order groups emits c
    .ok (({ group with state := state } :: groups, emits), c)

/-- `decode_group_results`: the groups with their new states, and the emits. -/
def decodeGroupResults (columns : List String) (order : List Nat) (groups : List GroupBatch)
    (emits : Emits) (others : Others) : Read (List GroupBatch × Emits) := do
  let (emits, ids) := emitIds columns emits
  let (result, c) ← src.readGroups others ids order groups emits {}
  src.finish c
  .ok result

end Source

/-! ## No index is out of range -/

def NoPanic {α : Type} (x : Read α) : Prop := x ≠ .error .panic

theorem noPanic_ok {α : Type} (a : α) : NoPanic (.ok a : Read α) := fun h => nomatch h

theorem noPanic_error {α : Type} (e : DecodeError) : NoPanic (.error (.error e) : Read α) :=
  fun h => nomatch h

theorem NoPanic.bind {α β : Type} {x : Read α} {f : α → Read β} (hx : NoPanic x)
    (hf : ∀ a, NoPanic (f a)) : NoPanic (x >>= f) := by
  cases x with
  | ok a => exact hf a
  | error e =>
    cases e with
    | error e => exact noPanic_error e
    | panic => exact absurd rfl hx

theorem noPanic_index (n : Number) : NoPanic (index n) := by
  unfold index
  split
  · split
    · exact noPanic_ok _
    · exact noPanic_error _
  · exact noPanic_ok _
  · exact noPanic_error _

namespace Source

variable {src : Source}

theorem noPanic_int (c : Cursor) : NoPanic (src.int c) := by
  unfold int
  split
  · exact noPanic_ok _
  · exact noPanic_error _

theorem noPanic_count (c : Cursor) : NoPanic (src.count c) :=
  (noPanic_int c).bind fun _ => noPanic_ok _

theorem noPanic_string (units : Nat) (c : Cursor) : NoPanic (src.string units c) := by
  unfold string
  dsimp only
  split
  · exact noPanic_error _
  · split
    · exact noPanic_error _
    · exact noPanic_ok _

theorem noPanic_finish (c : Cursor) : NoPanic (src.finish c) := by
  unfold finish
  split
  · exact noPanic_ok _
  · exact noPanic_error _

theorem noPanic_blockNumber (table : String) (v : Value) : NoPanic (blockNumber table v) := by
  cases v with
  | uint64 n => exact noPanic_ok _
  | _ => exact noPanic_error _

theorem noPanic_readSizes (n : Nat) (c : Cursor) : NoPanic (src.readSizes n c) := by
  induction n generalizing c with
  | zero => exact noPanic_ok _
  | succ n ih =>
    refine (noPanic_count c).bind fun r => ?_
    refine (noPanic_count r.2).bind fun r => ?_
    refine (noPanic_count r.2).bind fun r => ?_
    exact (ih r.2).bind fun _ => noPanic_ok _

theorem noPanic_readNames (sizes : List (Nat × Nat × Nat)) (c : Cursor) :
    NoPanic (src.readNames sizes c) := by
  induction sizes generalizing c with
  | nil => exact noPanic_ok _
  | cons size sizes ih =>
    refine (noPanic_string size.1 c).bind fun r => ?_
    exact (ih r.2).bind fun _ => noPanic_ok _

section

variable (h : src.tags.length = src.nums.length) (others : Others)
include h

/-- A slot has both a tag and a number. -/
theorem noPanic_value (c : Cursor) : NoPanic (src.value others c) := by
  unfold value
  split
  · exact noPanic_error _
  · next tag htag =>
    have hlt : c.nextSlot < src.nums.length := h ▸ (List.getElem?_eq_some_iff.mp htag).1
    rw [List.getElem?_eq_getElem hlt]
    dsimp only
    split
    · exact noPanic_ok _
    · exact noPanic_ok _
    · exact (noPanic_index _).bind fun units => (noPanic_string units _).bind fun _ => noPanic_ok _
    · exact noPanic_ok _
    · exact noPanic_ok _
    · refine (noPanic_index _).bind fun i => ?_
      split
      · exact noPanic_ok _
      · exact noPanic_error _
    · exact noPanic_error _

theorem noPanic_readValues (n : Nat) (c : Cursor) : NoPanic (src.readValues others n c) := by
  induction n generalizing c with
  | zero => exact noPanic_ok _
  | succ n ih =>
    refine (noPanic_value h others c).bind fun r => ?_
    exact (ih r.2).bind fun _ => noPanic_ok _

theorem noPanic_readRows (table : String) (registry : ColumnRegistry) (n : Nat)
    (byBlock : BTreeMap BlockNumber (List Row)) (c : Cursor) :
    NoPanic (src.readRows others table registry n byBlock c) := by
  induction n generalizing byBlock c with
  | zero => exact noPanic_ok _
  | succ n ih =>
    refine (noPanic_value h others c).bind fun r => ?_
    refine (noPanic_blockNumber table r.1).bind fun block => ?_
    exact (noPanic_readValues h others _ _).bind fun s => ih _ s.2

theorem noPanic_readTables (registry : String → Option ColumnRegistry)
    (tables : List (String × Nat × Nat)) (data : FxHashMap String (BTreeMap BlockNumber (List Row)))
    (c : Cursor) : NoPanic (src.readTables others registry tables data c) := by
  induction tables generalizing data c with
  | nil => exact noPanic_ok _
  | cons table tables ih =>
    obtain ⟨table, rows, width⟩ := table
    unfold readTables
    split
    · split
      · exact ih data c
      · exact noPanic_error _
    · split
      · exact noPanic_error _
      · exact (noPanic_readRows h others _ _ _ _ _).bind fun r => ih _ r.2

/-- **An ingest never indexes out of range.** -/
theorem decodeIngest_noPanic (registry : String → Option ColumnRegistry) :
    NoPanic (src.decodeIngest registry others) := by
  refine (noPanic_count _).bind fun r => ?_
  refine (noPanic_readSizes r.1 r.2).bind fun r => ?_
  refine (noPanic_readNames r.1 r.2).bind fun r => ?_
  refine (noPanic_readTables h others registry r.1 _ r.2).bind fun r => ?_
  exact (noPanic_finish r.2).bind fun _ => noPanic_ok _

theorem noPanic_readFields (ids : List (Option Nat)) (n : Nat) (values : List Value) (c : Cursor) :
    NoPanic (src.readFields others ids n values c) := by
  induction n generalizing values c with
  | zero => exact noPanic_ok _
  | succ n ih =>
    refine (noPanic_count c).bind fun r => ?_
    obtain ⟨column, c⟩ := r
    dsimp only
    split
    · exact noPanic_error _
    · exact (noPanic_value h others c).bind fun r => ih _ r.2

theorem noPanic_readEmits (ids : List (Option Nat)) (rows : List Nat) (n : Nat) (emits : Emits)
    (c : Cursor) : NoPanic (src.readEmits others ids rows n emits c) := by
  induction n generalizing emits c with
  | zero => exact noPanic_ok _
  | succ n ih =>
    refine (noPanic_count c).bind fun r => ?_
    obtain ⟨row, c⟩ := r
    dsimp only
    split
    · exact noPanic_error _
    · refine (noPanic_count c).bind fun r => ?_
      exact (noPanic_readFields h others ids r.1 [] r.2).bind fun r => ih _ r.2

theorem noPanic_readGroups (ids : List (Option Nat)) (order : List Nat) {groups : List GroupBatch}
    (hgroups : ∀ g ∈ groups, g.start ≤ g.stop ∧ g.stop ≤ order.length) (emits : Emits) (c : Cursor) :
    NoPanic (src.readGroups others ids order groups emits c) := by
  induction groups generalizing emits c with
  | nil => exact noPanic_ok _
  | cons group groups ih =>
    have hslice : slice order group.start group.stop =
        .ok ((order.drop group.start).take (group.stop - group.start)) :=
      if_pos (hgroups group (by simp))
    refine (noPanic_int c).bind fun r => ?_
    obtain ⟨changed, c⟩ := r
    refine (noPanic_count c).bind fun r => ?_
    dsimp only
    rw [hslice]
    refine (noPanic_ok _).bind fun rows => ?_
    refine (noPanic_readEmits h others ids rows r.1 emits r.2).bind fun r => ?_
    have hrest := ih (fun g hg => hgroups g (by simp [hg])) r.1
    split
    · refine (noPanic_readValues h others _ _).bind fun s => ?_
      exact (hrest s.2).bind fun _ => noPanic_ok _
    · exact (noPanic_ok _).bind fun s => (hrest s.2).bind fun _ => noPanic_ok _

/-- **The results of a callback never index out of range**, for groups with rows of the block. -/
theorem decodeGroupResults_noPanic (columns : List String) (order : List Nat)
    {groups : List GroupBatch} (hgroups : ∀ g ∈ groups, g.start ≤ g.stop ∧ g.stop ≤ order.length)
    (emits : Emits) : NoPanic (src.decodeGroupResults columns order groups emits others) := by
  unfold decodeGroupResults
  dsimp only
  refine (noPanic_readGroups h others _ order hgroups _ _).bind fun r => ?_
  exact (noPanic_finish r.2).bind fun _ => noPanic_ok _

end

end Source

end JsCodec

end Settle
