import Settle.Data.OrdMap

/-!
# Values, rows and change records

The data types of `src/types.rs`, as far as the modelled functions read them.

Machine integers keep their width: `u64` is `UInt64`, `i64` is `Int64`, a 256-bit
integer is a `BitVec 256`. A float is its 64 bits, since the source compares floats
by bits; arithmetic goes through `Float`. A JSON value is the text that serde
writes for it.

`BTreeMap`s are ordered maps. The hash maps and sets of the source are ordered maps
too: their iteration order is not specified, and the model iterates in the order of
the keys.
-/

namespace Settle

open Std

/-! ## Maps -/

/-- `std::collections::BTreeMap`. -/
abbrev BTreeMap (α β : Type) [Ord α] := ExtTreeMap α β compare

/-- `rustc_hash::FxHashMap`, iterated in key order. -/
abbrev FxHashMap (α β : Type) [Ord α] := ExtTreeMap α β compare

/-- `rustc_hash::FxHashSet`, iterated in key order. -/
abbrev FxHashSet (α : Type) [Ord α] := ExtTreeSet α compare

/-! ## Text -/

/-- A hexadecimal digit. -/
def hexDigit (n : Nat) : Char := Char.ofNat (if n < 10 then 48 + n else 87 + n)

/-! ## Blocks -/

/-- `u64`: additions on it wrap, as a release build of the source does. -/
abbrev BlockNumber := UInt64

/-- `BlockNumber::MAX`. -/
def BlockNumber.max : BlockNumber := 18446744073709551615

theorem BlockNumber.le_max (b : BlockNumber) : b ≤ BlockNumber.max :=
  UInt64.le_iff_toNat_le.mpr (Nat.le_of_lt_succ (UInt64.toNat_lt_size b))

/-- Below `u64::MAX` the wrapping successor is the successor. -/
theorem BlockNumber.lt_succ_iff {a b : BlockNumber} (h : b ≠ BlockNumber.max) :
    a < b + 1 ↔ a ≤ b := by
  unfold BlockNumber.max at h
  grind

/-- A block reference: number and hash. -/
structure BlockCursor where
  number : BlockNumber
  hash : String
deriving DecidableEq

/-! ## Errors -/

/-- `src/error.rs`, as far as the modelled functions return it. -/
inductive Error where
  | storage (message : String)
  | incompatibleStorage (message : String)
  | reducer (message : String)
  | rollback (message : String)
  | invalidOperation (message : String)
  | pendingAck (sequence : Nat)
  | wrongAckSequence (expected got : Nat)
  | poisoned (message : String)
  | syncFailed (message : String)
deriving DecidableEq

/-! ## Values -/

inductive ColumnType where
  | uint64 | int64 | float64 | uint256 | string | dateTime | boolean | bytes | base58 | json
deriving DecidableEq

inductive Value where
  | uint64 (v : UInt64)
  | int64 (v : Int64)
  /-- the bits of an `f64` -/
  | float64 (bits : UInt64)
  | uint256 (v : BitVec 256)
  | string (v : String)
  | dateTime (v : Int64)
  | boolean (v : Bool)
  | bytes (v : List UInt8)
  | base58 (v : List UInt8)
  /-- the text of a `serde_json::Value` -/
  | json (text : String)
  | null
deriving DecidableEq, Inhabited

def ColumnType.defaultValue : ColumnType → Value
  | .uint64 => .uint64 0
  | .int64 => .int64 0
  | .float64 => .float64 0
  | .uint256 => .uint256 0
  | .string => .string ""
  | .dateTime => .dateTime 0
  | .boolean => .boolean false
  | .bytes => .bytes []
  | .base58 => .base58 []
  | .json => .json "null"

namespace Value

/-- `as_f64`, as the bits of the float. -/
def asF64 : Value → Option UInt64
  | .uint64 v => some v.toFloat.toBits
  | .int64 v => some v.toFloat.toBits
  | .float64 bits => some bits
  | .dateTime v => some v.toFloat.toBits
  | _ => none

def asI64 : Value → Option Int64
  | .uint64 v => some v.toInt64
  | .int64 v => some v
  | .float64 bits => some (Float.ofBits bits).toInt64
  | .dateTime v => some v
  | _ => none

def typeName : Value → String
  | .uint64 _ => "UInt64"
  | .int64 _ => "Int64"
  | .float64 _ => "Float64"
  | .string _ => "String"
  | .dateTime _ => "DateTime"
  | .boolean _ => "Boolean"
  | .null => "Null"
  | .bytes _ => "Bytes"
  | .uint256 _ => "Uint256"
  | .base58 _ => "Base58"
  | .json _ => "JSON"

def isNull : Value → Bool
  | .null => true
  | _ => false

/-! ### The order of the model's hash maps

Nothing depends on which order it is, so it is the lexicographic order of a code. -/

private def text (s : String) : List Nat := s.toList.map Char.toNat

/-- The tag of the constructor, then the payload. -/
def code : Value → List Nat
  | .uint64 v => [0, v.toNat]
  | .int64 v => [1, v.toBitVec.toNat]
  | .float64 bits => [2, bits.toNat]
  | .uint256 v => [3, v.toNat]
  | .string v => 4 :: text v
  | .dateTime v => [5, v.toBitVec.toNat]
  | .boolean v => [6, v.toNat]
  | .bytes v => 7 :: v.map UInt8.toNat
  | .base58 v => 8 :: v.map UInt8.toNat
  | .json v => 9 :: text v
  | .null => [10]

private theorem text_injective : Function.Injective text := by
  intro a b h
  have hc : Function.Injective Char.toNat := fun x y hxy => Char.toNat_inj.mp hxy
  have := List.map_injective_iff.mpr hc h
  exact String.toList_inj.mp this

private theorem bytes_injective : Function.Injective (List.map UInt8.toNat) :=
  List.map_injective_iff.mpr fun _ _ h => UInt8.toNat_inj.mp h

theorem code_injective : Function.Injective code := by
  intro a b h
  cases a <;> cases b <;> simp only [code, List.cons.injEq, reduceCtorEq, and_true, true_and,
    false_and, Nat.reduceEqDiff, OfNat.one_ne_ofNat, OfNat.ofNat_ne_one, OfNat.zero_ne_ofNat,
    OfNat.ofNat_ne_zero, zero_ne_one, one_ne_zero] at h
  case uint64.uint64 => rw [UInt64.toNat_inj.mp h]
  case int64.int64 => rw [Int64.toBitVec_inj.mp (BitVec.eq_of_toNat_eq h)]
  case float64.float64 => rw [UInt64.toNat_inj.mp h]
  case uint256.uint256 => rw [BitVec.eq_of_toNat_eq h]
  case string.string => rw [text_injective h]
  case dateTime.dateTime => rw [Int64.toBitVec_inj.mp (BitVec.eq_of_toNat_eq h)]
  case boolean.boolean v w => cases v <;> cases w <;> simp_all
  case bytes.bytes => rw [bytes_injective h]
  case base58.base58 => rw [bytes_injective h]
  case json.json => rw [text_injective h]
  case null.null => rfl

instance : Ord Value := ⟨compareOn code⟩

instance : TransOrd Value := inferInstanceAs (TransCmp (compareOn code))

instance : LawfulEqOrd Value where
  eq_of_compare {_ _} h := code_injective (LawfulEqCmp.eq_of_compare h)

end Value

/-- A composite key used for GROUP BY lookups. -/
abbrev GroupKey := List Value

/-! ## Rows -/

/-- Maps column names to positions: the names, in order. -/
structure ColumnRegistry where
  names : List String
deriving DecidableEq

def ColumnRegistry.getId (r : ColumnRegistry) (name : String) : Option Nat :=
  r.names.findIdx? (· == name)

/-- A positional row with its column registry. -/
structure Row where
  registry : ColumnRegistry
  values : List Value
deriving DecidableEq

/-- `RowMap`: the columns of a row by name. -/
abbrev RowMap := FxHashMap String Value

/-- A source row of a view or a reducer: a column that the row lacks reads as Null. -/
class SourceRow (R : Type) where
  column : R → String → Value

instance : SourceRow Row where
  column row name := ((row.registry.getId name).bind (row.values[·]?)).getD .null

instance : SourceRow RowMap where
  column row name := row[name]?.getD .null

/-! ## Change records -/

inductive ChangeOp where
  | insert | update | delete
deriving DecidableEq

/-- Where a column of a change record lives. -/
inductive Slot where
  | key (i : Nat)
  | value (i : Nat)
deriving DecidableEq

/-- The column layout of the change records of one table. -/
structure ChangeSchema where
  table : String
  keyColumns : List String
  columns : List (String × Slot)
deriving DecidableEq

/-- A raw table: the row is the values, and its block and its index in the block
are the key. -/
def ChangeSchema.rawTable (table : String) (columns : List String) : ChangeSchema where
  table := table
  keyColumns := ["block_number", "_row_index"]
  columns := columns.zipIdx.map fun (name, i) => (name, .value i)

/-- The key columns and the slots of an MV: GROUP BY columns are the key, the others
the values. -/
private def mvSlots : List (String × Bool) → Nat → Nat → List String × List (String × Slot)
  | [], _, _ => ([], [])
  | (name, isKey) :: rest, keys, values =>
    if isKey then
      let (ks, cs) := mvSlots rest (keys + 1) values
      (name :: ks, (name, .key keys) :: cs)
    else
      let (ks, cs) := mvSlots rest keys (values + 1)
      (ks, (name, .value values) :: cs)

/-- An MV: `columns` in SELECT order, each with whether it is a GROUP BY column. -/
def ChangeSchema.mv (table : String) (columns : List (String × Bool)) : ChangeSchema :=
  let (ks, cs) := mvSlots columns 0 0
  { table := table, keyColumns := ks, columns := cs }

/-- One change of one row of an output table. The values are positional;
`schema` names them. -/
structure ChangeRecord where
  operation : ChangeOp
  schema : ChangeSchema
  key : GroupKey
  values : List Value
  prevValues : Option (List Value)
deriving DecidableEq

end Settle
