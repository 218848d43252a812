import Settle.Data.Wire
import Settle.JsCodec.RoundTrip

/-!
# A change batch for JS

`Encoder` and `encode_batch` of `src/js_codec/mod.rs`. A count past a `u32` is a panic: none.

The encoder keeps slots, ints and a table of strings. What it wrote is one list of *items*
(`Encoder.Wrote`), ints and slots in the order of the calls; the id of a string stands for the
string, since the table only grows.
-/

namespace Settle

open Std Wire

namespace JsCodec

/-! ## Numbers -/

/-- The integer from 0 on that a float is, if it is one. -/
def f64ToNat (bits : UInt64) : Option Nat :=
  let e := bits.toNat / 2 ^ 52
  let q := 2 ^ 52 + bits.toNat % 2 ^ 52
  if bits.toNat % 2 ^ 63 = 0 then some 0
  else if 1023 ≤ e ∧ e ≤ 1075 then
    if q % 2 ^ (1075 - e) = 0 then some (q / 2 ^ (1075 - e)) else none
  else if 1075 < e ∧ e < 2047 then some (q * 2 ^ (e - 1075))
  else none

/-- **Up to 2^53 a float is exact.** -/
theorem f64ToNat_ofNat {n : Nat} (h : n ≤ 2 ^ 53) : f64ToNat (f64OfNat n) = some n := by
  by_cases hzero : n = 0
  · subst hzero
    rfl
  by_cases htop : n = 2 ^ 53
  · subst htop
    decide +kernel
  have hlow : 2 ^ Nat.log2 n ≤ n := Nat.log2_self_le hzero
  have hhigh : n < 2 ^ (Nat.log2 n + 1) := Nat.lt_log2_self
  have he : Nat.log2 n ≤ 52 := by
    have hlt : n < 2 ^ 53 := by omega
    have := (Nat.log2_lt hzero).mpr hlt
    omega
  unfold f64OfNat
  rw [if_neg hzero]
  dsimp only
  rw [if_pos he]
  generalize Nat.log2 n = e at *
  obtain ⟨d, hd⟩ : ∃ d, 52 = e + d := ⟨52 - e, by omega⟩
  have hd' : 52 - e = d := by omega
  rw [hd']
  have hqlow : 2 ^ 52 ≤ n * 2 ^ d := by
    rw [hd, Nat.pow_add]
    exact Nat.mul_le_mul_right _ hlow
  have hqhigh : n * 2 ^ d < 2 ^ 53 := by
    have hpow : (2 : Nat) ^ 53 = 2 ^ (e + 1) * 2 ^ d := by
      rw [← Nat.pow_add]
      congr 1
      omega
    rw [hpow]
    exact Nat.mul_lt_mul_of_pos_right hhigh (Nat.two_pow_pos d)
  have hsize : (e + 1023) * 2 ^ 52 + (n * 2 ^ d - 2 ^ 52) < 2 ^ 64 := by omega
  have hbits : (UInt64.ofNat ((e + 1023) * 2 ^ 52 + (n * 2 ^ d - 2 ^ 52))).toNat =
      (e + 1023) * 2 ^ 52 + (n * 2 ^ d - 2 ^ 52) := UInt64.toNat_ofNat_of_lt' hsize
  unfold f64ToNat
  dsimp only
  rw [hbits]
  have hdiv : ((e + 1023) * 2 ^ 52 + (n * 2 ^ d - 2 ^ 52)) / 2 ^ 52 = e + 1023 := by omega
  have hmod : 2 ^ 52 + ((e + 1023) * 2 ^ 52 + (n * 2 ^ d - 2 ^ 52)) % 2 ^ 52 = n * 2 ^ d := by
    omega
  rw [hdiv, hmod, if_neg (by omega), if_pos (by omega)]
  have hshift : 1075 - (e + 1023) = d := by omega
  rw [hshift, if_pos (Nat.mul_mod_left _ _), Nat.mul_div_cancel _ (Nat.two_pow_pos d)]

/-- The integer that a float is, if it is one: negative zero is none. -/
def f64ToInt (bits : UInt64) : Option Int :=
  if bits.toNat < 2 ^ 63 then (f64ToNat bits).map Int.ofNat
  else (f64ToNat (UInt64.ofNat (bits.toNat - 2 ^ 63))).bind fun m =>
    if m = 0 then none else some (-(m : Int))

theorem f64OfNat_lt {n : Nat} (h : n ≤ 2 ^ 53) : (f64OfNat n).toNat < 2 ^ 63 := by
  by_cases hzero : n = 0
  · subst hzero
    decide
  by_cases htop : n = 2 ^ 53
  · subst htop
    decide +kernel
  have he : Nat.log2 n ≤ 52 := by
    have := (Nat.log2_lt hzero).mpr (show n < 2 ^ 53 by omega)
    omega
  have hhigh : n < 2 ^ (Nat.log2 n + 1) := Nat.lt_log2_self
  have hq : n * 2 ^ (52 - Nat.log2 n) < 2 ^ 53 := by
    have hpow : (2 : Nat) ^ 53 = 2 ^ (Nat.log2 n + 1) * 2 ^ (52 - Nat.log2 n) := by
      rw [← Nat.pow_add]
      congr 1
      omega
    rw [hpow]
    exact Nat.mul_lt_mul_of_pos_right hhigh (Nat.two_pow_pos _)
  unfold f64OfNat
  rw [if_neg hzero]
  dsimp only
  rw [if_pos he, UInt64.toNat_ofNat_of_lt' (by show _ < 2 ^ 64; omega)]
  omega

/-- **Up to 2^53 a signed integer is exact.** -/
theorem f64ToInt_ofInt {n : Int} (h : n.natAbs ≤ 2 ^ 53) : f64ToInt (f64OfInt n) = some n := by
  have hlt := f64OfNat_lt h
  have hnat := f64ToNat_ofNat h
  unfold f64OfInt
  split
  · next hneg =>
    have hsign : (UInt64.ofNat ((f64OfNat n.natAbs).toNat + 2 ^ 63)).toNat
        = (f64OfNat n.natAbs).toNat + 2 ^ 63 :=
      UInt64.toNat_ofNat_of_lt' (by show _ < 2 ^ 64; omega)
    have hlarge : ¬ (UInt64.ofNat ((f64OfNat n.natAbs).toNat + 2 ^ 63)).toNat < 2 ^ 63 := by
      rw [hsign]
      exact Nat.not_lt.mpr (Nat.le_add_left _ _)
    have hne : n.natAbs ≠ 0 := by omega
    have habs : -(n.natAbs : Int) = n := by omega
    rw [f64ToInt, if_neg hlarge, hsign, Nat.add_sub_cancel, UInt64.ofNat_toNat, hnat,
      Option.bind_some, if_neg hne, habs]
  · next hpos =>
    have habs : Int.ofNat n.natAbs = n := Int.natAbs_of_nonneg (by omega)
    rw [f64ToInt, if_pos hlt, hnat, Option.map_some, habs]

/-! ## The encoder -/

/-- `count`: none is the panic. -/
def count (n : Nat) : Option UInt32 :=
  if n < 2 ^ 32 then some (UInt32.ofNat n) else none

theorem count_eq_some {n : Nat} {k : UInt32} (h : count n = some k) : k.toNat = n := by
  unfold count at h
  split at h
  · next hlt =>
    rw [← Option.some.inj h]
    exact UInt32.toNat_ofNat_of_lt' hlt
  · cases h

/-- `hex`. -/
def hex (bytes : List UInt8) : String :=
  String.ofList (bytes.flatMap fun b => [hexDigit (b.toNat / 16), hexDigit (b.toNat % 16)])

structure Encoder where
  tags : List UInt8 := []
  nums : List UInt64 := []
  ints : List UInt32 := []
  strings : String := ""
  /-- the end of each string in `strings`, in UTF-16 units -/
  stringEnds : List UInt32 := []
  utf16Len : Nat := 0
  ascii : Bool := true
  ids : FxHashMap String UInt32 := ∅
  others : List Value := []
  bytesAsHex : Bool

/-- `str::is_ascii`. -/
def isAscii (s : String) : Bool := s.toList.all fun c => c.toNat < 0x80

/-- `str::len`: the length in UTF-8. -/
def utf8Len (s : String) : Nat := (s.toList.map Char.utf8Size).sum

namespace Encoder

def int (e : Encoder) (n : UInt32) : Encoder := { e with ints := e.ints ++ [n] }

def count (e : Encoder) (n : Nat) : Option Encoder := do
  let k ← JsCodec.count n
  some (e.int k)

/-- `push_string`. -/
def pushString (e : Encoder) (s : String) : Option (UInt32 × Encoder) := do
  let units := if isAscii s then utf8Len s else (utf16 s).length
  let utf16Len := e.utf16Len + units
  let stop ← JsCodec.count utf16Len
  let stringEnds := e.stringEnds ++ [stop]
  let id ← JsCodec.count (stringEnds.length - 1)
  some (id, { e with
    strings := e.strings ++ s
    ascii := e.ascii && isAscii s
    utf16Len := utf16Len
    stringEnds := stringEnds })

/-- `string_id`. -/
def stringId (e : Encoder) (s : String) : Option (UInt32 × Encoder) :=
  match e.ids[s]? with
  | some id => some (id, e)
  | none => do
    let (id, e) ← e.pushString s
    some (id, { e with ids := e.ids.insert s id })

def slot (e : Encoder) (tag : UInt8) (num : UInt64) : Encoder :=
  { e with tags := e.tags ++ [tag], nums := e.nums ++ [num] }

def number (e : Encoder) (n : UInt64) : Encoder := e.slot 1 n

def string (e : Encoder) (s : String) : Option Encoder := do
  let (id, e) ← e.stringId s
  some (e.slot 2 (f64OfNat id.toNat))

def text (e : Encoder) (s : String) : Option Encoder := do
  let (id, e) ← e.pushString s
  some (e.slot 2 (f64OfNat id.toNat))

/-- A host value. -/
def other (e : Encoder) (v : Value) : Encoder :=
  let e' := e.slot 5 (f64OfNat e.others.length)
  { e' with others := e.others ++ [v] }

/-- `value`. -/
def value (e : Encoder) (v : Value) : Option Encoder :=
  match v with
  | .null => some (e.slot 0 0)
  | .boolean true => some (e.slot 3 0)
  | .boolean false => some (e.slot 4 0)
  | .float64 f => some (e.number f)
  | .uint64 n =>
    if n.toNat ≤ maxSafeInteger then some (e.number (f64OfNat n.toNat)) else some (e.other v)
  | .int64 n =>
    if n.toInt.natAbs ≤ maxSafeInteger then some (e.number (f64OfInt n.toInt)) else some (e.other v)
  | .dateTime n =>
    if n.toInt.natAbs ≤ maxSafeInteger then some (e.number (f64OfInt n.toInt)) else some (e.other v)
  | .string s => e.string s
  | .uint256 b => e.text ("0x" ++ hex (le 32 b.toNat).reverse)
  | .base58 b => e.text (hex b)
  | .bytes b => if e.bytesAsHex then e.text (hex b) else some (e.other v)
  | .json _ => some (e.other v)

end Encoder

/-! ## What JS reads of a slot -/

/-- A value of JS, as `value` of `codec.ts` reads it. `ω` are the host values. -/
inductive SlotValue (ω : Type) where
  | null
  /-- the bits of an `f64` -/
  | number (bits : UInt64)
  | string (units : List UInt16)
  | boolean (b : Bool)
  | host (h : ω)

variable {ω : Type}

/-- `value` of `codec.ts`: none is undefined. -/
def slotValue (strings : List (List UInt16)) (others : List ω) (tag : UInt8) (num : UInt64) :
    Option (SlotValue ω) :=
  match tag.toNat with
  | 1 => some (.number num)
  | 2 => ((f64ToNat num).bind (strings[·]?)).map .string
  | 3 => some (.boolean true)
  | 4 => some (.boolean false)
  | 5 => ((f64ToNat num).bind (others[·]?)).map .host
  | _ => some .null

/-- The number of a lower-case hex digit. -/
def digitValue (c : Char) : Option Nat :=
  if 48 ≤ c.toNat ∧ c.toNat ≤ 57 then some (c.toNat - 48)
  else if 97 ≤ c.toNat ∧ c.toNat ≤ 102 then some (c.toNat - 87)
  else none

/-- The bytes of hex digits, two for each. -/
def unhex : List Char → Option (List UInt8)
  | [] => some []
  | high :: low :: rest => do
    let h ← digitValue high
    let l ← digitValue low
    let bytes ← unhex rest
    some (UInt8.ofNat (16 * h + l) :: bytes)
  | [_] => none

theorem digitValue_hexDigit : ∀ n < 16, digitValue (hexDigit n) = some n := by decide

theorem unhex_hex (bytes : List UInt8) : unhex (hex bytes).toList = some bytes := by
  rw [hex, String.toList_ofList]
  induction bytes with
  | nil => rfl
  | cons b bytes ih =>
    have hb := b.toNat_lt
    have hjoin : 16 * (b.toNat / 16) + b.toNat % 16 = b.toNat := by omega
    rw [List.flatMap_cons, List.cons_append, List.singleton_append, unhex,
      digitValue_hexDigit _ (by omega), digitValue_hexDigit _ (by omega), ih]
    show some (UInt8.ofNat (16 * (b.toNat / 16) + b.toNat % 16) :: bytes) = some (b :: bytes)
    rw [hjoin, UInt8.ofNat_toNat]

/-- What JS is to get for an integer: the number that is it, when JS has one that is safe, and else
the host value. -/
def IntegerReads (host : Value → ω) (v : Value) (n : Int) (js : SlotValue ω) : Prop :=
  if n.natAbs ≤ maxSafeInteger then ∃ bits, js = .number bits ∧ f64ToInt bits = some n
  else js = .host (host v)

/-- **The value mapping**: what JS is to get for a value. Text digits are read as the bytes that
they spell, and those of a `Uint256` as the 32 bytes of its number, big end first. -/
def Value.ReadsAs (host : Value → ω) (v : Value) (js : SlotValue ω) : Prop :=
  match v with
  | .null => js = .null
  | .boolean b => js = .boolean b
  | .float64 f => js = .number f
  | .uint64 n => IntegerReads host v n.toNat js
  | .int64 n => IntegerReads host v n.toInt js
  | .dateTime n => IntegerReads host v n.toInt js
  | .string s => js = .string (utf16 s)
  | .uint256 b => ∃ digits bytes, js = .string (utf16 ("0x" ++ digits)) ∧
      unhex digits.toList = some bytes ∧ bytes.length = 32 ∧
      bytes.foldl (fun n byte => 256 * n + byte.toNat) 0 = b.toNat
  | .base58 b => ∃ digits, js = .string (utf16 digits) ∧ unhex digits.toList = some b
  | .bytes _ => js = .host (host v)
  | .json _ => js = .host (host v)

/-- The value of JS for a value, `host` for those that JS gets as host values. -/
def Value.toJs (host : Value → ω) (bytesAsHex : Bool) (v : Value) : SlotValue ω :=
  match v with
  | .null => .null
  | .boolean b => .boolean b
  | .float64 f => .number f
  | .uint64 n => if n.toNat ≤ maxSafeInteger then .number (f64OfNat n.toNat) else .host (host v)
  | .int64 n =>
    if n.toInt.natAbs ≤ maxSafeInteger then .number (f64OfInt n.toInt) else .host (host v)
  | .dateTime n =>
    if n.toInt.natAbs ≤ maxSafeInteger then .number (f64OfInt n.toInt) else .host (host v)
  | .string s => .string (utf16 s)
  | .uint256 b => .string (utf16 ("0x" ++ hex (le 32 b.toNat).reverse))
  | .base58 b => .string (utf16 (hex b))
  | .bytes b => if bytesAsHex then .string (utf16 (hex b)) else .host (host v)
  | .json _ => .host (host v)

theorem foldl_be (width n : Nat) (h : n < 256 ^ width) :
    (le width n).reverse.foldl (fun n byte => 256 * n + byte.toNat) 0 = n := by
  rw [List.foldl_reverse]
  conv_rhs => rw [← ofLe_le h]
  induction le width n with
  | nil => rfl
  | cons b bytes ih =>
    rw [List.foldr_cons, ih, ofLe]
    exact Nat.add_comm _ _

theorem integerReads_number (host : Value → ω) (v : Value) (n : Int) :
    IntegerReads host v n
      (if n.natAbs ≤ maxSafeInteger then .number (f64OfInt n) else .host (host v)) := by
  unfold IntegerReads
  by_cases hn : n.natAbs ≤ maxSafeInteger
  · have hsafe : n.natAbs ≤ 2 ^ 53 := by
      unfold maxSafeInteger at hn
      omega
    rw [if_pos hn, if_pos hn]
    exact ⟨_, rfl, f64ToInt_ofInt hsafe⟩
  · rw [if_neg hn, if_neg hn]

/-- **What the encoder writes is what JS is to get.** -/
theorem Value.toJs_readsAs (host : Value → ω) (v : Value) :
    Value.ReadsAs host v (Value.toJs host false v) := by
  cases v with
  | uint64 n =>
    have h := integerReads_number host (.uint64 n) (n.toNat : Int)
    have hbits : f64OfInt (n.toNat : Int) = f64OfNat n.toNat := by
      rw [f64OfInt, if_neg (by omega), Int.natAbs_natCast]
    rw [hbits, Int.natAbs_natCast] at h
    exact h
  | int64 n => exact integerReads_number host (.int64 n) n.toInt
  | dateTime n => exact integerReads_number host (.dateTime n) n.toInt
  | uint256 b =>
    refine ⟨hex (le 32 b.toNat).reverse, (le 32 b.toNat).reverse, rfl, unhex_hex _, ?_, ?_⟩
    · rw [List.length_reverse, length_le]
    · exact foldl_be 32 b.toNat b.isLt
  | base58 b => exact ⟨hex b, rfl, unhex_hex b⟩
  | null => rfl
  | boolean b => rfl
  | float64 f => rfl
  | string s => rfl
  | bytes b => rfl
  | json t => rfl

/-! ## What was written -/

/-- An int or a slot. -/
inductive Item (ω : Type) where
  | int (n : Nat)
  | slot (v : SlotValue ω)

def Item.ints : List (Item ω) → List Nat
  | [] => []
  | .int n :: items => n :: Item.ints items
  | .slot _ :: items => Item.ints items

def Item.slots : List (Item ω) → List (SlotValue ω)
  | [] => []
  | .int _ :: items => Item.slots items
  | .slot v :: items => v :: Item.slots items

@[simp] theorem Item.ints_append (xs ys : List (Item ω)) :
    Item.ints (xs ++ ys) = Item.ints xs ++ Item.ints ys := by
  induction xs with
  | nil => rfl
  | cons x xs ih => cases x <;> simp [Item.ints, ih]

@[simp] theorem Item.slots_append (xs ys : List (Item ω)) :
    Item.slots (xs ++ ys) = Item.slots xs ++ Item.slots ys := by
  induction xs with
  | nil => rfl
  | cons x xs ih => cases x <;> simp [Item.slots, ih]

/-- The ends of the strings of a table, the first of which starts at `start`. -/
def endsFrom (start : Nat) : List (List UInt16) → List Nat
  | [] => []
  | s :: strings => (start + s.length) :: endsFrom (start + s.length) strings

theorem endsFrom_append (start : Nat) (strings : List (List UInt16)) (s : List UInt16) :
    endsFrom start (strings ++ [s]) =
      endsFrom start strings ++ [start + strings.flatten.length + s.length] := by
  induction strings generalizing start with
  | nil => simp [endsFrom]
  | cons t strings ih =>
    rw [List.cons_append, endsFrom, ih, endsFrom, List.flatten_cons, List.length_append,
      List.cons_append, Nat.add_assoc start]

/-- The slots of tags and numbers. -/
def slotValues (strings : List (List UInt16)) (others : List ω) (tags : List UInt8)
    (nums : List UInt64) : List (Option (SlotValue ω)) :=
  List.zipWith (slotValue strings others) tags nums

/-- The encoder wrote `items`, with `table` as its strings. A host value past 2^53 has no exact
index. -/
structure Encoder.Wrote (host : Value → ω) (asHex : Bool) (e : Encoder) (table : List (List UInt16))
    (items : List (Item ω)) : Prop where
  ints : e.ints.map UInt32.toNat = Item.ints items
  nums_length : e.nums.length = e.tags.length
  others_length : e.others.length ≤ e.tags.length
  slots : e.tags.length ≤ 2 ^ 53 →
    slotValues table (e.others.map host) e.tags e.nums = (Item.slots items).map some
  strings : utf16 e.strings = table.flatten
  texts : ∃ texts : List String, table = texts.map utf16 ∧
    e.strings.toList = texts.flatMap String.toList
  ends : e.stringEnds.map UInt32.toNat = endsFrom 0 table
  utf16Len : e.utf16Len = table.flatten.length
  ids : ∀ s id, e.ids[s]? = some id → table[id.toNat]? = some (utf16 s)
  ascii : e.ascii = isAscii e.strings
  asHex : e.bytesAsHex = asHex

theorem utf16_append (s t : String) : utf16 (s ++ t) = utf16 s ++ utf16 t := by
  rw [utf16, String.toList_append, List.flatMap_append]
  rfl

theorem isAscii_append (s t : String) : isAscii (s ++ t) = (isAscii s && isAscii t) := by
  rw [isAscii, String.toList_append, List.all_append]
  rfl

/-- In ASCII a character is one byte and one unit. -/
theorem utf8Len_ascii {s : String} (h : isAscii s = true) : utf8Len s = (utf16 s).length := by
  unfold isAscii at h
  unfold utf8Len utf16
  revert h
  induction s.toList with
  | nil => exact fun _ => rfl
  | cons c cs ih =>
    intro h
    rw [List.all_cons, Bool.and_eq_true] at h
    have hc : c.toNat < 0x80 := by simpa using h.1
    have hsize : c.utf8Size = 1 := by
      rw [Char.utf8Size, if_pos]
      show c.toNat ≤ 127
      omega
    have hunits : (charUnits c).length = 1 := by
      rw [charUnits, if_pos (by omega)]
      rfl
    rw [List.map_cons, List.sum_cons, List.flatMap_cons, List.length_append, ih h.2, hsize, hunits]

theorem getElem?_append_of_some {α : Type} {l : List α} {i : Nat} {a : α} (more : List α)
    (h : l[i]? = some a) : (l ++ more)[i]? = some a := by
  have hlt := (List.getElem?_eq_some_iff.mp h).1
  rwa [List.getElem?_append_left hlt]

/-- A slot keeps its value when the strings and the host values grow. -/
theorem slotValue_grow {strings : List (List UInt16)} {others : List ω} {tag : UInt8}
    {num : UInt64} {v : SlotValue ω} (moreStrings : List (List UInt16)) (moreOthers : List ω)
    (h : slotValue strings others tag num = some v) :
    slotValue (strings ++ moreStrings) (others ++ moreOthers) tag num = some v := by
  unfold slotValue at h ⊢
  split at h
  · exact h
  · obtain ⟨s, hs, rfl⟩ := Option.map_eq_some_iff.mp h
    obtain ⟨i, hi, hget⟩ := Option.bind_eq_some_iff.mp hs
    rw [hi, Option.bind_some, getElem?_append_of_some moreStrings hget]
    rfl
  · exact h
  · exact h
  · obtain ⟨o, ho, rfl⟩ := Option.map_eq_some_iff.mp h
    obtain ⟨i, hi, hget⟩ := Option.bind_eq_some_iff.mp ho
    rw [hi, Option.bind_some, getElem?_append_of_some moreOthers hget]
    rfl
  · exact h

theorem slotValues_grow {strings : List (List UInt16)} {others : List ω} {tags : List UInt8}
    {nums : List UInt64} {vs : List (SlotValue ω)} (moreStrings : List (List UInt16))
    (moreOthers : List ω) (h : slotValues strings others tags nums = vs.map some) :
    slotValues (strings ++ moreStrings) (others ++ moreOthers) tags nums = vs.map some := by
  unfold slotValues at h ⊢
  induction tags generalizing nums vs with
  | nil => exact h
  | cons tag tags ih =>
    cases nums with
    | nil => exact h
    | cons num nums =>
      cases vs with
      | nil => cases h
      | cons v vs =>
        rw [List.zipWith_cons_cons, List.map_cons, List.cons.injEq] at h
        rw [List.zipWith_cons_cons, List.map_cons, slotValue_grow moreStrings moreOthers h.1,
          ih h.2]

namespace Encoder

variable {host : Value → ω} {asHex : Bool} {e e' : Encoder} {table : List (List UInt16)}
  {items : List (Item ω)}

theorem wrote_empty : Wrote host asHex { bytesAsHex := asHex } [] [] where
  ints := rfl
  nums_length := rfl
  others_length := Nat.le_refl 0
  slots := fun _ => rfl
  strings := rfl
  texts := ⟨[], rfl, rfl⟩
  ends := rfl
  utf16Len := rfl
  ids := fun s id h => by
    rw [show (∅ : FxHashMap String UInt32)[s]? = none from ExtTreeMap.getElem?_empty] at h
    cases h
  ascii := rfl
  asHex := rfl

theorem Wrote.int (h : Wrote host asHex e table items) (n : UInt32) :
    Wrote host asHex (e.int n) table (items ++ [.int n.toNat]) :=
  { h with
    ints := by
      show (e.ints ++ [n]).map UInt32.toNat = _
      rw [List.map_append, h.ints, Item.ints_append]
      rfl
    slots := fun hlt => by
      rw [Item.slots_append]
      exact (h.slots hlt).trans (by rw [Item.slots, Item.slots, List.append_nil]) }

theorem Wrote.count {n : Nat} (h : Wrote host asHex e table items) (he : e.count n = some e') :
    Wrote host asHex e' table (items ++ [.int n]) := by
  obtain ⟨k, hk, he⟩ := Option.bind_eq_some_iff.mp he
  obtain rfl := Option.some.inj he
  rw [← count_eq_some hk]
  exact h.int k

theorem Wrote.slot (h : Wrote host asHex e table items) {tag : UInt8} {num : UInt64}
    {v : SlotValue ω}
    (hv : slotValue table (e.others.map host) tag num = some v) :
    Wrote host asHex (e.slot tag num) table (items ++ [.slot v]) :=
  { h with
    ints := by
      rw [Item.ints_append, Item.ints, Item.ints, List.append_nil]
      exact h.ints
    nums_length := by
      show (e.nums ++ [num]).length = (e.tags ++ [tag]).length
      rw [List.length_append, List.length_append, h.nums_length]
      rfl
    others_length := by
      show e.others.length ≤ (e.tags ++ [tag]).length
      rw [List.length_append]
      exact Nat.le_add_right_of_le h.others_length
    slots := fun hlt => by
      have hlt : (e.tags ++ [tag]).length ≤ 2 ^ 53 := hlt
      rw [List.length_append] at hlt
      show List.zipWith _ (e.tags ++ [tag]) (e.nums ++ [num]) = _
      rw [List.zipWith_append h.nums_length.symm, Item.slots_append, List.map_append]
      exact congrArg₂ (· ++ ·) (h.slots (by omega)) (congrArg (fun v => [v]) hv) }

/-- A host value, at the next index. -/
theorem Wrote.other (h : Wrote host asHex e table items) (v : Value) :
    Wrote host asHex (e.other v) table (items ++ [.slot (.host (host v))]) :=
  { h with
    ints := by
      rw [Item.ints_append, Item.ints, Item.ints, List.append_nil]
      exact h.ints
    nums_length := by
      show (e.nums ++ [_]).length = (e.tags ++ [_]).length
      rw [List.length_append, List.length_append, h.nums_length]
      rfl
    others_length := by
      show (e.others ++ [v]).length ≤ (e.tags ++ [5]).length
      rw [List.length_append, List.length_append]
      exact Nat.add_le_add_right h.others_length 1
    slots := fun hlt => by
      have hlt : (e.tags ++ [5]).length ≤ 2 ^ 53 := hlt
      have hothers := h.others_length
      rw [List.length_append] at hlt
      have hgrow := slotValues_grow [] [host v] (h.slots (by omega))
      have hslot : slotValue table (e.others.map host ++ [host v]) 5 (f64OfNat e.others.length) =
          some (.host (host v)) := by
        show ((f64ToNat _).bind _).map _ = _
        rw [f64ToNat_ofNat (by omega), Option.bind_some,
          List.getElem?_append_right (by rw [List.length_map]), List.length_map, Nat.sub_self]
        rfl
      rw [List.append_nil] at hgrow
      show List.zipWith (slotValue table ((e.others ++ [v]).map host)) (e.tags ++ [5])
        (e.nums ++ [_]) = _
      rw [List.map_append, List.zipWith_append h.nums_length.symm, Item.slots_append,
        List.map_append]
      exact congrArg₂ (· ++ ·) hgrow (congrArg (fun v => [v]) hslot) }

/-- A string goes to the end of the table. -/
theorem Wrote.pushString {s : String} {id : UInt32} (h : Wrote host asHex e table items)
    (he : e.pushString s = some (id, e')) :
    Wrote host asHex e' (table ++ [utf16 s]) items ∧
      (table ++ [utf16 s])[id.toNat]? = some (utf16 s) ∧ e'.ids = e.ids := by
  obtain ⟨stop, hstop, he⟩ := Option.bind_eq_some_iff.mp he
  obtain ⟨k, hk, he⟩ := Option.bind_eq_some_iff.mp he
  obtain ⟨rfl, rfl⟩ := Prod.mk.inj (Option.some.inj he)
  have hunits : (if isAscii s then utf8Len s else (utf16 s).length) = (utf16 s).length := by
    split
    · next hascii => exact utf8Len_ascii hascii
    · rfl
  rw [hunits] at hstop
  have hends : e.stringEnds.length = table.length := by
    have hmap := congrArg List.length h.ends
    have hlength : ∀ (start : Nat) (l : List (List UInt16)),
        (endsFrom start l).length = l.length := by
      intro start l
      induction l generalizing start with
      | nil => rfl
      | cons t l ih => rw [endsFrom, List.length_cons, ih, List.length_cons]
    rwa [List.length_map, hlength] at hmap
  have hid : k.toNat = table.length := by
    have hcount := count_eq_some hk
    rw [List.length_append, hends] at hcount
    exact hcount
  have hget : (table ++ [utf16 s])[k.toNat]? = some (utf16 s) := by
    rw [hid, List.getElem?_append_right (Nat.le_refl _), Nat.sub_self]
    rfl
  refine ⟨?_, hget, rfl⟩
  exact { h with
    slots := fun hlt => by
      have hgrow := slotValues_grow [utf16 s] [] (h.slots hlt)
      rwa [List.append_nil] at hgrow
    strings := by
      rw [utf16_append, h.strings, List.flatten_append, List.flatten_singleton]
    texts := by
      obtain ⟨texts, htable, htexts⟩ := h.texts
      refine ⟨texts ++ [s], by rw [htable, List.map_append]; rfl, ?_⟩
      rw [String.toList_append, htexts, List.flatMap_append, List.flatMap_singleton]
    ends := by
      rw [List.map_append, h.ends, endsFrom_append, List.map_singleton, count_eq_some hstop,
        h.utf16Len, Nat.zero_add]
    utf16Len := by
      show e.utf16Len + _ = _
      rw [hunits, h.utf16Len, List.flatten_append, List.length_append, List.flatten_singleton]
    ids := fun t id ht => getElem?_append_of_some _ (h.ids t id ht)
    ascii := by
      show (e.ascii && isAscii s) = _
      rw [h.ascii, ← isAscii_append] }

/-- The slot of a string by its id. -/
theorem Wrote.stringSlot {s : List UInt16} {id : UInt32} (h : Wrote host asHex e table items)
    (hget : table[id.toNat]? = some s) :
    Wrote host asHex (e.slot 2 (f64OfNat id.toNat)) table (items ++ [.slot (.string s)]) := by
  refine h.slot ?_
  have hlt := id.toNat_lt
  show ((f64ToNat _).bind _).map _ = _
  rw [f64ToNat_ofNat (by omega), Option.bind_some, hget]
  rfl

theorem Wrote.text {s : String} (h : Wrote host asHex e table items) (he : e.text s = some e') :
    ∃ table', Wrote host asHex e' table' (items ++ [.slot (.string (utf16 s))]) := by
  obtain ⟨⟨id, e₁⟩, hpush, he⟩ := Option.bind_eq_some_iff.mp he
  obtain rfl := Option.some.inj he
  obtain ⟨h, hget, -⟩ := h.pushString hpush
  exact ⟨_, h.stringSlot hget⟩

/-- **A string is its id**, whether it is in the table already or not. -/
theorem Wrote.string {s : String} (h : Wrote host asHex e table items)
    (he : e.string s = some e') :
    ∃ table', Wrote host asHex e' table' (items ++ [.slot (.string (utf16 s))]) := by
  obtain ⟨⟨id, e₁⟩, hid, he⟩ := Option.bind_eq_some_iff.mp he
  obtain rfl := Option.some.inj he
  unfold stringId at hid
  split at hid
  · next id' hids =>
    obtain ⟨rfl, rfl⟩ := Prod.mk.inj (Option.some.inj hid)
    exact ⟨_, h.stringSlot (h.ids s _ hids)⟩
  · obtain ⟨⟨id', e₂⟩, hpush, hid⟩ := Option.bind_eq_some_iff.mp hid
    obtain ⟨rfl, rfl⟩ := Prod.mk.inj (Option.some.inj hid)
    obtain ⟨h, hget, hids⟩ := h.pushString hpush
    refine ⟨_, Wrote.stringSlot { h with ids := ?_ } hget⟩
    intro t k ht
    by_cases hst : s = t
    · subst hst
      rw [ExtTreeMap.getElem?_insert_self] at ht
      rw [← Option.some.inj ht]
      exact hget
    · have hne : ¬compare s t = .eq := fun heq => hst (Std.compare_eq_iff_eq.mp heq)
      rw [ExtTreeMap.getElem?_insert, if_neg hne] at ht
      exact h.ids t k ht

/-- A number, or a host value where it is not exact. -/
theorem Wrote.numberOrHost {safe : Prop} [Decidable safe] {n : UInt64} {v : Value}
    (h : Wrote host asHex e table items)
    (he : (if safe then some (e.number n) else some (e.other v)) = some e') :
    Wrote host asHex e' table
      (items ++ [.slot (if safe then .number n else .host (host v))]) := by
  by_cases hsafe : safe
  · rw [if_pos hsafe] at he ⊢
    obtain rfl := Option.some.inj he
    exact h.slot rfl
  · rw [if_neg hsafe] at he ⊢
    obtain rfl := Option.some.inj he
    exact h.other v

/-- **A value is written as the value that JS is to get.** -/
theorem Wrote.value {v : Value} (h : Wrote host asHex e table items) (he : e.value v = some e') :
    ∃ table', Wrote host asHex e' table' (items ++ [.slot (Value.toJs host asHex v)]) := by
  have hasHex := h.asHex
  cases v with
  | null =>
    obtain rfl := Option.some.inj he
    exact ⟨_, h.slot rfl⟩
  | boolean b =>
    cases b with
    | true =>
      obtain rfl := Option.some.inj he
      exact ⟨_, h.slot rfl⟩
    | false =>
      obtain rfl := Option.some.inj he
      exact ⟨_, h.slot rfl⟩
  | float64 f =>
    obtain rfl := Option.some.inj he
    exact ⟨_, h.slot rfl⟩
  | uint64 n => exact ⟨_, h.numberOrHost he⟩
  | int64 n => exact ⟨_, h.numberOrHost he⟩
  | dateTime n => exact ⟨_, h.numberOrHost he⟩
  | string s => exact h.string he
  | uint256 b => exact h.text he
  | base58 b => exact h.text he
  | bytes b =>
    unfold Encoder.value at he
    unfold Value.toJs
    dsimp only at he ⊢
    rw [hasHex] at he
    split at he
    · next htext =>
      rw [if_pos htext]
      exact h.text he
    · next htext =>
      obtain rfl := Option.some.inj he
      rw [if_neg htext]
      exact ⟨_, h.other _⟩
  | json t =>
    obtain rfl := Option.some.inj he
    exact ⟨_, h.other _⟩

/-- Writes of a list, each with items of its own. -/
theorem Wrote.foldlM {α : Type} {f : Encoder → α → Option Encoder} {g : α → List (Item ω)}
    {as : List α}
    (hf : ∀ a ∈ as, ∀ e e' table items, Wrote host asHex e table items → f e a = some e' →
      ∃ table', Wrote host asHex e' table' (items ++ g a))
    (h : Wrote host asHex e table items) (he : as.foldlM f e = some e') :
    ∃ table', Wrote host asHex e' table' (items ++ as.flatMap g) := by
  induction as generalizing e table items with
  | nil =>
    obtain rfl := Option.some.inj he
    exact ⟨table, by rwa [List.flatMap_nil, List.append_nil]⟩
  | cons a as ih =>
    rw [List.foldlM_cons] at he
    obtain ⟨e₁, ha, he⟩ := Option.bind_eq_some_iff.mp he
    obtain ⟨table₁, h⟩ := hf a (List.mem_cons_self ..) _ _ _ _ h ha
    obtain ⟨table₂, h⟩ := ih (fun b hb => hf b (List.mem_cons_of_mem _ hb)) h he
    exact ⟨table₂, by rwa [List.flatMap_cons, ← List.append_assoc]⟩

end Encoder

/-! ## The buffer -/

namespace Encoder

/-- `byte_len`. -/
def byteLen (e : Encoder) : Nat :=
  4 * 8 + 8 * e.nums.length + 4 * e.ints.length + 4 * e.stringEnds.length + e.tags.length

def words (ns : List UInt32) : List UInt8 := ns.flatMap fun n => le 4 n.toNat

/-- `write`: the header, the numbers, the ints, the string ends and the tags, in the byte order of
the machine (little endian). -/
def write (e : Encoder) : Option (List UInt8) := do
  let nums ← JsCodec.count e.nums.length
  let ints ← JsCodec.count e.ints.length
  let ends ← JsCodec.count e.stringEnds.length
  some (words [nums, ints, ends, 0, 0, 0, 0, 0] ++ (e.nums.flatMap fun n => le 8 n.toNat) ++
    words (e.ints ++ e.stringEnds) ++ e.tags)

/-- The joined strings as JS gets them: Latin-1 if they are ASCII, else from UTF-8. -/
def joined (e : Encoder) : List UInt16 :=
  if e.ascii then (e.strings.toList.flatMap String.utf8EncodeChar).map fun b => UInt16.ofNat b.toNat
  else utf16 e.strings

theorem joined_eq {host : Value → ω} {asHex : Bool} {e : Encoder} {table : List (List UInt16)}
    {items : List (Item ω)} (h : Wrote host asHex e table items) : e.joined = table.flatten := by
  rw [← h.strings]
  unfold joined
  split
  · next hascii =>
    rw [h.ascii] at hascii
    unfold isAscii at hascii
    unfold utf16
    revert hascii
    induction e.strings.toList with
    | nil => exact fun _ => rfl
    | cons c cs ih =>
      intro hascii
      rw [List.all_cons, Bool.and_eq_true] at hascii
      have hc : c.toNat < 0x80 := by simpa using hascii.1
      have hsize : c.utf8Size = 1 := by
        rw [Char.utf8Size, if_pos]
        show c.toNat ≤ 127
        omega
      have hbyte : (c.val.toUInt8).toNat = c.toNat := by
        show c.val.toNat % 256 = c.val.toNat
        have hc : c.val.toNat < 0x80 := hc
        omega
      rw [List.flatMap_cons, List.flatMap_cons, List.map_append, ih hascii.2,
        String.utf8EncodeChar_eq_singleton hsize, charUnits, if_pos (by omega), List.map_singleton,
        hbyte]
  · rfl

end Encoder

/-- A typed array of `count` elements of `width` bytes each. -/
def view (width : Nat) : Nat → List UInt8 → List Nat
  | 0, _ => []
  | count + 1, bytes => ofLe (bytes.take width) :: view width count (bytes.drop width)

/-- The strings of the table, cut at their ends. -/
def cut (joined : List UInt16) (start : Nat) : List Nat → List (List UInt16)
  | [] => []
  | stop :: ends => (joined.drop start).take (stop - start) :: cut joined stop ends

/-- `Input`. -/
structure Input (ω : Type) where
  tags : List UInt8
  nums : List UInt64
  ints : List UInt32
  strings : List (List UInt16)
  others : List ω

/-- `readInput`; none is a typed array out of the buffer. -/
def readInput (buffer : List UInt8) (joined : List UInt16) (others : List ω) : Option (Input ω) :=
  match view 4 8 buffer with
  | slotCount :: intCount :: stringCount :: _ =>
    let nums := buffer.drop 32
    let ints := nums.drop (8 * slotCount)
    let ends := ints.drop (4 * intCount)
    let tags := ends.drop (4 * stringCount)
    if buffer.length < 32 + 8 * slotCount + 4 * intCount + 4 * stringCount + slotCount then none
    else
      some {
        tags := tags.take slotCount
        nums := (view 8 slotCount nums).map UInt64.ofNat
        ints := (view 4 intCount ints).map UInt32.ofNat
        strings := cut joined 0 (view 4 stringCount ends)
        others := others }
  | _ => none

theorem length_flatMap_le {α : Type} (width : Nat) (toNat : α → Nat) (as : List α) :
    (as.flatMap fun a => le width (toNat a)).length = width * as.length := by
  induction as with
  | nil => rfl
  | cons a as ih =>
    rw [List.flatMap_cons, List.length_append, length_le, ih, List.length_cons, Nat.mul_succ]
    omega

/-- A typed array reads what was written. -/
theorem view_flatMap {α : Type} {width : Nat} {toNat : α → Nat} {as : List α}
    (h : ∀ a ∈ as, toNat a < 256 ^ width) (rest : List UInt8) :
    view width as.length ((as.flatMap fun a => le width (toNat a)) ++ rest) = as.map toNat := by
  induction as with
  | nil => rfl
  | cons a as ih =>
    have hlength : (le width (toNat a)).length = width := length_le _ _
    rw [List.flatMap_cons, List.append_assoc, List.length_cons, view, List.take_left' hlength,
      List.drop_left' hlength, ofLe_le (h a (List.mem_cons_self ..)),
      ih fun b hb => h b (List.mem_cons_of_mem _ hb), List.map_cons]

theorem drop_flatMap_le {α : Type} (width : Nat) (toNat : α → Nat) (as : List α)
    (rest : List UInt8) :
    ((as.flatMap fun a => le width (toNat a)) ++ rest).drop (width * as.length) = rest :=
  List.drop_left' (length_flatMap_le width toNat as)

/-- The ends cut the joined strings into the strings. -/
theorem cut_flatten (before : List UInt16) (strings : List (List UInt16)) :
    cut (before ++ strings.flatten) before.length (endsFrom before.length strings) = strings := by
  induction strings generalizing before with
  | nil => rfl
  | cons s strings ih =>
    have hrest := ih (before ++ s)
    rw [List.length_append, List.append_assoc] at hrest
    rw [endsFrom, cut, List.flatten_cons, hrest, List.drop_left, Nat.add_sub_cancel_left,
      List.take_left]

section

variable {host : Value → ω} {asHex : Bool} {e : Encoder} {table : List (List UInt16)}
  {items : List (Item ω)} {buffer : List UInt8}

theorem length_write (hw : e.write = some buffer) : buffer.length = e.byteLen := by
  obtain ⟨nums, hnums, hw⟩ := Option.bind_eq_some_iff.mp hw
  obtain ⟨ints, hints, hw⟩ := Option.bind_eq_some_iff.mp hw
  obtain ⟨ends, hends, hw⟩ := Option.bind_eq_some_iff.mp hw
  rw [← Option.some.inj hw]
  simp only [Encoder.words, List.length_append, length_flatMap_le, List.length_cons,
    List.length_nil, Encoder.byteLen]
  omega

/-- **JS reads what the encoder holds.** -/
theorem readInput_write (h : e.Wrote host asHex table items) (hw : e.write = some buffer)
    (others : List ω) :
    readInput buffer e.joined others = some {
      tags := e.tags
      nums := e.nums
      ints := e.ints
      strings := table
      others := others } := by
  have hlength := length_write hw
  obtain ⟨nums, hnums, hw⟩ := Option.bind_eq_some_iff.mp hw
  obtain ⟨ints, hints, hw⟩ := Option.bind_eq_some_iff.mp hw
  obtain ⟨ends, hends, hw⟩ := Option.bind_eq_some_iff.mp hw
  have hwords : ∀ ns : List UInt32, ∀ n ∈ ns, n.toNat < 256 ^ 4 := fun _ n _ => n.toNat_lt
  have hbuffer : buffer = Encoder.words [nums, ints, ends, 0, 0, 0, 0, 0] ++
      ((e.nums.flatMap fun n => le 8 n.toNat) ++
        (Encoder.words e.ints ++ (Encoder.words e.stringEnds ++ e.tags))) := by
    rw [← Option.some.inj hw]
    simp only [Encoder.words, List.flatMap_append, List.append_assoc]
  have hheader : view 4 8 buffer = [nums.toNat, ints.toNat, ends.toNat, 0, 0, 0, 0, 0] := by
    rw [hbuffer]
    exact view_flatMap (hwords [nums, ints, ends, 0, 0, 0, 0, 0]) _
  have hbody : buffer.drop 32 = (e.nums.flatMap fun n => le 8 n.toNat) ++
      (Encoder.words e.ints ++ (Encoder.words e.stringEnds ++ e.tags)) := by
    rw [hbuffer]
    exact drop_flatMap_le 4 UInt32.toNat [nums, ints, ends, 0, 0, 0, 0, 0] _
  have hofNat64 : (e.nums.map UInt64.toNat).map UInt64.ofNat = e.nums := by
    rw [List.map_map]
    exact (List.map_congr_left fun n _ => UInt64.ofNat_toNat).trans (List.map_id _)
  have hofNat32 : (e.ints.map UInt32.toNat).map UInt32.ofNat = e.ints := by
    rw [List.map_map]
    exact (List.map_congr_left fun n _ => UInt32.ofNat_toNat).trans (List.map_id _)
  have hcut : cut e.joined 0 (e.stringEnds.map UInt32.toNat) = table := by
    rw [Encoder.joined_eq h, h.ends]
    exact cut_flatten [] table
  unfold readInput
  rw [hheader]
  dsimp only
  rw [count_eq_some hnums, count_eq_some hints, count_eq_some hends, hbody,
    drop_flatMap_le 8 UInt64.toNat e.nums]
  rw [view_flatMap (fun n _ => n.toNat_lt), Encoder.words, drop_flatMap_le 4 UInt32.toNat e.ints,
    view_flatMap (hwords e.ints), Encoder.words, drop_flatMap_le 4 UInt32.toNat e.stringEnds,
    view_flatMap (hwords e.stringEnds), hofNat64, hofNat32, hcut, h.nums_length, List.take_length]
  refine if_neg ?_
  have hnumsLength := h.nums_length
  rw [hlength, Encoder.byteLen]
  omega

end

end JsCodec

end Settle
