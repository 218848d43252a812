import Settle.Data.Wire
import Settle.Types

/-!
# Value encoding

`encode_value` and `write_group_key` of `src/storage/mod.rs`, as far as a modelled function
compares or stores the bytes: the keys of groups.
-/

namespace Settle

open Wire

/-- `str::as_bytes`. -/
def utf8 (s : String) : List UInt8 := s.toByteArray.data.toList

/-- `String::from_utf8`. -/
def fromUtf8 (bytes : List UInt8) : Option String := String.fromUTF8? ⟨bytes.toArray⟩

theorem utf8_injective : Function.Injective utf8 := by
  intro a b h
  apply String.toByteArray_inj.mp
  apply ByteArray.ext
  exact Array.toList_inj.mp h

theorem fromUtf8_utf8 (s : String) : fromUtf8 (utf8 s) = some s := by
  have hbytes : (⟨(utf8 s).toArray⟩ : ByteArray) = s.toByteArray := by
    apply ByteArray.ext
    simp [utf8]
  rw [fromUtf8, hbytes, String.fromUTF8?, dif_pos s.isValidUTF8]
  rfl

/-- What `from_utf8` accepts are the bytes of the text it gives. -/
theorem utf8_of_fromUtf8 {bytes : List UInt8} {s : String} (h : fromUtf8 bytes = some s) :
    bytes = utf8 s := by
  unfold fromUtf8 String.fromUTF8? at h
  split at h
  · cases h
    simp [utf8, String.fromUTF8]
  · cases h

/-- `ByteArray.toList` lists the bytes of the array. -/
theorem toList_loop (bs : ByteArray) (i : Nat) (r : List UInt8) :
    ByteArray.toList.loop bs i r = r.reverse ++ bs.data.toList.drop i := by
  have hsize : bs.data.toList.length = bs.size := Array.length_toList
  induction hn : bs.size - i generalizing i r with
  | zero =>
    have hle : bs.data.toList.length ≤ i := by omega
    rw [ByteArray.toList.loop, if_neg (by omega), List.drop_eq_nil_of_le hle, List.append_nil]
  | succ n ih =>
    have hlt : i < bs.data.toList.length := by omega
    have hget : bs.get! i = bs.data.toList[i] := by
      cases bs with
      | mk data =>
        have hlt : i < data.size := by simpa using hlt
        show data[i]! = data.toList[i]
        simp [hlt]
    rw [ByteArray.toList.loop, if_pos (by omega), ih (i + 1) _ (by omega),
      List.drop_eq_getElem_cons hlt, hget, List.reverse_cons, List.append_assoc]
    rfl

theorem toUTF8_toList (s : String) : s.toUTF8.toList = utf8 s := by
  show ByteArray.toList.loop s.toByteArray 0 [] = utf8 s
  rw [toList_loop]
  rfl

/-- The length prefix of a payload: a `u32`. -/
def lengthPrefixed (bytes : List UInt8) : List UInt8 := le 4 (bytes.length % 2 ^ 32) ++ bytes

/-- The tag of the type, then the value. -/
def encodeValue : Value → List UInt8
  | .null => [0]
  | .uint64 v => 1 :: le 8 v.toNat
  | .int64 v => 2 :: le 8 v.toBitVec.toNat
  | .float64 bits => 3 :: le 8 bits.toNat
  | .string v => 4 :: lengthPrefixed v.toUTF8.toList
  | .dateTime v => 5 :: le 8 v.toBitVec.toNat
  | .boolean v => [6, if v then 1 else 0]
  | .bytes v => 7 :: lengthPrefixed v
  -- 32 bytes, big endian
  | .uint256 v => 8 :: (le 32 v.toNat).reverse
  | .base58 v => 9 :: lengthPrefixed v
  | .json text => 10 :: lengthPrefixed text.toUTF8.toList

/-- `storage::write_group_key`: the count of the values, then each value. -/
def encodeGroupKey (values : List Value) : List UInt8 :=
  le 4 (values.length % 2 ^ 32) ++ values.flatMap encodeValue

end Settle
