import Settle.Engine.Reducer
import Settle.Storage.ValueCodec

/-!
# The keys of reducer groups

`write_group_key` of `src/engine/reducer.rs` names a group by bytes: the raw bytes of a single
String, and else the encoding of the group-by values. The two kinds of keys share one map and one
key space in storage. `group_keys_apart_iff` says when two rows have the same key without having
the same group-by values: with one group-by column, exactly when one value is a String whose bytes
spell the encoding of the other value.
-/

namespace Settle

open Wire

namespace ReducerShape

variable (v : ReducerShape)

/-- The group-by values of a row: Null for a column that it lacks. -/
def groupValues (row : Row) : List Value := v.groupBy.map (SourceRow.column row)

/-- The key that the engine computes of a row. -/
def rowKey (row : Row) : Bytes := ReducerEngine.groupKey (v.groupBy.map row.registry.getId) row

end ReducerShape

/-- A String that spells the encoding of a value that is none. -/
def Spells (a b : Value) : Prop :=
  ∃ s, a = .string s ∧ (∀ t, b ≠ .string t) ∧ utf8 s = encodeGroupKey [b]

/-- The payloads of a value are shorter than a length prefix can say. -/
def Value.Short : Value → Prop
  | .string s | .json s => (utf8 s).length < 2 ^ 32
  | .bytes b | .base58 b => b.length < 2 ^ 32
  | _ => True

/-- JSON that is not looked into. -/
def verbatim : JsonText where
  Json := String
  toText s := s
  fromText s := .ok s
  fromText_toText _ := rfl
  utf8Error _ := ""

theorem Value.Short.fits {x : Value} (h : x.Short) : verbatim.Fits x := by
  cases x with
  | json s => exact ⟨h, s, rfl⟩
  | string s => exact h
  | bytes b => exact h
  | base58 b => exact h
  | _ => trivial

/-! ## One value -/

theorem leBytes_inj {width n m : Nat} (hn : n < 256 ^ width) (hm : m < 256 ^ width)
    (h : le width n = le width m) : n = m := by
  rw [← ofLe_le hn, ← ofLe_le hm, h]

theorem lengthPrefixed_inj {a b : Bytes} (h : lengthPrefixed a = lengthPrefixed b) : a = b := by
  have hlen : (le 4 (a.length % 2 ^ 32)).length = (le 4 (b.length % 2 ^ 32)).length := by
    rw [length_le, length_le]
  exact (List.append_inj h hlen).2

theorem text_inj {s t : String}
    (h : lengthPrefixed s.toUTF8.toList = lengthPrefixed t.toUTF8.toList) : s = t := by
  have := lengthPrefixed_inj h
  rw [toUTF8_toList, toUTF8_toList] at this
  exact utf8_injective this

theorem i64_inj {a b : Int64}
    (h : le 8 a.toBitVec.toNat = le 8 b.toBitVec.toNat) : a = b := by
  apply Int64.toBitVec_inj.mp
  apply BitVec.eq_of_toNat_eq
  exact leBytes_inj a.toBitVec.isLt b.toBitVec.isLt h

theorem u64_inj {a b : UInt64} (h : le 8 a.toNat = le 8 b.toNat) : a = b :=
  UInt64.toNat_inj.mp (leBytes_inj a.toNat_lt b.toNat_lt h)

/-- On its own a value is told by its encoding, however long its payload is. -/
theorem encodeValue_injective : Function.Injective encodeValue := by
  intro a b h
  -- values of different types have different tags
  cases a <;> cases b <;>
    first
      | (injection h with htag _
         exact absurd htag (by decide))
      | skip
  case uint64.uint64 => rw [u64_inj (List.cons.inj h).2]
  case int64.int64 => rw [i64_inj (List.cons.inj h).2]
  case float64.float64 => rw [u64_inj (List.cons.inj h).2]
  case uint256.uint256 v w =>
    have hv : v.toNat < 256 ^ 32 := v.isLt
    have hw : w.toNat < 256 ^ 32 := w.isLt
    rw [BitVec.eq_of_toNat_eq (leBytes_inj hv hw (List.reverse_injective (List.cons.inj h).2))]
  case string.string => rw [text_inj (List.cons.inj h).2]
  case dateTime.dateTime => rw [i64_inj (List.cons.inj h).2]
  case boolean.boolean v w => cases v <;> cases w <;> first | rfl | exact absurd h (by decide)
  case bytes.bytes => rw [lengthPrefixed_inj (List.cons.inj h).2]
  case base58.base58 => rw [lengthPrefixed_inj (List.cons.inj h).2]
  case json.json => rw [text_inj (List.cons.inj h).2]
  case null.null => rfl

theorem encodeGroupKey_singleton {a b : Value} (h : encodeGroupKey [a] = encodeGroupKey [b]) :
    a = b := by
  apply encodeValue_injective
  simpa [encodeGroupKey] using h

/-! ## Keys -/

/-- `write_group_key` of some values. -/
def keyOf : List Value → Bytes
  | [] => []
  | [.string s] => utf8 s
  | values => encodeGroupKey values

namespace ReducerShape

variable {v : ReducerShape}

theorem rowKey_eq (row : Row) : v.rowKey row = keyOf (v.groupValues row) := by
  have hmap : (v.groupBy.map row.registry.getId).map
      (fun id => (id.bind (row.values[·]?)).getD Value.null) = v.groupValues row := by
    rw [List.map_map]
    rfl
  unfold rowKey ReducerEngine.groupKey
  rw [← hmap]
  dsimp only
  split
  · next hids =>
    rw [hids]
    rfl
  · next id hids =>
    rw [hids, List.map_cons, List.map_nil]
    split
    · next s hs =>
      rw [hs, toUTF8_toList]
      rfl
    · next other hother =>
      unfold keyOf
      split
      · next heq => cases heq
      · next s heq =>
        injection heq with heq _
        exact absurd heq (hother s)
      · rfl
  · next ids hnil hone =>
    generalize hvalues : List.map _ _ = values
    have hlen : values.length = (v.groupBy.map row.registry.getId).length := by
      rw [← hvalues, List.length_map]
    unfold keyOf
    split
    · exact absurd (List.length_eq_zero_iff.mp hlen.symm) hnil
    · obtain ⟨id, hid⟩ := List.length_eq_one_iff.mp hlen.symm
      exact absurd hid (hone id)
    · rfl

/-- The encodings of short values are told apart, however many there are. -/
theorem encodeGroupKey_inj {xs ys : List Value} (hx : ∀ x ∈ xs, x.Short) (hy : ∀ y ∈ ys, y.Short)
    (h : encodeGroupKey xs = encodeGroupKey ys) : xs = ys :=
  JsonText.encodeValues_inj (fun x hmem => (hx x hmem).fits) (fun y hmem => (hy y hmem).fits) h

/-- One value against another: their keys are equal only for equal values, or where one spells the
encoding of the other. -/
theorem keyOf_singleton {a b : Value} (h : keyOf [a] = keyOf [b]) :
    a = b ∨ Spells a b ∨ Spells b a := by
  unfold keyOf at h
  split at h
  · next heq => cases heq
  · next s heq =>
    cases heq
    split at h
    · next heq => cases heq
    · next t heq =>
      cases heq
      exact Or.inl (by rw [utf8_injective h])
    · next hnone =>
      refine Or.inr (Or.inl ⟨s, rfl, ?_, h⟩)
      intro t ht
      exact hnone t (by rw [ht])
  · next hnone =>
    split at h
    · next heq => cases heq
    · next t heq =>
      cases heq
      refine Or.inr (Or.inr ⟨t, rfl, ?_, h.symm⟩)
      intro s hs
      exact hnone s (by rw [hs])
    · exact Or.inl (encodeGroupKey_singleton h)

theorem keyOf_of_spells {a b : Value} (h : Spells a b) : keyOf [a] = keyOf [b] ∧ a ≠ b := by
  obtain ⟨s, rfl, hb, hspell⟩ := h
  refine ⟨?_, fun heq => hb s heq.symm⟩
  show utf8 s = keyOf [b]
  rw [hspell]
  unfold keyOf
  split
  · next heq => cases heq
  · next t heq =>
    injection heq with heq _
    exact absurd heq (hb t)
  · rfl

/-- **When group keys tell groups apart.** Two rows have the same key exactly when they have the
same group-by values, unless there is one group-by column and the value of one row is a String that
spells the encoding of the other's. -/
theorem group_keys_apart_iff (v : ReducerShape) (a b : Row)
    (hshort : v.groupBy.length ≠ 1 → ∀ x ∈ v.groupValues a ++ v.groupValues b, x.Short) :
    (v.rowKey a = v.rowKey b ↔ v.groupValues a = v.groupValues b) ↔
      ∀ name, v.groupBy = [name] →
        ¬ Spells (SourceRow.column a name) (SourceRow.column b name) ∧
        ¬ Spells (SourceRow.column b name) (SourceRow.column a name) := by
  rw [rowKey_eq, rowKey_eq]
  by_cases hone : v.groupBy.length = 1
  · obtain ⟨name, hname⟩ := List.length_eq_one_iff.mp hone
    have ha : v.groupValues a = [SourceRow.column a name] := by
      rw [groupValues, hname]
      rfl
    have hb : v.groupValues b = [SourceRow.column b name] := by
      rw [groupValues, hname]
      rfl
    rw [ha, hb, List.singleton_inj]
    constructor
    · intro hiff other hother
      obtain rfl : name = other := List.singleton_inj.mp (hname.symm.trans hother)
      constructor
      · intro hspell
        obtain ⟨hkey, hne⟩ := keyOf_of_spells hspell
        exact hne (hiff.mp hkey)
      · intro hspell
        obtain ⟨hkey, hne⟩ := keyOf_of_spells hspell
        exact hne (hiff.mp hkey.symm).symm
    · intro hapart
      obtain ⟨hab, hba⟩ := hapart name hname
      refine ⟨?_, fun heq => by rw [heq]⟩
      intro hkey
      rcases keyOf_singleton hkey with heq | hspell | hspell
      · exact heq
      · exact absurd hspell hab
      · exact absurd hspell hba
  · have hkeyOf : ∀ row, keyOf (v.groupValues row)
        = if v.groupBy = [] then [] else encodeGroupKey (v.groupValues row) := by
      intro row
      have hlen : (v.groupValues row).length = v.groupBy.length := List.length_map _
      unfold keyOf
      split
      · next hnil =>
        rw [hnil] at hlen
        rw [if_pos (List.length_eq_zero_iff.mp hlen.symm)]
      · next s hs =>
        rw [hs] at hlen
        exact absurd hlen.symm hone
      · next hnil _ =>
        rw [if_neg fun hempty => hnil (List.length_eq_zero_iff.mp (by rw [hlen, hempty]; rfl))]
    have hvacuous : ∀ name, v.groupBy = [name] → ¬ Spells (SourceRow.column a name)
        (SourceRow.column b name) ∧ ¬ Spells (SourceRow.column b name) (SourceRow.column a name) :=
      fun name hname => absurd (by rw [hname]; rfl) hone
    rw [hkeyOf, hkeyOf]
    refine ⟨fun _ => hvacuous, fun _ => ⟨?_, fun heq => by rw [heq]⟩⟩
    by_cases hempty : v.groupBy = []
    · intro _
      rw [groupValues, groupValues, hempty]
      rfl
    · rw [if_neg hempty, if_neg hempty]
      intro hkey
      apply encodeGroupKey_inj _ _ hkey
      · exact fun x hx => hshort hone x (List.mem_append_left _ hx)
      · exact fun x hx => hshort hone x (List.mem_append_right _ hx)

/-! ### A reducer with one String key -/

/-- One group-by column, and a body that does nothing. -/
def byName : ReducerShape where
  name := "r"
  source := "t"
  groupBy := ["k"]
  defaultState := []
  mapFields := 0
  runtime :=
    { process := fun values _ _ => ⟨values, [], [], none⟩
      batched := false
      values_length := fun _ _ _ => rfl
      maps_mem := fun _ _ _ _ h => nomatch h }

def rowOfKey (key : Value) : Row := ⟨⟨["k"]⟩, [key]⟩

/-- Rows are grouped by two columns. -/
def byTwo : ReducerShape := { byName with groupBy := ["k", "day"] }

def rowOfTwo (key day : Value) : Row := ⟨⟨["k", "day"]⟩, [key, day]⟩

/-- One column, and two columns with short values. -/
theorem group_keys_apart_ab :
    byName.rowKey (rowOfKey (.string "a")) ≠ byName.rowKey (rowOfKey (.string "b")) ∧
    byTwo.rowKey (rowOfTwo (.string "ab") (.uint64 1))
      ≠ byTwo.rowKey (rowOfTwo (.string "a") .null) := by
  have hone : ∀ name, byName.groupBy = [name] →
      ¬ Spells (SourceRow.column (rowOfKey (.string "a")) name)
        (SourceRow.column (rowOfKey (.string "b")) name) ∧
      ¬ Spells (SourceRow.column (rowOfKey (.string "b")) name)
        (SourceRow.column (rowOfKey (.string "a")) name) := by
    intro name hname
    obtain rfl : "k" = name := List.singleton_inj.mp hname
    exact ⟨fun h => h.choose_spec.2.1 "b" rfl, fun h => h.choose_spec.2.1 "a" rfl⟩
  have hshort : byTwo.groupBy.length ≠ 1 →
      ∀ x ∈ byTwo.groupValues (rowOfTwo (.string "ab") (.uint64 1)) ++
        byTwo.groupValues (rowOfTwo (.string "a") .null), x.Short := by
    intro _ x hx
    rcases List.mem_append.mp hx with hx | hx
    · rcases List.mem_pair.mp hx with rfl | rfl
      · show (utf8 "ab").length < 2 ^ 32
        decide +kernel
      · trivial
    · rcases List.mem_pair.mp hx with rfl | rfl
      · show (utf8 "a").length < 2 ^ 32
        decide +kernel
      · trivial
  have hiff := (group_keys_apart_iff byName (rowOfKey (.string "a")) (rowOfKey (.string "b"))
    (fun hne => absurd rfl hne)).mpr hone
  have hiff' := (group_keys_apart_iff byTwo (rowOfTwo (.string "ab") (.uint64 1))
    (rowOfTwo (.string "a") .null) hshort).mpr (fun name hname => by cases hname)
  constructor
  · intro hkey
    exact absurd (hiff.mp hkey) (by decide)
  · intro hkey
    exact absurd (hiff'.mp hkey) (by decide)

/-- The String that spells the key of a Null. -/
def nullKey : String := "\x01\x00\x00\x00\x00"

theorem string_shares_null_key :
    byName.rowKey (rowOfKey (.string nullKey)) = byName.rowKey (rowOfKey .null) ∧
    byName.groupValues (rowOfKey (.string nullKey)) ≠ byName.groupValues (rowOfKey .null) := by
  rw [rowKey_eq, rowKey_eq]
  decide +kernel

end ReducerShape

end Settle
