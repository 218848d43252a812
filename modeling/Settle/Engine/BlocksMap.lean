import Settle.Engine.Blocks
import Settle.Data.Wire
import Settle.Data.ByteKeys

/-!
# `Blocks` is a sorted map

`Settle.Engine.Blocks` relates each operation of `Blocks` to the operation of its name on
`toMap`. This file adds the rest of `src/engine/blocks.rs`: the iterator, which is read
from both ends, the reference that `or_insert` returns, and the serde implementations.
Then it runs any operations on a `Blocks` and on a map, side by side:

* `step_refines` — one operation gives the same on both, and keeps `Refines`;
* `blocks_refine_map` — so does every sequence of them, and whatever is read of the
  `Blocks` afterwards is read off the map.

A data format is a parameter, `MapFormat`: serde hands it the number of the entries and
then the entries, and it hands the entries back.
-/

namespace Settle

open Std

namespace Blocks

variable {V W R : Type}

/-! ## From a map -/

/-- `From<BTreeMap<BlockNumber, V>>` -/
def ofMap (map : BTreeMap BlockNumber V) : Blocks V :=
  match map.size, map.toList with
  | 0, _ => .empty
  | 1, (block, value) :: _ => .one block value
  | _, _ => .many map

/-- The map form holds entries. -/
def ManyHolds (bs : Blocks V) : Prop := ∀ map, bs = .many map → map ≠ ∅

/-- A map of one entry is that entry. -/
theorem eq_insert_of_toList {map : BTreeMap BlockNumber V} {block : BlockNumber} {value : V}
    (h : map.toList = [(block, value)]) :
    map = (∅ : BTreeMap BlockNumber V).insert block value := by
  ext k v
  rw [← ExtTreeMap.mem_toList_iff_getElem?_eq_some, h, ExtTreeMap.getElem?_insert]
  simp only [List.mem_singleton, Prod.mk.injEq, LawfulEqCmp.compare_eq_iff_eq,
    ExtTreeMap.getElem?_empty]
  split <;> grind

theorem toMap_ofMap (map : BTreeMap BlockNumber V) : (ofMap map).toMap = map := by
  rw [ofMap]
  split
  · next h => exact (ExtTreeMap.eq_empty_iff_size_eq_zero.mpr h).symm
  · next block value rest hsize hlist =>
    have hrest : rest = [] := by
      rw [← ExtTreeMap.length_toList, hlist] at hsize
      exact List.length_eq_zero_iff.mp (Nat.succ.inj hsize)
    subst hrest
    exact (eq_insert_of_toList hlist).symm
  · rfl

theorem manyHolds_ofMap (map : BTreeMap BlockNumber V) : (ofMap map).ManyHolds := by
  intro map' h hempty
  subst hempty
  rw [ofMap] at h
  split at h
  · exact nomatch h
  · exact nomatch h
  · next hzero _ =>
    cases h
    exact hzero ExtTreeMap.size_empty

/-! ## The iterator -/

/-- The end of an iterator that is read. -/
inductive Side where
  | front | back

/-- `Iter`: of a map, the entries between its two ends. -/
inductive Iter (V : Type) where
  | done
  | one (block : BlockNumber) (value : V)
  | many (entries : List (BlockNumber × V))

/-- `Blocks::iter` -/
def iterator : Blocks V → Iter V
  | .empty => .done
  | .one block value => .one block value
  | .many map => .many map.toList

namespace Iter

/-- `Iterator::next` -/
def next : Iter V → Option (BlockNumber × V) × Iter V
  | .many entries => (entries.head?, .many entries.tail)
  | .one block value => (some (block, value), .done)
  | .done => (none, .done)

/-- `DoubleEndedIterator::next_back` -/
def nextBack : Iter V → Option (BlockNumber × V) × Iter V
  | .many entries => (entries.getLast?, .many entries.dropLast)
  | it => it.next

/-- `Iterator::fold` -/
def fold {B : Type} (init : B) (f : B → BlockNumber × V → B) : Iter V → B
  | .many entries => entries.foldl f init
  | .one block value => f init (block, value)
  | .done => init

def pull (it : Iter V) : Side → Option (BlockNumber × V) × Iter V
  | .front => it.next
  | .back => it.nextBack

/-- What the iterator gives when it is read at these ends, in this order. -/
def pulls (it : Iter V) : List Side → List (Option (BlockNumber × V))
  | [] => []
  | side :: sides => (it.pull side).1 :: (it.pull side).2.pulls sides

/-- The entries an iterator has still to give. -/
def rest : Iter V → List (BlockNumber × V)
  | .done => []
  | .one block value => [(block, value)]
  | .many entries => entries

end Iter

/-- What a list gives when it is read at these ends, in this order. -/
def listPulls {α : Type} (entries : List α) : List Side → List (Option α)
  | [] => []
  | .front :: sides => entries.head? :: listPulls entries.tail sides
  | .back :: sides => entries.getLast? :: listPulls entries.dropLast sides

theorem Iter.next_spec (it : Iter V) :
    it.next.1 = it.rest.head? ∧ it.next.2.rest = it.rest.tail := by
  cases it <;> exact ⟨rfl, rfl⟩

theorem Iter.nextBack_spec (it : Iter V) :
    it.nextBack.1 = it.rest.getLast? ∧ it.nextBack.2.rest = it.rest.dropLast := by
  cases it <;> exact ⟨rfl, rfl⟩

/-- Reading an iterator is reading the list of its entries. -/
theorem Iter.pulls_eq (it : Iter V) (sides : List Side) :
    it.pulls sides = listPulls it.rest sides := by
  induction sides generalizing it with
  | nil => rfl
  | cons side sides ih =>
    rw [pulls, ih]
    cases side with
    | front =>
      rw [pull, listPulls]
      rw [it.next_spec.1, it.next_spec.2]
    | back =>
      rw [pull, listPulls]
      rw [it.nextBack_spec.1, it.nextBack_spec.2]

theorem Iter.fold_eq {B : Type} (it : Iter V) (init : B) (f : B → BlockNumber × V → B) :
    it.fold init f = it.rest.foldl f init := by
  cases it <;> rfl

@[simp] theorem rest_iterator (bs : Blocks V) : bs.iterator.rest = bs.toMap.toList := by
  rw [← iter_eq]
  cases bs <;> rfl

/-! ## The reference of `or_insert` -/

/-- `or_insert`, with a caller that reads the value of `block` through the reference it
is given and writes it: `use` says what it makes of the value. -/
def orInsertRef (bs : Blocks V) (block : BlockNumber) (value : V) (use : V → R × V) :
    R × Blocks V :=
  match bs with
  | .many map =>
    let entry := map[block]?.getD value
    ((use entry).1, .many (map.insert block (use entry).2))
  | .one b old =>
    if b = block then ((use old).1, .one b (use old).2)
    else
      let map := (∅ : BTreeMap BlockNumber V).insert b old
      let entry := map[block]?.getD value
      ((use entry).1, .many (map.insert block (use entry).2))
  | .empty => ((use value).1, .one block (use value).2)

theorem orInsertRef_spec (bs : Blocks V) (block : BlockNumber) (value : V) (use : V → R × V) :
    (bs.orInsertRef block value use).1 = (use (bs.toMap[block]?.getD value)).1 ∧
      (bs.orInsertRef block value use).2.toMap
        = bs.toMap.insert block (use (bs.toMap[block]?.getD value)).2 := by
  cases bs with
  | empty => exact ⟨by simp [orInsertRef], by simp [orInsertRef]⟩
  | one b old =>
    rw [orInsertRef, toMap_one]
    split
    · next h =>
      subst h
      refine ⟨by simp, ?_⟩
      simp only [ExtTreeMap.getElem?_insert_self, Option.getD_some, toMap_one]
      ext k v
      grind
    · exact ⟨rfl, rfl⟩
  | many map => exact ⟨rfl, rfl⟩

/-! ## Serialization -/

/-- A data format of serde, with the codecs of block numbers and values in it. -/
structure MapFormat (V W : Type) where
  /-- `serialize_map` with the number of entries, `serialize_entry` for each, `end`. -/
  serializeMap : Nat → List (BlockNumber × V) → Except String W
  /-- `deserialize_map`: what `next_entry` gives, one entry after the other. -/
  deserializeMap : W → Except String (List (BlockNumber × V))

/-- A map that was written with its right number of entries reads back. -/
def MapFormat.Lossless (format : MapFormat V W) : Prop :=
  ∀ entries w, format.serializeMap entries.length entries = .ok w →
    format.deserializeMap w = .ok entries

/-- `Serialize for Blocks` -/
def serialize (format : MapFormat V W) (bs : Blocks V) : Except String W :=
  format.serializeMap bs.len bs.iter

/-- `Deserialize for Blocks` -/
def deserialize (format : MapFormat V W) (w : W) : Except String (Blocks V) := do
  let entries ← format.deserializeMap w
  return ofMap (entries.foldl (fun map e => map.insert e.1 e.2) ∅)

/-- The encoding is that of the map. -/
theorem serialize_eq (format : MapFormat V W) (bs : Blocks V) :
    bs.serialize format = format.serializeMap bs.toMap.toList.length bs.toMap.toList := by
  rw [serialize, len_eq, iter_eq]

/-- Inserting the entries of a map builds it again. -/
theorem foldl_insert_toList (map : BTreeMap BlockNumber V) :
    map.toList.foldl (fun map e => map.insert e.1 e.2) ∅ = map := by
  have hdistinct : map.toList.Pairwise fun a b => ¬ compare a.1 b.1 = .eq :=
    ExtTreeMap.ordered_keys_toList.imp fun h heq => by rw [h] at heq; exact nomatch heq
  have hfold : map.toList.foldl (fun map e => map.insert e.1 e.2) ∅
      = ExtTreeMap.ofList map.toList compare := ExtTreeMap.ofList_eq_foldl.symm
  rw [hfold]
  refine ExtTreeMap.ext_getElem? fun k => ?_
  cases h : map[k]? with
  | some v =>
    apply ExtTreeMap.getElem?_ofList_of_mem ReflCmp.compare_self hdistinct
    exact ExtTreeMap.mem_toList_iff_getElem?_eq_some.mpr h
  | none =>
    apply ExtTreeMap.getElem?_ofList_of_contains_eq_false
    rw [OrdMap.contains_map_fst_toList]
    rw [ExtTreeMap.contains_eq_isSome_getElem?, h]
    rfl

/-- A written `Blocks` reads back as a `Blocks` of the same entries. -/
theorem deserialize_serialize {format : MapFormat V W} (hf : format.Lossless) {bs : Blocks V}
    {w : W} (h : bs.serialize format = .ok w) :
    deserialize format w = .ok (ofMap bs.toMap) := by
  rw [serialize_eq] at h
  rw [deserialize, hf _ _ h]
  show Except.ok _ = _
  rw [foldl_insert_toList]

/-! ## The map form is never empty -/

theorem manyHolds_dropEmptyMap (bs : Blocks V) : bs.dropEmptyMap.ManyHolds := by
  intro map h hempty
  subst hempty
  cases bs with
  | empty => cases h
  | one block value => cases h
  | many map =>
    rw [dropEmptyMap] at h
    split at h
    · cases h
    · next hne =>
      cases h
      exact hne rfl

theorem manyHolds_empty : (empty : Blocks V).ManyHolds := fun _ h => nomatch h

theorem manyHolds_insert (bs : Blocks V) (block : BlockNumber) (value : V) :
    (bs.insert block value).ManyHolds := by
  intro map h hempty
  have hmap := toMap_insert bs block value
  rw [h, toMap_many, hempty] at hmap
  exact absurd hmap.symm ExtTreeMap.insert_ne_empty

theorem manyHolds_orInsertRef (bs : Blocks V) (block : BlockNumber) (value : V)
    (use : V → R × V) : (bs.orInsertRef block value use).2.ManyHolds := by
  intro map h hempty
  have hmap := (orInsertRef_spec bs block value use).2
  rw [h, toMap_many, hempty] at hmap
  exact absurd hmap.symm ExtTreeMap.insert_ne_empty

theorem manyHolds_remove {bs : Blocks V} (h : bs.ManyHolds) (block : BlockNumber) :
    (bs.remove block).2.ManyHolds := by
  cases bs with
  | empty => exact h
  | one b value =>
    rw [remove]
    split
    · exact manyHolds_empty
    · exact h
  | many map =>
    show (dropEmptyMap (many (map.erase block))).ManyHolds
    exact manyHolds_dropEmptyMap _

theorem manyHolds_removeAbove {bs : Blocks V} (h : bs.ManyHolds) (block : BlockNumber) :
    (bs.removeAbove block).2.ManyHolds := by
  cases bs with
  | empty => exact h
  | one b value =>
    rw [removeAbove]
    split
    · exact h
    · exact manyHolds_empty
  | many map =>
    rw [removeAbove]
    split
    -- at `u64::MAX` the source returns before it looks at the map
    · exact h
    · show (dropEmptyMap (many (map.filter fun b _ => b < block + 1))).ManyHolds
      exact manyHolds_dropEmptyMap _

theorem manyHolds_drainUpTo {bs : Blocks V} (h : bs.ManyHolds) (block : BlockNumber) :
    (bs.drainUpTo block).2.ManyHolds := by
  cases bs with
  | empty => exact h
  | one b value =>
    rw [drainUpTo]
    split
    · exact h
    · exact manyHolds_empty
  | many map =>
    show (dropEmptyMap (many (map.filter fun b _ => block < b))).ManyHolds
    exact manyHolds_dropEmptyMap _

/-! ## Runs -/

/-- The operations that change a `Blocks`. -/
inductive Op (V R : Type) where
  | insert (block : BlockNumber) (value : V)
  /-- with what the caller does through the reference it gets -/
  | orInsert (block : BlockNumber) (value : V) (use : V → R × V)
  | remove (block : BlockNumber)
  | removeAbove (block : BlockNumber)
  | drainUpTo (block : BlockNumber)
  /-- serialize, and deserialize what was written -/
  | roundTrip

/-- What an operation gives. -/
inductive Out (V W R : Type) where
  | unit
  | used (r : R)
  | removed (value : Option V)
  | drained (values : List V)
  | written (w : W)
  | failed (error : String)

def step (format : MapFormat V W) (bs : Blocks V) : Op V R → Out V W R × Blocks V
  | .insert block value => (.unit, bs.insert block value)
  | .orInsert block value use =>
    (.used (bs.orInsertRef block value use).1, (bs.orInsertRef block value use).2)
  | .remove block => (.removed (bs.remove block).1, (bs.remove block).2)
  | .removeAbove block => (.removed (bs.removeAbove block).1, (bs.removeAbove block).2)
  | .drainUpTo block => (.drained (bs.drainUpTo block).1, (bs.drainUpTo block).2)
  | .roundTrip =>
    match bs.serialize format with
    | .error e => (.failed e, bs)
    | .ok w =>
      match deserialize format w with
      | .error e => (.failed e, bs)
      | .ok bs' => (.written w, bs')

/-- The value of the lowest block of a map above `block`. -/
def lowestAbove (map : BTreeMap BlockNumber V) (block : BlockNumber) : Option V :=
  (map.toList.find? fun e => block < e.1).map Prod.snd

/-- The same operation on a sorted map. A round trip leaves it as it is. -/
def mapStep (format : MapFormat V W) (map : BTreeMap BlockNumber V) :
    Op V R → Out V W R × BTreeMap BlockNumber V
  | .insert block value => (.unit, map.insert block value)
  | .orInsert block value use =>
    (.used (use (map[block]?.getD value)).1,
      map.insert block (use (map[block]?.getD value)).2)
  | .remove block => (.removed map[block]?, map.erase block)
  | .removeAbove block => (.removed (lowestAbove map block), OrdMap.keep map (· ≤ block))
  | .drainUpTo block =>
    (.drained ((OrdMap.keep map (· ≤ block)).toList.map Prod.snd), OrdMap.keep map (block < ·))
  | .roundTrip =>
    match format.serializeMap map.toList.length map.toList with
    | .error e => (.failed e, map)
    | .ok w => (.written w, map)

/-- The operations one after the other: what each gives, and what is there at the end. -/
def runOps {S A O : Type} (step : S → A → O × S) (s : S) : List A → List O × S
  | [] => ([], s)
  | op :: ops =>
    ((step s op).1 :: (runOps step (step s op).2 ops).1, (runOps step (step s op).2 ops).2)

/-- A `Blocks` that holds the entries of a map, in the form that fits. -/
structure Refines (bs : Blocks V) (map : BTreeMap BlockNumber V) : Prop where
  toMap : bs.toMap = map
  manyHolds : bs.ManyHolds

/-- **One operation** on a `Blocks` and on its map: the same comes out, and the two
stay together. -/
theorem step_refines {format : MapFormat V W} (hf : format.Lossless) {bs : Blocks V}
    {map : BTreeMap BlockNumber V} (h : Refines bs map) (op : Op V R) :
    (bs.step format op).1 = (mapStep format map op).1 ∧
      Refines (bs.step format op).2 (mapStep format map op).2 := by
  obtain ⟨rfl, hmany⟩ := h
  cases op with
  | insert block value =>
    exact ⟨rfl, toMap_insert bs block value, manyHolds_insert bs block value⟩
  | orInsert block value use =>
    obtain ⟨hused, hmap⟩ := orInsertRef_spec bs block value use
    refine ⟨?_, hmap, manyHolds_orInsertRef bs block value use⟩
    rw [step, mapStep, hused]
  | remove block =>
    refine ⟨?_, toMap_remove bs block, manyHolds_remove hmany block⟩
    rw [step, mapStep, remove_fst]
  | removeAbove block =>
    refine ⟨?_, toMap_removeAbove bs block, manyHolds_removeAbove hmany block⟩
    rw [step, mapStep, removeAbove_fst, lowestAbove]
  | drainUpTo block =>
    refine ⟨?_, toMap_drainUpTo bs block, manyHolds_drainUpTo hmany block⟩
    rw [step, mapStep, drainUpTo_fst]
  | roundTrip =>
    rw [step, mapStep, ← serialize_eq]
    cases hw : bs.serialize format with
    | error e => exact ⟨rfl, rfl, hmany⟩
    | ok w =>
      dsimp only
      rw [deserialize_serialize hf hw]
      exact ⟨rfl, toMap_ofMap bs.toMap, manyHolds_ofMap bs.toMap⟩

/-- The operations of a run keep the two together. -/
theorem runOps_refines {format : MapFormat V W} (hf : format.Lossless) {bs : Blocks V}
    {map : BTreeMap BlockNumber V} (h : Refines bs map) (ops : List (Op V R)) :
    (runOps (step format) bs ops).1 = (runOps (mapStep format) map ops).1 ∧
      Refines (runOps (step format) bs ops).2 (runOps (mapStep format) map ops).2 := by
  induction ops generalizing bs map with
  | nil => exact ⟨rfl, h⟩
  | cons op ops ih =>
    obtain ⟨hout, hstep⟩ := step_refines hf h op
    obtain ⟨houts, hrun⟩ := ih hstep
    refine ⟨?_, hrun⟩
    rw [runOps, runOps, hout, houts]

/-! ## What is read -/

/-- The entry that `find?` stops at in a sorted list has the least key. -/
theorem find?_above_spec {map : BTreeMap BlockNumber V} {block : BlockNumber}
    {e : BlockNumber × V} (h : (map.toList.find? fun e => block < e.1) = some e) :
    block < e.1 ∧ map[e.1]? = some e.2 ∧ ∀ b ∈ map, block < b → e.1 ≤ b := by
  obtain ⟨habove, before, after, hlist, hbefore⟩ := List.find?_eq_some_iff_append.mp h
  refine ⟨by simpa using habove, ?_, ?_⟩
  · apply ExtTreeMap.mem_toList_iff_getElem?_eq_some.mp
    rw [hlist]
    exact List.mem_append_right before List.mem_cons_self
  · intro b hb hlt
    obtain ⟨v, hv⟩ := OrdMap.exists_getElem?_of_mem hb
    have hmem : (b, v) ∈ before ++ e :: after := by
      rw [← hlist]
      exact ExtTreeMap.mem_toList_iff_getElem?_eq_some.mpr hv
    have hsorted : OrdMap.Sorted (before ++ e :: after) := hlist ▸ OrdMap.sorted_toList map
    rcases List.mem_append.mp hmem with hin | hin
    · simpa [hlt] using hbefore _ hin
    · rcases List.mem_cons.mp hin with heq | hin
      · exact le_of_eq (congrArg Prod.fst heq).symm
      · apply UInt64.le_of_lt
        exact List.rel_of_pairwise_cons (List.pairwise_append.mp hsorted).2.1 hin

/-- What `lowestAbove` gives is the value at the least key above `block`. -/
theorem lowestAbove_eq_some {map : BTreeMap BlockNumber V} {block : BlockNumber} {value : V} :
    lowestAbove map block = some value ↔
      ∃ b, block < b ∧ map[b]? = some value ∧ ∀ b' ∈ map, block < b' → b ≤ b' := by
  rw [lowestAbove]
  constructor
  · intro h
    obtain ⟨e, he, rfl⟩ := Option.map_eq_some_iff.mp h
    exact ⟨e.1, find?_above_spec he⟩
  · rintro ⟨b, hlt, hb, hleast⟩
    have hsome : (map.toList.find? fun e => block < e.1).isSome := by
      apply List.find?_isSome.mpr
      exact ⟨(b, value), ExtTreeMap.mem_toList_iff_getElem?_eq_some.mpr hb, by simpa using hlt⟩
    obtain ⟨e, he⟩ := Option.isSome_iff_exists.mp hsome
    obtain ⟨habove, hget, hfirst⟩ := find?_above_spec he
    -- both are least
    have heq : e.1 = b :=
      le_antisymm (hfirst b (OrdMap.mem_of_getElem?_eq hb) hlt)
        (hleast e.1 (OrdMap.mem_of_getElem?_eq hget) habove)
    rw [he, Option.map_some, ← hget, heq, hb]

/-- The last entry of a map has its greatest key. -/
theorem getLast?_eq_some {map : BTreeMap BlockNumber V} {block : BlockNumber} :
    map.toList.getLast?.map Prod.fst = some block ↔ block ∈ map ∧ ∀ b ∈ map, b ≤ block := by
  have hlast : ∀ e, map.toList.getLast? = some e → e.1 ∈ map ∧ ∀ b ∈ map, b ≤ e.1 := by
    intro e he
    obtain ⟨front, hlist⟩ := List.getLast?_eq_some_iff.mp he
    have hsorted : OrdMap.Sorted (front ++ [e]) := hlist ▸ OrdMap.sorted_toList map
    refine ⟨?_, ?_⟩
    · apply OrdMap.mem_of_getElem?_eq (v := e.2)
      apply ExtTreeMap.mem_toList_iff_getElem?_eq_some.mp
      rw [hlist]
      exact List.mem_append_right front (List.mem_singleton.mpr rfl)
    · intro b hb
      obtain ⟨v, hv⟩ := OrdMap.exists_getElem?_of_mem hb
      have hmem : (b, v) ∈ front ++ [e] := by
        rw [← hlist]
        exact ExtTreeMap.mem_toList_iff_getElem?_eq_some.mpr hv
      rcases List.mem_append.mp hmem with hin | hin
      · apply UInt64.le_of_lt
        exact (List.pairwise_append.mp hsorted).2.2 _ hin e (List.mem_singleton.mpr rfl)
      · exact le_of_eq (congrArg Prod.fst (List.mem_singleton.mp hin))
  constructor
  · intro h
    obtain ⟨e, he, rfl⟩ := Option.map_eq_some_iff.mp h
    exact hlast e he
  · rintro ⟨hmem, hgreatest⟩
    cases he : map.toList.getLast? with
    | none =>
      obtain ⟨v, hv⟩ := OrdMap.exists_getElem?_of_mem hmem
      have hin := ExtTreeMap.mem_toList_iff_getElem?_eq_some.mpr hv
      rw [List.getLast?_eq_none_iff.mp he] at hin
      exact absurd hin List.not_mem_nil
    | some e =>
      obtain ⟨hin, hall⟩ := hlast e he
      rw [Option.map_some, le_antisymm (hgreatest e.1 hin) (hall block hmem)]

/-- Everything that is read of a `Blocks` is read off the map. -/
structure ReadsAs (bs : Blocks V) (map : BTreeMap BlockNumber V) : Prop where
  get : ∀ block, bs.get block = map[block]?
  len : bs.len = map.size
  isEmpty : bs.isEmpty = map.isEmpty
  /-- `first_above` gives the value of the lowest block above -/
  firstAbove : ∀ block value, bs.firstAbove block = some value ↔
    ∃ b, block < b ∧ map[b]? = some value ∧ ∀ b' ∈ map, block < b' → b ≤ b'
  /-- `last_block` gives the highest block -/
  lastBlock : ∀ block, bs.lastBlock = some block ↔ block ∈ map ∧ ∀ b ∈ map, b ≤ block
  /-- the iterator lists the entries of the map -/
  iter : ∀ block value, (block, value) ∈ bs.iter ↔ map[block]? = some value
  /-- in the order of the blocks -/
  ordered : bs.iter.Pairwise fun e f => e.1 < f.1
  /-- whichever end it is read from, and in one `fold` -/
  pulls : ∀ sides, bs.iterator.pulls sides = listPulls map.toList sides
  fold : ∀ (B : Type) (init : B) f, bs.iterator.fold init f = map.toList.foldl f init
  values : bs.values = map.toList.map Prod.snd

theorem Refines.readsAs {bs : Blocks V} {map : BTreeMap BlockNumber V} (h : Refines bs map) :
    ReadsAs bs map := by
  obtain ⟨rfl, -⟩ := h
  constructor
  case get => exact get_eq bs
  case len => rw [len_eq, ExtTreeMap.length_toList]
  case isEmpty => rw [isEmpty_eq, ExtTreeMap.isEmpty_toList]
  case firstAbove =>
    intro block value
    rw [firstAbove_eq]
    exact lowestAbove_eq_some
  case lastBlock =>
    intro block
    rw [lastBlock_eq]
    exact getLast?_eq_some
  case iter =>
    intro block value
    rw [iter_eq]
    exact ExtTreeMap.mem_toList_iff_getElem?_eq_some
  case ordered =>
    rw [iter_eq]
    exact OrdMap.sorted_toList bs.toMap
  case pulls =>
    intro sides
    rw [Iter.pulls_eq, rest_iterator]
  case fold =>
    intro B init f
    rw [Iter.fold_eq, rest_iterator]
  case values => exact values_eq bs

/-! ## MessagePack

The format of the stored aggregates, for values that are numbers: the parameter of the
run theorem has an instance. -/

section MessagePack

open Wire (Reader Reads take check times whole reads_take reads_times)
open ByteKeys (be ofBe length_be ofBe_be)

/-- A big-endian number of `width` bytes. -/
def readBe (width : Nat) : Reader String Nat := do
  let bytes ← take (fun _ => "unexpected end") width
  pure (ofBe bytes)

theorem reads_readBe {width n : Nat} (h : n < 256 ^ width) :
    Reads (readBe width) (be width n) n := by
  have htake := reads_take (fun _ => "unexpected end") (be width n)
  rw [length_be] at htake
  have hread := htake.map ofBe
  rwa [ofBe_be h] at hread

/-- What a marker byte stands for: a number, or the bytes of a number that follow. -/
inductive Marker where
  | number (n : Nat)
  | width (bytes : Nat)
  | unknown

/-- The head of a number or of a map. -/
def readMarked (kind : Nat → Marker) : Reader String Nat := do
  let marker ← readBe 1
  match kind marker with
  | .number n => pure n
  | .width bytes => readBe bytes
  | .unknown => check (.error "unexpected marker")

theorem reads_number {kind : Nat → Marker} {marker n : Nat} (hmarker : marker < 256)
    (hkind : kind marker = .number n) : Reads (readMarked kind) (be 1 marker) n := by
  have h : Reads (readMarked kind) (be 1 marker ++ []) n := by
    apply (reads_readBe (by simpa using hmarker)).bind
    rw [hkind]
    exact Reads.pure n
  rwa [List.append_nil] at h

theorem reads_width {kind : Nat → Marker} {marker bytes n : Nat} (hmarker : marker < 256)
    (hkind : kind marker = .width bytes) (hn : n < 256 ^ bytes) :
    Reads (readMarked kind) (be 1 marker ++ be bytes n) n := by
  apply (reads_readBe (by simpa using hmarker)).bind
  rw [hkind]
  exact reads_readBe hn

/-- A number takes the fewest bytes that hold it. -/
def writeUint (n : Nat) : Wire.Bytes :=
  if n < 128 then be 1 n
  else if n < 2 ^ 8 then be 1 0xcc ++ be 1 n
  else if n < 2 ^ 16 then be 1 0xcd ++ be 2 n
  else if n < 2 ^ 32 then be 1 0xce ++ be 4 n
  else be 1 0xcf ++ be 8 n

def uintMarker (marker : Nat) : Marker :=
  if marker < 128 then .number marker
  else if marker = 0xcc then .width 1
  else if marker = 0xcd then .width 2
  else if marker = 0xce then .width 4
  else if marker = 0xcf then .width 8
  else .unknown

theorem reads_writeUint {n : Nat} (h : n < 2 ^ 64) :
    Reads (readMarked uintMarker) (writeUint n) n := by
  unfold writeUint
  split
  · next hn => exact reads_number (by omega) (if_pos hn)
  split
  · next hn => exact reads_width (by decide) rfl (by omega)
  split
  · next hn => exact reads_width (by decide) rfl (by omega)
  split
  · next hn => exact reads_width (by decide) rfl (by omega)
  · exact reads_width (by decide) rfl (by omega)

/-- The number of entries of a map, below `2^32`. -/
def writeMapHead (n : Nat) : Wire.Bytes :=
  if n < 16 then be 1 (0x80 + n)
  else if n < 2 ^ 16 then be 1 0xde ++ be 2 n
  else be 1 0xdf ++ be 4 n

def mapMarker (marker : Nat) : Marker :=
  if 0x80 ≤ marker ∧ marker < 0x90 then .number (marker - 0x80)
  else if marker = 0xde then .width 2
  else if marker = 0xdf then .width 4
  else .unknown

theorem reads_writeMapHead {n : Nat} (h : n < 2 ^ 32) :
    Reads (readMarked mapMarker) (writeMapHead n) n := by
  unfold writeMapHead
  split
  · next hn =>
    refine reads_number (by omega) ?_
    rw [mapMarker, if_pos ⟨by omega, by omega⟩, Nat.add_sub_cancel_left]
  split
  · next hn => exact reads_width (by decide) rfl (by omega)
  · exact reads_width (by decide) rfl (by omega)

def writeEntry (e : BlockNumber × UInt64) : Wire.Bytes :=
  writeUint e.1.toNat ++ writeUint e.2.toNat

def readEntry : Reader String (BlockNumber × UInt64) := do
  let block ← readMarked uintMarker
  let value ← readMarked uintMarker
  pure (.ofNat block, .ofNat value)

theorem reads_writeEntry (e : BlockNumber × UInt64) : Reads readEntry (writeEntry e) e := by
  have h : Reads readEntry (writeEntry e) (UInt64.ofNat e.1.toNat, UInt64.ofNat e.2.toNat) := by
    apply (reads_writeUint e.1.toNat_lt).bind
    exact (reads_writeUint e.2.toNat_lt).map _
  rwa [UInt64.ofNat_toNat, UInt64.ofNat_toNat] at h

def readMap : Reader String (List (BlockNumber × UInt64)) := do
  let n ← readMarked mapMarker
  times readEntry n

/-- MessagePack, for maps of numbers. -/
def messagePack : MapFormat UInt64 Wire.Bytes where
  serializeMap n entries :=
    if n < 2 ^ 32 then .ok (writeMapHead n ++ entries.flatMap writeEntry)
    else .error "too many entries"
  deserializeMap := whole readMap fun _ _ => "trailing bytes"

theorem messagePack_lossless : messagePack.Lossless := by
  intro entries w h
  change (if entries.length < 2 ^ 32 then _ else _) = _ at h
  split at h
  · next hlen =>
    cases h
    have hentries : Reads (times readEntry entries.length) (entries.flatMap writeEntry) entries :=
      reads_times fun e _ => reads_writeEntry e
    have hmap : Reads readMap (writeMapHead entries.length ++ entries.flatMap writeEntry) entries :=
      (reads_writeMapHead hlen).bind hentries
    show whole readMap _ _ = _
    rw [whole, hmap.run]
    rfl
  · cases h

end MessagePack

/-- **`Blocks` is a sorted map.** Whatever operations are run on a new `Blocks`, each gives
what it gives on a map that is sorted by block; the `Blocks` reads as that map, and its
map form is never empty. -/
theorem blocks_refine_map {format : MapFormat V W} (hf : format.Lossless)
    (ops : List (Op V R)) :
    (runOps (step format) new ops).1 = (runOps (mapStep format) ∅ ops).1 ∧
      ReadsAs (runOps (step format) new ops).2 (runOps (mapStep format) ∅ ops).2 ∧
      ∀ map, (runOps (step format) new ops).2 = .many map → map ≠ ∅ := by
  have hnew : Refines (new : Blocks V) ∅ := ⟨toMap_new, manyHolds_empty⟩
  obtain ⟨houts, hrun⟩ := runOps_refines hf hnew ops
  exact ⟨houts, hrun.readsAs, hrun.manyHolds⟩

/-- Two blocks, the second `u64::MAX`, are written, read back and cut above the first. -/
def maxOps : List (Op UInt64 UInt64) :=
  [.orInsert 5 7 fun v => (v, v + 1), .insert BlockNumber.max 9, .roundTrip, .removeAbove 5]

theorem blocks_refine_map_max :
    (runOps (step messagePack) new maxOps).1
        = [.used 7, .unit, .written [0x82, 0x05, 0x08, 0xcf, 255, 255, 255, 255, 255, 255, 255,
            255, 0x09], .removed (some 9)] ∧
      (runOps (step messagePack) new maxOps).2.lastBlock = some 5 := by
  obtain ⟨houts, hreads, -⟩ := blocks_refine_map messagePack_lossless maxOps
  refine ⟨houts.trans rfl, (hreads.lastBlock 5).mpr ?_⟩
  have hmap : (runOps (mapStep messagePack) ∅ maxOps).2
      = OrdMap.keep (((∅ : BTreeMap BlockNumber UInt64).insert 5 8).insert BlockNumber.max 9)
          (· ≤ 5) := rfl
  rw [hmap]
  refine ⟨?_, fun b hb => by simpa using ((OrdMap.mem_keep _ _ _).mp hb).2⟩
  simp

end Blocks

end Settle
