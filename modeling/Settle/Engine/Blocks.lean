import Settle.Types

/-!
# Per-block data

`Blocks` of `src/engine/blocks.rs`: a value for each of some blocks, in block order.
One block stays inline and a second one brings a map; `toMap` forgets the difference,
and each operation below is the operation of its name on `toMap`.
-/

namespace Settle

open Std

variable {V : Type}

/-- A map lists the blocks up to a block first. -/
theorem toList_split_at (m : BTreeMap BlockNumber V) (p : BlockNumber) :
    m.toList = (OrdMap.keep m (· ≤ p)).toList ++ (OrdMap.keep m (p < ·)).toList := by
  refine OrdMap.toList_eq_append ?_ ?_
  · intro b₁ h₁ b₂ h₂
    have h₁ := ((OrdMap.mem_keep _ _ _).mp h₁).2
    have h₂ := ((OrdMap.mem_keep _ _ _).mp h₂).2
    simp only [decide_eq_true_eq] at h₁ h₂
    exact UInt64.lt_of_le_of_lt h₁ h₂
  · intro b v
    grind

inductive Blocks (V : Type) where
  | empty
  | one (block : BlockNumber) (value : V)
  | many (map : BTreeMap BlockNumber V)

namespace Blocks

def new : Blocks V := .empty

def len : Blocks V → Nat
  | .empty => 0
  | .one .. => 1
  | .many map => map.size

def isEmpty (bs : Blocks V) : Bool := bs.len == 0

def get (bs : Blocks V) (block : BlockNumber) : Option V :=
  match bs with
  | .empty => none
  | .one b value => if b = block then some value else none
  | .many map => map[block]?

/-- The blocks and their values, in block order. -/
def iter : Blocks V → List (BlockNumber × V)
  | .empty => []
  | .one b value => [(b, value)]
  | .many map => map.toList

def values (bs : Blocks V) : List V := bs.iter.map Prod.snd

def lastBlock (bs : Blocks V) : Option BlockNumber := bs.iter.getLast?.map Prod.fst

/-- The value of the lowest block above `block`. -/
def firstAbove (bs : Blocks V) (block : BlockNumber) : Option V :=
  match bs with
  | .many map =>
    if block = BlockNumber.max then none
    else (map.toList.find? fun e => block + 1 ≤ e.1).map Prod.snd
  | bs => (bs.iter.find? fun e => block < e.1).map Prod.snd

/-- Turn `one` into `many` with `block` added, unless it has a value. -/
def spill (first : BlockNumber) (old : V) (block : BlockNumber) (value : V) : Blocks V :=
  .many (((∅ : BTreeMap BlockNumber V).insert first old).insertIfNew block value)

/-- Set the value of `block`. -/
def insert (bs : Blocks V) (block : BlockNumber) (value : V) : Blocks V :=
  match bs with
  | .many map => .many (map.insert block value)
  | .one b old => if b = block then .one b value else spill b old block value
  | .empty => .one block value

/-- Set the value of `block` to `value` if the block has none. -/
def orInsert (bs : Blocks V) (block : BlockNumber) (value : V) : Blocks V :=
  match bs with
  | .many map => .many (map.insertIfNew block value)
  | .one b old => if b = block then .one b old else spill b old block value
  | .empty => .one block value

/-- An emptied map goes. -/
def dropEmptyMap : Blocks V → Blocks V
  | .many map => if map.isEmpty then .empty else .many map
  | bs => bs

/-- Remove `block`, and give its value. -/
def remove (bs : Blocks V) (block : BlockNumber) : Option V × Blocks V :=
  match bs with
  | .empty => (none, .empty)
  | .one b value => if b = block then (some value, .empty) else (none, .one b value)
  | .many map => (map[block]?, dropEmptyMap (.many (map.erase block)))

/-- Remove the blocks above `block`. Gives the value of the lowest of them. -/
def removeAbove (bs : Blocks V) (block : BlockNumber) : Option V × Blocks V :=
  match bs with
  | .empty => (none, .empty)
  | .one b value => if b ≤ block then (none, .one b value) else (some value, .empty)
  | .many map =>
    -- `checked_add(1)?` returns early: nothing is above `u64::MAX`
    if block = BlockNumber.max then (none, .many map)
    else
      let removed := map.filter fun b _ => block + 1 ≤ b
      ((removed.toList.map Prod.snd).head?, dropEmptyMap (.many (map.filter fun b _ => b < block + 1)))

/-- Remove the blocks at or below `block`, and give their values in block order. -/
def drainUpTo (bs : Blocks V) (block : BlockNumber) : List V × Blocks V :=
  match bs with
  | .empty => ([], .empty)
  | .one b value => if block < b then ([], .one b value) else ([value], .empty)
  | .many map =>
    ((map.filter fun b _ => b ≤ block).toList.map Prod.snd,
      dropEmptyMap (.many (map.filter fun b _ => block < b)))

/-! ## As one map -/

def toMap : Blocks V → BTreeMap BlockNumber V
  | .empty => ∅
  | .one b value => (∅ : BTreeMap BlockNumber V).insert b value
  | .many map => map

@[simp] theorem toMap_new : (new : Blocks V).toMap = ∅ := rfl
@[simp] theorem toMap_empty : (empty : Blocks V).toMap = ∅ := rfl
@[simp] theorem toMap_one (b : BlockNumber) (v : V) :
    (one b v).toMap = (∅ : BTreeMap BlockNumber V).insert b v := rfl
@[simp] theorem toMap_many (map : BTreeMap BlockNumber V) : (many map).toMap = map := rfl

@[simp] theorem toMap_dropEmptyMap (bs : Blocks V) : bs.dropEmptyMap.toMap = bs.toMap := by
  cases bs with
  | empty => rfl
  | one b v => rfl
  | many map =>
    rw [dropEmptyMap]
    split
    · next h => exact (ExtTreeMap.isEmpty_iff.mp h).symm
    · rfl

theorem get_eq (bs : Blocks V) (block : BlockNumber) : bs.get block = bs.toMap[block]? := by
  cases bs <;> simp [get, ExtTreeMap.getElem?_insert]

theorem iter_eq (bs : Blocks V) : bs.iter = bs.toMap.toList := by
  cases bs with
  | empty => rfl
  | one b v => rw [toMap_one, OrdMap.toList_insert_of_lt (by simp)]; rfl
  | many map => rfl

theorem values_eq (bs : Blocks V) : bs.values = bs.toMap.toList.map Prod.snd := by
  rw [values, iter_eq]

theorem len_eq (bs : Blocks V) : bs.len = bs.toMap.toList.length := by
  rw [← iter_eq]
  cases bs with
  | empty => rfl
  | one b v => rfl
  | many map => rw [len, iter, ExtTreeMap.length_toList]

theorem isEmpty_eq (bs : Blocks V) : bs.isEmpty = bs.toMap.toList.isEmpty := by
  rw [isEmpty, len_eq]
  cases bs.toMap.toList <;> rfl

theorem lastBlock_eq (bs : Blocks V) :
    bs.lastBlock = bs.toMap.toList.getLast?.map Prod.fst := by
  rw [lastBlock, iter_eq]

/-- The last block is the newest one. -/
theorem lastBlock_of_newest {blocks : Blocks V} {b : BlockNumber}
    (hb : b ∈ blocks.toMap) (hmax : ∀ b' ∈ blocks.toMap, b' ≤ b) : blocks.lastBlock = some b := by
  obtain ⟨value, hvalue⟩ := OrdMap.exists_getElem?_of_mem hb
  rw [← ExtTreeMap.mem_toList_iff_getElem?_eq_some] at hvalue
  rw [lastBlock_eq]
  cases hl : blocks.toMap.toList.getLast? with
  | none =>
    rw [List.getLast?_eq_none_iff] at hl
    rw [hl] at hvalue
    cases hvalue
  | some e =>
    have hmem := List.mem_of_getLast? hl
    rw [ExtTreeMap.mem_toList_iff_getElem?_eq_some] at hmem
    have hle := hmax e.1 (OrdMap.mem_of_getElem?_eq hmem)
    obtain ⟨l, hlist⟩ := List.getLast?_eq_some_iff.mp hl
    rw [hlist, List.mem_append, List.mem_singleton] at hvalue
    obtain hold | hlast := hvalue
    · -- an entry before the last one is below it
      have hsorted := OrdMap.sorted_toList blocks.toMap
      rw [hlist] at hsorted
      have hbelow := (List.pairwise_append.mp hsorted).2.2 (b, value) hold e (by simp)
      grind
    · rw [← hlast]
      rfl

theorem firstAbove_eq (bs : Blocks V) (block : BlockNumber) :
    bs.firstAbove block = (bs.toMap.toList.find? fun e => block < e.1).map Prod.snd := by
  cases bs with
  | empty => rfl
  | one b v => rw [firstAbove, iter_eq]; simp
  | many map =>
    rw [firstAbove, toMap_many]
    split
    · next h =>
      subst h
      have hnone : (map.toList.find? fun e => BlockNumber.max < e.1) = none := by
        apply List.find?_eq_none.mpr
        intro e _
        unfold BlockNumber.max
        grind
      rw [hnone, Option.map_none]
    · next h =>
      have hsucc : ∀ b : BlockNumber, (block + 1 ≤ b) = (block < b) := by
        intro b
        have := @BlockNumber.lt_succ_iff b block h
        grind
      simp only [hsucc]

theorem toMap_spill {first block : BlockNumber} (old value : V) (h : first ≠ block) :
    (spill first old block value).toMap
      = ((∅ : BTreeMap BlockNumber V).insert first old).insert block value := by
  ext k v
  rw [spill, toMap_many]
  grind

@[simp] theorem toMap_insert (bs : Blocks V) (block : BlockNumber) (value : V) :
    (bs.insert block value).toMap = bs.toMap.insert block value := by
  cases bs with
  | empty => rfl
  | one b old =>
    rw [insert]
    split
    · next h => subst h; ext k v; simp only [toMap_one]; grind
    · next h => rw [toMap_spill _ _ h, toMap_one]
  | many map => rfl

@[simp] theorem toMap_orInsert (bs : Blocks V) (block : BlockNumber) (value : V) :
    (bs.orInsert block value).toMap = bs.toMap.insertIfNew block value := by
  cases bs with
  | empty => ext k v; simp only [orInsert, toMap_one, toMap_empty]; grind
  | one b old =>
    rw [orInsert]
    split
    · next h => subst h; ext k v; simp only [toMap_one]; grind
    · next h => rw [toMap_spill _ _ h, toMap_one]; ext k v; grind
  | many map => rfl

@[simp] theorem remove_fst (bs : Blocks V) (block : BlockNumber) :
    (bs.remove block).1 = bs.toMap[block]? := by
  cases bs with
  | empty => simp [remove]
  | one b v => rw [remove, toMap_one]; split <;> grind
  | many map => rfl

@[simp] theorem toMap_remove (bs : Blocks V) (block : BlockNumber) :
    (bs.remove block).2.toMap = bs.toMap.erase block := by
  cases bs with
  | empty => ext k v; simp [remove]
  | one b v =>
    rw [remove, toMap_one]
    split <;> ext k w <;> simp only [toMap_one, toMap_empty] <;> grind
  | many map => rw [remove, toMap_dropEmptyMap, toMap_many, toMap_many]

@[simp] theorem toMap_removeAbove (bs : Blocks V) (block : BlockNumber) :
    (bs.removeAbove block).2.toMap = OrdMap.keep bs.toMap (· ≤ block) := by
  cases bs with
  | empty => ext k v; simp [removeAbove]
  | one b v =>
    rw [removeAbove, toMap_one]
    split <;> ext k w <;> simp only [toMap_one, toMap_empty] <;> grind
  | many map =>
    rw [removeAbove, toMap_many]
    split
    · next h =>
      subst h
      ext k v
      rw [toMap_many, BlockNumber.max]
      grind
    · next h =>
      rw [toMap_dropEmptyMap, toMap_many]
      ext k v
      have := @BlockNumber.lt_succ_iff k block h
      grind

/-- What `remove_above` gives is what `first_above` reads. -/
@[simp] theorem removeAbove_fst (bs : Blocks V) (block : BlockNumber) :
    (bs.removeAbove block).1 = (bs.toMap.toList.find? fun e => block < e.1).map Prod.snd := by
  rw [← firstAbove_eq]
  cases bs with
  | empty => rfl
  | one b v =>
    rw [removeAbove, firstAbove]
    · split
      · next h => simp [iter, h]
      · next h => simp [iter, UInt64.not_le.mp h]
    · simp
  | many map =>
    rw [removeAbove, firstAbove]
    split
    · rfl
    · dsimp only
      rw [List.head?_map, ← List.head?_filter]
      congr 2
      exact OrdMap.toList_keep fun b => block + 1 ≤ b

@[simp] theorem drainUpTo_fst (bs : Blocks V) (block : BlockNumber) :
    (bs.drainUpTo block).1 = (OrdMap.keep bs.toMap (· ≤ block)).toList.map Prod.snd := by
  cases bs with
  | empty => simp [drainUpTo, OrdMap.keep_empty]
  | one b v =>
    rw [drainUpTo, OrdMap.toList_keep, ← iter_eq]
    split
    · next h => simp [iter, h]
    · next h => simp [iter, UInt64.not_lt.mp h]
  | many map => rfl

@[simp] theorem toMap_drainUpTo (bs : Blocks V) (block : BlockNumber) :
    (bs.drainUpTo block).2.toMap = OrdMap.keep bs.toMap (block < ·) := by
  cases bs with
  | empty => ext k v; simp [drainUpTo]
  | one b v =>
    rw [drainUpTo, toMap_one]
    split <;> ext k w <;> simp only [toMap_one, toMap_empty] <;> grind
  | many map => rw [drainUpTo, toMap_dropEmptyMap, toMap_many, toMap_many]; rfl

end Blocks

end Settle
