import Settle.Engine.RawTable

/-!
# Reads of raw rows

`get_raw_rows_limited` of `src/storage/memory.rs`, and `PendingWrites::raw_rows_after` of
`src/storage/mod.rs` as the list that it returns.

The key of a raw row is the table and the block, so the rows of a table are one range of the
map. `mem_getRawRows` says which rows a read returns, and `sorted_getRawRows` in which order.
With these, **the read through the pending batches is the read after their commits**
(`rawRowsAfter_through_pending`).
-/

namespace Settle

open Std

namespace Store

/-- `range(start..=end)` on the raw rows. -/
def rawRange (s : Store) (first last : String × BlockNumber) :
    List ((String × BlockNumber) × Datum) :=
  s.raw.toList.filter fun e => (compare first e.1).isLE && (compare e.1 last).isLE

/-- `get_raw_rows_limited`: the rows of the first `maxBlocks` blocks of a range. -/
def getRawRowsLimited (s : Store) (table : String) (fromBlock toBlock : BlockNumber)
    (maxBlocks : Nat) : List (BlockNumber × Datum) :=
  ((s.rawRange (table, fromBlock) (table, toBlock)).take maxBlocks).filterMap fun (key, data) =>
    if key.1 = table then some (key.2, data) else none

/-- `get_raw_rows`: no limit. The source passes `usize::MAX`, more than a map can hold. -/
def getRawRows (s : Store) (table : String) (fromBlock toBlock : BlockNumber) :
    List (BlockNumber × Datum) :=
  s.getRawRowsLimited table fromBlock toBlock s.raw.size

/-- The rows of a table above a block, as `rollback_to_batch` reads them: none are above
`u64::MAX`. -/
def getRawRowsAbove (s : Store) (table : String) (after : BlockNumber) :
    List (BlockNumber × Datum) :=
  if after = BlockNumber.max then [] else s.getRawRows table (after + 1) BlockNumber.max

/-- The keys between two keys of one table. -/
theorem isLE_compare_iff {table : String} {b b' : BlockNumber} {key : String × BlockNumber} :
    ((compare (table, b) key).isLE && (compare key (table, b')).isLE) = true ↔
      key.1 = table ∧ b ≤ key.2 ∧ key.2 ≤ b' := by
  obtain ⟨t, c⟩ := key
  have hcmp : ∀ (x y : String × BlockNumber), (compare x y).isLE ↔
      compare x.1 y.1 = .lt ∨ (x.1 = y.1 ∧ x.2 ≤ y.2) := by
    intro x y
    show ((compare x.1 y.1).then (compare x.2 y.2)).isLE ↔ _
    rw [← Std.isLE_compare]
    cases h : compare x.1 y.1 with
    | lt => simp [Ordering.then]
    | eq => simp [Ordering.then, LawfulEqCmp.eq_of_compare h]
    | gt =>
      have hne : x.1 ≠ y.1 := by
        intro heq
        simp [heq] at h
      simp [Ordering.then, hne]
  rw [Bool.and_eq_true, hcmp, hcmp]
  constructor
  · rintro ⟨hlt | ⟨rfl, hb⟩, hlt' | ⟨heq, hb'⟩⟩
    · exact absurd hlt' (OrientedCmp.not_lt_of_lt hlt)
    · dsimp only at heq hlt
      simp [heq] at hlt
    · simp at hlt'
    · exact ⟨rfl, hb, hb'⟩
  · rintro ⟨rfl, hb, hb'⟩
    exact ⟨Or.inr ⟨rfl, hb⟩, Or.inr ⟨rfl, hb'⟩⟩

/-- The rows of a table in a range of blocks, in block order. -/
def tableRows (s : Store) (table : String) (fromBlock toBlock : BlockNumber) :
    List (BlockNumber × Datum) :=
  (s.rawRange (table, fromBlock) (table, toBlock)).map fun (key, data) => (key.2, data)

theorem getRawRowsLimited_eq (s : Store) (table : String) (fromBlock toBlock : BlockNumber)
    (maxBlocks : Nat) :
    s.getRawRowsLimited table fromBlock toBlock maxBlocks
      = (s.tableRows table fromBlock toBlock).take maxBlocks := by
  rw [getRawRowsLimited, tableRows, ← List.map_take]
  rw [← List.filterMap_eq_map']
  refine List.filterMap_congr fun e he => ?_
  have hkey := List.mem_of_mem_take he
  rw [rawRange, List.mem_filter] at hkey
  simp [(isLE_compare_iff.mp hkey.2).1]

theorem getRawRows_eq (s : Store) (table : String) (fromBlock toBlock : BlockNumber) :
    s.getRawRows table fromBlock toBlock = s.tableRows table fromBlock toBlock := by
  rw [getRawRows, getRawRowsLimited_eq, List.take_of_length_le]
  rw [tableRows, List.length_map, rawRange]
  calc (s.raw.toList.filter _).length ≤ s.raw.toList.length := List.length_filter_le _ _
    _ = s.raw.size := ExtTreeMap.length_toList

theorem mem_tableRows {s : Store} {table : String} {fromBlock toBlock block : BlockNumber}
    {data : Datum} : (block, data) ∈ s.tableRows table fromBlock toBlock ↔
      (fromBlock ≤ block ∧ block ≤ toBlock) ∧ s.raw[(table, block)]? = some data := by
  rw [tableRows, List.mem_map]
  constructor
  · rintro ⟨⟨⟨t, b⟩, d⟩, hmem, heq⟩
    rw [rawRange, List.mem_filter] at hmem
    obtain ⟨rfl, hb⟩ := isLE_compare_iff.mp hmem.2
    cases heq
    exact ⟨hb, ExtTreeMap.mem_toList_iff_getElem?_eq_some.mp hmem.1⟩
  · rintro ⟨hb, hdata⟩
    refine ⟨((table, block), data), ?_, rfl⟩
    rw [rawRange, List.mem_filter]
    exact ⟨ExtTreeMap.mem_toList_iff_getElem?_eq_some.mpr hdata, isLE_compare_iff.mpr ⟨rfl, hb⟩⟩

theorem sorted_tableRows (s : Store) (table : String) (fromBlock toBlock : BlockNumber) :
    OrdMap.Sorted (s.tableRows table fromBlock toBlock) := by
  rw [OrdMap.Sorted, tableRows, List.pairwise_map]
  refine List.Pairwise.imp_of_mem ?_ (ExtTreeMap.ordered_keys_toList.filter _)
  rintro ⟨⟨t, b⟩, d⟩ ⟨⟨t', b'⟩, d'⟩ hmem hmem' hlt
  rw [rawRange, List.mem_filter] at hmem hmem'
  obtain ⟨rfl, -⟩ := isLE_compare_iff.mp hmem.2
  obtain ⟨heq, -⟩ := isLE_compare_iff.mp hmem'.2
  have heq : t' = t := heq
  have hlt : (compare t t').then (compare b b') = .lt := hlt
  simp only [heq, Std.compare_self] at hlt
  exact compare_eq_lt.mp hlt

/-- The rows above a block: those of the table with a higher block. -/
theorem mem_getRawRowsAbove {s : Store} {table : String} {after block : BlockNumber}
    {data : Datum} : (block, data) ∈ s.getRawRowsAbove table after ↔
      after < block ∧ s.raw[(table, block)]? = some data := by
  have hmax : ∀ b : BlockNumber, b ≤ BlockNumber.max := fun b => UInt64.le_iff_toNat_le.mpr (by
    have := b.toNat_lt
    have : BlockNumber.max.toNat = 2 ^ 64 - 1 := rfl
    omega)
  rw [getRawRowsAbove]
  split
  · next h =>
    subst h
    constructor
    · intro h
      cases h
    · rintro ⟨hlt, -⟩
      exact absurd (hmax block) (by grind)
  · next h =>
    rw [getRawRows_eq, mem_tableRows]
    have hlt : after + 1 ≤ block ↔ after < block := by
      have hne : after.toNat ≠ 2 ^ 64 - 1 := fun heq => h (UInt64.toNat_inj.mp heq)
      have := after.toNat_lt
      rw [UInt64.le_iff_toNat_le, UInt64.lt_iff_toNat_lt, UInt64.toNat_add]
      simp
      omega
    rw [hlt]
    simp [hmax]

theorem sorted_getRawRowsAbove (s : Store) (table : String) (after : BlockNumber) :
    OrdMap.Sorted (s.getRawRowsAbove table after) := by
  rw [getRawRowsAbove]
  split
  · exact List.Pairwise.nil
  · rw [getRawRows_eq]
    exact s.sorted_tableRows _ _ _

end Store

/-- `PendingWrites::raw_rows_after`: the rows above `after` once every pending batch commits. -/
def PendingWrites.rawRowsAfter (batches : List WriteBatch) (table : String) (after : BlockNumber)
    (stored : List (BlockNumber × Datum)) : List (BlockNumber × Datum) :=
  if batches.isEmpty then stored else (pendingRawRowsAfter batches table after stored).toList

/-- The map of the rows above a block is the one that the overlay starts from. -/
theorem ofList_getRawRowsAbove (s : Store) (table : String) (after : BlockNumber) :
    ExtTreeMap.ofList (s.getRawRowsAbove table after) compare
      = ExtTreeMap.ofList (s.rawRowsAfter table after) compare := by
  have hdistinct : (s.getRawRowsAbove table after).Pairwise fun a b =>
      ¬ compare a.1 b.1 = .eq := by
    refine (s.sorted_getRawRowsAbove table after).imp fun h heq => ?_
    have := compare_eq_lt.mpr h
    rw [heq] at this
    cases this
  refine ExtTreeMap.ext_getElem? fun block => ?_
  rw [getElem?_stored]
  cases hd : (if after < block then s.raw[(table, block)]? else none) with
  | some data =>
    split at hd
    · next hlt =>
      exact ExtTreeMap.getElem?_ofList_of_mem ReflCmp.compare_self hdistinct
        (Store.mem_getRawRowsAbove.mpr ⟨hlt, hd⟩)
    · cases hd
  | none =>
    apply ExtTreeMap.getElem?_ofList_of_contains_eq_false
    rw [Bool.eq_false_iff]
    intro hc
    obtain ⟨⟨b, d⟩, hmem, rfl⟩ := List.mem_map.mp (List.contains_iff_mem.mp hc)
    obtain ⟨hlt, hdata⟩ := Store.mem_getRawRowsAbove.mp hmem
    rw [if_pos hlt, hdata] at hd
    cases hd

/-- **The rows that a read through the pending batches gives are those that storage returns
once it has committed every batch in order.** -/
theorem rawRowsAfter_through_pending (s : Store) (batches : List WriteBatch) (table : String)
    (after : BlockNumber) :
    PendingWrites.rawRowsAfter batches table after (s.getRawRowsAbove table after)
      = (batches.foldl Store.commit s).getRawRowsAbove table after := by
  have hcommit : ∀ (batches : List WriteBatch) (s : Store),
      batches.foldl Store.commit s = s.commit batches.flatten := by
    intro batches
    induction batches with
    | nil => exact fun s => rfl
    | cons b batches ih =>
      intro s
      rw [List.foldl_cons, ih, List.flatten_cons, Store.commit_append]
  rw [PendingWrites.rawRowsAfter]
  split
  · next h =>
    rw [List.isEmpty_iff.mp h]
    rfl
  · rw [hcommit, pendingRawRowsAfter, ofList_getRawRowsAbove, ← pendingRawRowsAfter]
    apply OrdMap.toList_eq_of_sorted (Store.sorted_getRawRowsAbove _ _ _)
    intro block data
    rw [Store.mem_getRawRowsAbove, getElem?_pendingRawRowsAfter]
    by_cases hlt : after < block <;> simp [hlt]

end Settle
