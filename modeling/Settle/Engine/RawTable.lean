import Settle.Storage.Batch

/-!
# Raw tables

`RawTableEngine` of `src/engine/raw_table.rs`, and the reads of raw rows through the write
batches that wait for their ack (`PendingWrites` of `src/storage/mod.rs`).

A rollback reads the rows above the fork point from the committed store, overlaid with the
pending batches. `rawRowsAfter_eq` says what it reads: the rows that the store would hold if
every pending batch were committed.
-/

namespace Settle

open Std

/-- `get_raw_rows` of the blocks above `after`. -/
def Store.rawRowsAfter (s : Store) (table : String) (after : BlockNumber) :
    List (BlockNumber × Datum) :=
  s.raw.toList.filterMap fun ((t, block), data) =>
    if t = table ∧ after < block then some (block, data) else none

/-- One arm of the loop of `PendingWrites::raw_rows_after`. -/
def overlayOp (table : String) (after : BlockNumber) (rows : BTreeMap BlockNumber Datum) :
    BatchOp Datum → BTreeMap BlockNumber Datum
  | .putRawRows t block data => if t = table ∧ after < block then rows.insert block data else rows
  | .deleteRawRowsAfter t deletedAfter =>
    -- `checked_add`: nothing is above `u64::MAX`
    if t = table then OrdMap.keep rows fun block => !decide (deletedAfter < block) else rows
  | .deleteRawRows t fromBlock toBlock =>
    if t = table then OrdMap.keep rows fun block => !decide (fromBlock ≤ block ∧ block ≤ toBlock)
    else rows
  | _ => rows

/-- `PendingWrites::raw_rows_after`: the raw rows of `table` above `after` once every pending
batch commits. -/
def pendingRawRowsAfter (pending : List WriteBatch) (table : String) (after : BlockNumber)
    (stored : List (BlockNumber × Datum)) : BTreeMap BlockNumber Datum :=
  pending.flatten.foldl (overlayOp table after) (ExtTreeMap.ofList stored compare)

/-- `decode_rows`: the rows of a block, with the columns of the table. -/
def decodeRows (registry : ColumnRegistry) : Datum → Except Error (List Row)
  | .rows [] => .ok []
  | .rows (row :: rows) =>
    if row.registry.names.length ≠ registry.names.length then
      .error (.storage ("decode_rows: header column count " ++
        toString row.registry.names.length ++ " does not match registry length " ++
        toString registry.names.length))
    else .ok ((row :: rows).map fun r => { registry, values := r.values })
  | _ => .error (.storage "unexpected end of data")

/-- `RawTableEngine`. -/
structure RawTableEngine where
  name : String
  registry : ColumnRegistry

namespace RawTableEngine

def changeSchema (t : RawTableEngine) : ChangeSchema := .rawTable t.name t.registry.names

/-- A record of one row of a block. -/
def rowRecord (t : RawTableEngine) (operation : ChangeOp) (block : BlockNumber)
    (row : Row × Nat) : ChangeRecord where
  operation := operation
  schema := t.changeSchema
  key := [.uint64 block, .uint64 (UInt64.ofNat row.2)]
  values := row.1.values
  prevValues := none

/-- One Insert per row. -/
def insertChanges (t : RawTableEngine) (block : BlockNumber) (rows : List Row) :
    List ChangeRecord :=
  rows.zipIdx.map (t.rowRecord .insert block)

/-- Ingest rows: the storage write, and the changes, none for a virtual table. -/
def ingestToBatch (t : RawTableEngine) (block : BlockNumber) (rows : List Row)
    (virtualTable : Bool) : WriteBatch × List ChangeRecord :=
  if rows.isEmpty then ([], [])
  else ([.putRawRows t.name block (.rows rows)],
    if virtualTable then [] else t.insertChanges block rows)

/-- The Deletes of the blocks that a rollback removes. -/
def deleteChanges (t : RawTableEngine) : List (BlockNumber × Datum) →
    Except Error (List ChangeRecord)
  | [] => .ok []
  | (block, data) :: rest => do
    let rows ← decodeRows t.registry data
    let changes ← t.deleteChanges rest
    .ok (rows.zipIdx.map (t.rowRecord .delete block) ++ changes)

/-- Roll back all rows above `forkPoint`: the storage deletion, and a Delete per row, also for
the rows that `pending` has not committed yet. -/
def rollbackToBatch (t : RawTableEngine) (store : Store) (pending : List WriteBatch)
    (forkPoint : BlockNumber) : WriteBatch × Except Error (List ChangeRecord) :=
  if forkPoint = BlockNumber.max then ([], .ok [])
  else
    let rolledBack := pendingRawRowsAfter pending t.name forkPoint
      (store.rawRowsAfter t.name forkPoint)
    ([.deleteRawRowsAfter t.name forkPoint], t.deleteChanges rolledBack.toList)

end RawTableEngine

/-! ## The overlay of the pending batches -/

theorem mem_rawRowsAfter {s : Store} {table : String} {after block : BlockNumber} {data : Datum} :
    (block, data) ∈ s.rawRowsAfter table after ↔
      after < block ∧ s.raw[(table, block)]? = some data := by
  rw [Store.rawRowsAfter, List.mem_filterMap]
  constructor
  · rintro ⟨⟨⟨t, b⟩, d⟩, hmem, h⟩
    dsimp only at h
    split at h
    · next hif =>
      obtain ⟨rfl, hlt⟩ := hif
      simp only [Option.some.injEq, Prod.mk.injEq] at h
      obtain ⟨rfl, rfl⟩ := h
      exact ⟨hlt, ExtTreeMap.mem_toList_iff_getElem?_eq_some.mp hmem⟩
    · cases h
  · rintro ⟨hlt, hdata⟩
    refine ⟨((table, block), data), ExtTreeMap.mem_toList_iff_getElem?_eq_some.mpr hdata, ?_⟩
    simp [hlt]

/-- The stored rows as a map. -/
theorem getElem?_stored (s : Store) (table : String) (after block : BlockNumber) :
    (ExtTreeMap.ofList (s.rawRowsAfter table after) compare)[block]?
      = if after < block then s.raw[(table, block)]? else none := by
  have hdistinct : (s.rawRowsAfter table after).Pairwise fun a b => ¬ compare a.1 b.1 = .eq := by
    refine List.Pairwise.filterMap _ ?_ (ExtTreeMap.distinct_keys_toList)
    rintro ⟨⟨t, b⟩, d⟩ ⟨⟨t', b'⟩, d'⟩ hne e he e' he' heq
    dsimp only at he he'
    split at he
    · next hif =>
      split at he'
      · next hif' =>
        cases he
        cases he'
        have hb : b = b' := LawfulEqCmp.eq_of_compare heq
        apply hne
        rw [hif.1, hif'.1, hb]
        exact ReflCmp.compare_self
      · cases he'
    · cases he
  cases hd : (if after < block then s.raw[(table, block)]? else none) with
  | some data =>
    split at hd
    · next hlt =>
      exact ExtTreeMap.getElem?_ofList_of_mem ReflCmp.compare_self hdistinct
        (mem_rawRowsAfter.mpr ⟨hlt, hd⟩)
    · cases hd
  | none =>
    apply ExtTreeMap.getElem?_ofList_of_contains_eq_false
    rw [Bool.eq_false_iff]
    intro hc
    obtain ⟨⟨b, d⟩, hmem, rfl⟩ := List.mem_map.mp (List.contains_iff_mem.mp hc)
    obtain ⟨hlt, hdata⟩ := mem_rawRowsAfter.mp hmem
    rw [if_pos hlt, hdata] at hd
    cases hd

/-- One operation on the overlay is that operation on the store. -/
theorem getElem?_overlayOp {s : Store} {table : String} {after : BlockNumber}
    {rows : BTreeMap BlockNumber Datum}
    (h : ∀ block, rows[block]? = if after < block then s.raw[(table, block)]? else none)
    (op : BatchOp Datum) (block : BlockNumber) :
    (overlayOp table after rows op)[block]?
      = if after < block then (s.apply op).raw[(table, block)]? else none := by
  cases op with
  | putRawRows t b data =>
    simp only [overlayOp, Store.apply]
    by_cases ht : t = table
    · subst ht
      by_cases hb : after < b
      · simp only [hb, and_self, if_true, ExtTreeMap.getElem?_insert, Std.compare_eq_iff_eq, h,
          Prod.mk.injEq, true_and]
        by_cases hbb : b = block
        · subst hbb
          simp [hb]
        · simp [hbb]
      · simp only [hb, and_false, if_false, h, ExtTreeMap.getElem?_insert, Std.compare_eq_iff_eq,
          Prod.mk.injEq, true_and]
        by_cases hbb : b = block
        · subst hbb
          simp [hb]
        · simp [hbb]
    · simp [ht, h, ExtTreeMap.getElem?_insert]
  | deleteRawRowsAfter t deletedAfter =>
    simp only [overlayOp, Store.apply, OrdMap.getElem?_keep]
    by_cases ht : t = table
    · subst ht
      simp only [if_true, OrdMap.getElem?_keep, h, beq_self_eq_true, Bool.true_and]
      split <;> split <;> simp_all
    · have ht' : (table == t) = false := by simpa using Ne.symm ht
      simp [ht, h, ht']
  | deleteRawRows t fromBlock toBlock =>
    simp only [overlayOp, Store.apply, OrdMap.getElem?_keep]
    by_cases ht : t = table
    · subst ht
      simp only [if_true, OrdMap.getElem?_keep, h, beq_self_eq_true, Bool.true_and]
      split <;> split <;> simp_all
    · have ht' : (table == t) = false := by simpa using Ne.symm ht
      simp [ht, h, ht']
  | _ => exact h block

/-- **A rollback reads what disk holds once every pending batch commits.** -/
theorem getElem?_pendingRawRowsAfter (s : Store) (pending : List WriteBatch) (table : String)
    (after block : BlockNumber) :
    (pendingRawRowsAfter pending table after (s.rawRowsAfter table after))[block]?
      = if after < block then (s.commit pending.flatten).raw[(table, block)]? else none := by
  rw [pendingRawRowsAfter]
  have hrun : ∀ (ops : WriteBatch) {s : Store} {rows : BTreeMap BlockNumber Datum},
      (∀ block, rows[block]? = if after < block then s.raw[(table, block)]? else none) →
      ∀ block, (ops.foldl (overlayOp table after) rows)[block]?
        = if after < block then (s.commit ops).raw[(table, block)]? else none := by
    intro ops
    induction ops with
    | nil => exact fun h => h
    | cons op ops ih =>
      intro s rows h
      rw [List.foldl_cons, Store.commit_cons]
      exact ih (getElem?_overlayOp h op)
  exact hrun _ (getElem?_stored s table after) block

end Settle
