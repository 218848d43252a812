import Settle.Db.InputRows

/-!
# Rows by column name and positional rows

The rows of an ingest call come by column name or on the registries of their tables, already
grouped by block. The two forms have checks of their own. For rows by column name that all have
a UInt64 `block_number`, the rows built from them and grouped by that number pass or fail the
checks in the same way, so the whole call has the same outcome (`ingest_positional`).
-/

namespace Settle

open Std

variable {E : Type} [Engine E]

namespace Db

/-- The row has a UInt64 `block_number`. -/
def HasBlock (map : RowMap) : Prop := ∃ n, map["block_number"]? = some (.uint64 n)

/-- Adds the row built on a registry to those of its block. -/
def addByNumber (registry : ColumnRegistry) (byBlock : BTreeMap BlockNumber (List Row))
    (map : RowMap) : BTreeMap BlockNumber (List Row) :=
  match map["block_number"]? with
  | some (.uint64 n) => byBlock.insert n (byBlock[n]?.getD [] ++ [rowOfMap registry map])
  | _ => byBlock

/-- The rows built on a registry, by block number, in input order. -/
def groupByNumber (registry : ColumnRegistry) (maps : List RowMap) :
    BTreeMap BlockNumber (List Row) := maps.foldl (addByNumber registry) ∅

/-- The positional form of rows by column name. A table that the schema lacks has no registry:
its rows come on one of the caller's. -/
def positional (db : Db E) (unknown : String → ColumnRegistry)
    (data : FxHashMap String (List RowMap)) : FxHashMap String (BTreeMap BlockNumber (List Row)) :=
  OrdMap.mapEntries data fun table maps =>
    some (groupByNumber ((Engine.tableRegistry db.engine table).getD (unknown table)) maps)

/-! ## The rows of a table -/

theorem mapBlock_of_hasBlock {table : String} {map : RowMap} (h : HasBlock map) :
    ∃ n, map["block_number"]? = some (.uint64 n) ∧ mapBlock table map = .ok n := by
  obtain ⟨n, hn⟩ := h
  refine ⟨n, hn, ?_⟩
  rw [mapBlock, hn]

/-- The loop over the rows of a known table is the grouping. -/
theorem foldlM_groupByNumber {table : String} {registry : ColumnRegistry} {maps : List RowMap}
    (h : ∀ map ∈ maps, HasBlock map) (acc : BTreeMap BlockNumber (List Row)) :
    maps.foldlM (fun (byBlock : BTreeMap BlockNumber (List Row)) map => do
      let block ← mapBlock table map
      (.ok (byBlock.insert block (byBlock[block]?.getD [] ++ [rowOfMap registry map])) :
        Except Error (BTreeMap BlockNumber (List Row)))) acc
      = .ok (maps.foldl (addByNumber registry) acc) := by
  induction maps generalizing acc with
  | nil => rfl
  | cons map maps ih =>
    obtain ⟨n, hn, hblock⟩ := @mapBlock_of_hasBlock table map (h map (by simp))
    rw [List.foldlM_cons, List.foldl_cons, addByNumber, hblock, hn]
    exact ih (fun m hm => h m (by simp [hm])) _

/-- The loop over the rows of an unknown table only reads their blocks. -/
theorem foldlM_unknown {table : String} {maps : List RowMap} (h : ∀ map ∈ maps, HasBlock map)
    (acc : BTreeMap BlockNumber (List Row)) :
    (maps.foldlM (fun (byBlock : BTreeMap BlockNumber (List Row)) map => do
      let _ ← mapBlock table map
      (.ok byBlock : Except Error (BTreeMap BlockNumber (List Row)))) acc) = .ok acc := by
  induction maps with
  | nil => rfl
  | cons map maps ih =>
    obtain ⟨n, -, hblock⟩ := @mapBlock_of_hasBlock table map (h map (by simp))
    rw [List.foldlM_cons, hblock]
    exact ih fun m hm => h m (by simp [hm])

/-- The rows of a block in the grouping are those whose number it is. -/
theorem getElem?_groupByNumber {registry : ColumnRegistry} {maps : List RowMap}
    (h : ∀ map ∈ maps, HasBlock map) (block : BlockNumber) :
    (groupByNumber registry maps)[block]? = if (maps.filter (ofBlock block)) = [] then none
      else some ((maps.filter (ofBlock block)).map (rowOfMap registry)) := by
  have hloop := rowsFromMaps_loop (@foldlM_groupByNumber "" registry maps h ∅)
    block
  rw [groupByNumber, hloop, ExtTreeMap.getElem?_empty, Option.getD_none, List.nil_append]

theorem groupByNumber_ne_nil {registry : ColumnRegistry} {maps : List RowMap}
    (h : ∀ map ∈ maps, HasBlock map) {block : BlockNumber} {rows : List Row}
    (hrows : (groupByNumber registry maps)[block]? = some rows) : rows ≠ [] := by
  rw [getElem?_groupByNumber h] at hrows
  split at hrows
  · cases hrows
  · next hne =>
    obtain rfl := Option.some.inj hrows
    simpa using hne

/-- The blocks of the grouping are the numbers of the rows. -/
theorem mem_groupByNumber {registry : ColumnRegistry} {maps : List RowMap}
    (h : ∀ map ∈ maps, HasBlock map) {block : BlockNumber} :
    block ∈ groupByNumber registry maps ↔
      ∃ map ∈ maps, map["block_number"]? = some (.uint64 block) := by
  have hof : ∀ map ∈ maps, (ofBlock block map = true ↔
      map["block_number"]? = some (.uint64 block)) := by
    intro map hmem
    obtain ⟨n, hn⟩ := h map hmem
    rw [ofBlock, hn]
    simp
  rw [ExtTreeMap.mem_iff_isSome_getElem?, getElem?_groupByNumber h]
  constructor
  · intro hsome
    split at hsome
    · cases hsome
    · next hne =>
      obtain ⟨map, hmem⟩ := List.exists_mem_of_ne_nil _ hne
      obtain ⟨hmaps, hblock⟩ := List.mem_filter.mp hmem
      exact ⟨map, hmaps, (hof map hmaps).mp hblock⟩
  · rintro ⟨map, hmaps, hblock⟩
    have hmem : map ∈ maps.filter (ofBlock block) :=
      List.mem_filter.mpr ⟨hmaps, (hof map hmaps).mpr hblock⟩
    rw [if_neg (List.ne_nil_of_mem hmem)]
    rfl

/-- A row built on the registry of its table passes the check of its block. -/
theorem checkRow_rowOfMap {table : String} {registry : ColumnRegistry} {map : RowMap}
    {block : BlockNumber} (h : map["block_number"]? = some (.uint64 block)) :
    checkRow table registry block (rowOfMap registry map) = .ok () := by
  rw [checkRow]
  split
  · next hne => exact absurd rfl hne
  · split
    · rfl
    · next id hid =>
      obtain ⟨hlt, hname, -⟩ := List.findIdx?_eq_some_iff_getElem.mp hid
      have hvalue : (rowOfMap registry map).values[id]? = some (.uint64 block) := by
        show (registry.names.map fun name => map[name]?.getD .null)[id]? = _
        rw [List.getElem?_map, List.getElem?_eq_getElem hlt, Option.map_some, beq_iff_eq.mp hname, h]
        rfl
      rw [hvalue]
      exact if_pos rfl

theorem forM_ok {α : Type} {f : α → Except Error Unit} {l : List α} (h : ∀ a ∈ l, f a = .ok ()) :
    l.forM f = .ok () := by
  induction l with
  | nil => rfl
  | cons a l ih =>
    show (do f a; l.forM f) = .ok ()
    rw [h a (by simp)]
    exact ih fun b hb => h b (by simp [hb])

/-- **The rows of a table pass or fail in the same way.** -/
theorem rowsFromMaps_eq (db : Db E) (unknown : String → ColumnRegistry) (table : String)
    {maps : List RowMap} (h : ∀ map ∈ maps, HasBlock map) :
    db.rowsFromMaps table maps = db.checkRows table
      (groupByNumber ((Engine.tableRegistry db.engine table).getD (unknown table)) maps) := by
  set registry := (Engine.tableRegistry db.engine table).getD (unknown table) with hregistry
  have hfilter : (groupByNumber registry maps).filter (fun _ rows => !rows.isEmpty)
      = groupByNumber registry maps := by
    refine ExtTreeMap.ext_getElem? ?_
    intro block
    rw [ExtTreeMap.getElem?_filter]
    cases hrows : (groupByNumber registry maps)[block]? with
    | none => rfl
    | some rows =>
      have hne := groupByNumber_ne_nil h hrows
      cases rows with
      | nil => exact absurd rfl hne
      | cons row rows => rfl
  have hempty : (groupByNumber registry maps).isEmpty = maps.isEmpty := by
    cases hmaps : maps with
    | nil => rfl
    | cons map rest =>
      obtain ⟨n, hn⟩ := h map (by simp [hmaps])
      have hmem : n ∈ groupByNumber registry maps :=
        (mem_groupByNumber h).mpr ⟨map, by simp [hmaps], hn⟩
      rw [List.isEmpty_cons, ← hmaps, ExtTreeMap.isEmpty_eq_false_iff]
      intro hnone
      rw [hnone] at hmem
      exact ExtTreeMap.not_mem_empty hmem
  rw [rowsFromMaps, checkRows]
  dsimp only
  rw [hfilter, hempty]
  cases hreg : Engine.tableRegistry db.engine table with
  | none =>
    rw [foldlM_unknown h]
    cases maps <;> rfl
  | some known =>
    have hknown : registry = known := by rw [hregistry, hreg, Option.getD_some]
    rw [hknown] at hfilter hempty ⊢
    simp only [Option.isNone_some, Bool.and_false, Bool.false_eq_true, if_false]
    rw [foldlM_groupByNumber h]
    show Except.ok (groupByNumber known maps) = _
    split
    · rfl
    · have hchecks : (groupByNumber known maps).toList.forM (fun x =>
          x.2.forM (checkRow table known x.1)) = .ok () := by
        refine forM_ok ?_
        rintro ⟨block, rows⟩ hmem
        rw [ExtTreeMap.mem_toList_iff_getElem?_eq_some, getElem?_groupByNumber h] at hmem
        split at hmem
        · cases hmem
        · obtain rfl := Option.some.inj hmem
          refine forM_ok ?_
          intro row hrow
          obtain ⟨map, hmap, rfl⟩ := List.mem_map.mp hrow
          obtain ⟨hmaps, hblock⟩ := List.mem_filter.mp hmap
          obtain ⟨n, hn⟩ := h map hmaps
          rw [ofBlock, hn] at hblock
          obtain rfl := beq_iff_eq.mp hblock
          exact checkRow_rowOfMap hn
      show _ = (do
        (groupByNumber known maps).toList.forM (fun x => x.2.forM (checkRow table known x.1))
        .ok (groupByNumber known maps))
      rw [hchecks]
      rfl

/-! ## The whole input -/

/-- The lowest of all numbers is the lowest of some that include, below each, another. -/
theorem min?_eq_of_lower {l l' : List BlockNumber} (hsub : ∀ b ∈ l', b ∈ l)
    (hlower : ∀ b ∈ l, ∃ b' ∈ l', b' ≤ b) : l.min? = l'.min? := by
  cases l with
  | nil =>
    cases l' with
    | nil => rfl
    | cons b l' => exact absurd (hsub b (by simp)) (by simp)
  | cons b l =>
    obtain ⟨b', hb', -⟩ := hlower b (by simp)
    obtain ⟨m, hm, -⟩ := @min?_le (b :: l) b (by simp)
    obtain ⟨m', hm', -⟩ := min?_le hb'
    have hmem : m ∈ b :: l := List.min?_mem hm
    have hmem' : m' ∈ l' := List.min?_mem hm'
    rw [hm, hm']
    congr 1
    refine UInt64.le_antisymm ?_ ?_
    · obtain ⟨m₂, hm₂, hle⟩ := min?_le (hsub m' hmem')
      rw [hm] at hm₂
      obtain rfl := Option.some.inj hm₂
      exact hle
    · obtain ⟨c, hc, hcm⟩ := hlower m hmem
      obtain ⟨m₂, hm₂, hle⟩ := min?_le hc
      rw [hm'] at hm₂
      obtain rfl := Option.some.inj hm₂
      exact UInt64.le_trans hle hcm

/-- The rows by column name all have a block. -/
def InputBlocks (data : FxHashMap String (List RowMap)) : Prop :=
  ∀ (table : String) (maps : List RowMap), data[table]? = some maps → ∀ map ∈ maps, HasBlock map

theorem toList_positional (db : Db E) (unknown : String → ColumnRegistry)
    (data : FxHashMap String (List RowMap)) :
    (db.positional unknown data).toList = data.toList.map fun e =>
      (e.1, groupByNumber ((Engine.tableRegistry db.engine e.1).getD (unknown e.1)) e.2) := by
  rw [positional, OrdMap.mapEntries, ExtTreeMap.toList_filterMap, ← List.filterMap_eq_map]
  congr 1

/-- Both forms have the same lowest block. -/
theorem minInput_positional (db : Db E) (unknown : String → ColumnRegistry)
    {data : FxHashMap String (List RowMap)} (h : InputBlocks data) :
    minInput (.maps data) = minInput (.rows (db.positional unknown data)) := by
  have hhas : ∀ e ∈ data.toList, ∀ map ∈ e.2, HasBlock map := fun e he =>
    h e.1 e.2 (ExtTreeMap.mem_toList_iff_getElem?_eq_some.mp (show (e.1, e.2) ∈ _ from he))
  rw [minInput, minInput, toList_positional]
  refine min?_eq_of_lower ?_ ?_
  · intro b hb
    obtain ⟨x, hx, hfirst⟩ := List.mem_filterMap.mp hb
    obtain ⟨e, he, rfl⟩ := List.mem_map.mp hx
    obtain ⟨entry, hfind, rfl⟩ := Option.map_eq_some_iff.mp hfirst
    have hmem : (entry.1, entry.2) ∈ _ := List.mem_of_find?_eq_some hfind
    rw [ExtTreeMap.mem_toList_iff_getElem?_eq_some] at hmem
    obtain ⟨map, hmap, hn⟩ := (mem_groupByNumber (hhas e he)).mp (OrdMap.mem_of_getElem?_eq hmem)
    refine List.mem_flatMap.mpr ⟨e, he, List.mem_filterMap.mpr ⟨map, hmap, ?_⟩⟩
    rw [hn]
  · intro b hb
    obtain ⟨e, he, hb⟩ := List.mem_flatMap.mp hb
    obtain ⟨map, hmap, hb⟩ := List.mem_filterMap.mp hb
    obtain ⟨n, hn⟩ := hhas e he map hmap
    rw [hn] at hb
    obtain rfl := Option.some.inj hb
    set byBlock := groupByNumber ((Engine.tableRegistry db.engine e.1).getD (unknown e.1)) e.2
      with hbyBlock
    have hmem : n ∈ byBlock := (mem_groupByNumber (hhas e he)).mpr ⟨map, hmap, hn⟩
    obtain ⟨rows, hrows⟩ := OrdMap.exists_getElem?_of_mem hmem
    have hentry := ExtTreeMap.mem_toList_iff_getElem?_eq_some.mpr hrows
    -- the first block is the lowest, as no block of the grouping is without rows
    cases hlist : byBlock.toList with
    | nil =>
      rw [hlist] at hentry
      cases hentry
    | cons first rest =>
      have hfirst : (first.1, first.2) ∈ byBlock.toList := by simp [hlist]
      have hne : first.2 ≠ [] :=
        groupByNumber_ne_nil (hhas e he) (ExtTreeMap.mem_toList_iff_getElem?_eq_some.mp hfirst)
      refine ⟨first.1, List.mem_filterMap.mpr ⟨(e.1, byBlock),
        List.mem_map.mpr ⟨e, he, rfl⟩, ?_⟩, ?_⟩
      · have hsome : (!first.2.isEmpty) = true := by simpa using hne
        show (byBlock.toList.find? fun x => !x.2.isEmpty).map Prod.fst = some first.1
        rw [hlist, List.find?_cons, hsome]
        rfl
      · have hsorted := OrdMap.sorted_toList byBlock
        rw [hlist] at hsorted hentry
        rcases List.mem_cons.mp hentry with heq | hrest
        · rw [← heq]
          exact UInt64.le_refl _
        · exact UInt64.le_of_lt ((List.pairwise_cons.mp hsorted).1 _ hrest)

/-- The checked rows of some tables, in both forms. -/
theorem mapM_rowsFromMaps (db : Db E) (unknown : String → ColumnRegistry)
    (tables : List (String × List RowMap)) (hhas : ∀ e ∈ tables, ∀ map ∈ e.2, HasBlock map) :
    tables.mapM (fun (table, maps) => do .ok (table, ← db.rowsFromMaps table maps))
      = (tables.map fun e => (e.1,
          groupByNumber ((Engine.tableRegistry db.engine e.1).getD (unknown e.1)) e.2)).mapM
        (fun (table, byBlock) => (do .ok (table, ← db.checkRows table byBlock) :
          Except Error (String × BTreeMap BlockNumber (List Row)))) := by
  induction tables with
  | nil => rfl
  | cons e tables ih =>
    obtain ⟨table, maps⟩ := e
    rw [List.map_cons, List.mapM_cons, List.mapM_cons, ih fun e' he' => hhas e' (by simp [he'])]
    dsimp only
    rw [rowsFromMaps_eq db unknown table (hhas (table, maps) (by simp))]

/-- **Both forms have the same checked rows, or the same error.** -/
theorem groupInputRows_positional (db : Db E) (unknown : String → ColumnRegistry)
    {data : FxHashMap String (List RowMap)} (h : InputBlocks data) (latest : Option BlockNumber) :
    db.groupInputRows (.maps data) latest
      = db.groupInputRows (.rows (db.positional unknown data)) latest := by
  unfold groupInputRows
  rw [minInput_positional db unknown h]
  dsimp only
  rw [toList_positional, mapM_rowsFromMaps db unknown data.toList fun e he =>
    h e.1 e.2 (ExtTreeMap.mem_toList_iff_getElem?_eq_some.mp (show (e.1, e.2) ∈ _ from he))]

/-- **Rows by column name and positional rows agree.** In every state, a call with rows by column
name that all have a UInt64 `block_number` has the outcome of the call with their positional form:
the same error with the same state, or the same batch with the same state and the same storage. -/
theorem ingest_positional (db : Db E) (store : Store) (commitFault syncFault : Outcome)
    (unknown : String → ColumnRegistry) (data : FxHashMap String (List RowMap))
    (h : InputBlocks data) (rollbackChain : List BlockCursor) (finalizedHead : BlockCursor) :
    db.ingest store commitFault syncFault (.maps data) rollbackChain finalizedHead
      = db.ingest store commitFault syncFault (.rows (db.positional unknown data)) rollbackChain
          finalizedHead := by
  have hcheck : db.checkIngest (.maps data) rollbackChain finalizedHead
      = db.checkIngest (.rows (db.positional unknown data)) rollbackChain finalizedHead := by
    rw [checkIngest, checkIngest]
    simp only [groupInputRows_positional db unknown h]
  rw [ingest, ingest, prepareIngest, prepareIngest, hcheck]

end Db

/-- Two trades of block 1: one without a price, and one with a column that the table lacks. -/
def tradeMaps : FxHashMap String (List RowMap) :=
  (∅ : FxHashMap String (List RowMap)).insert "trades"
    [(∅ : RowMap).insert "block_number" (.uint64 1),
      ((∅ : RowMap).insert "note" (.string "x")).insert "block_number" (.uint64 1)]

theorem ingest_positional_trades :
    (tradesDb false).ingest {} none none (.maps tradeMaps) [⟨1, "b"⟩] ⟨0, "a"⟩
      = (tradesDb false).ingest {} none none
          (.rows ((tradesDb false).positional (fun _ => ⟨[]⟩) tradeMaps)) [⟨1, "b"⟩] ⟨0, "a"⟩ := by
  refine Db.ingest_positional (tradesDb false) {} none none (fun _ => ⟨[]⟩) tradeMaps ?_ _ _
  intro table maps hmaps map hmem
  rw [tradeMaps, ExtTreeMap.getElem?_insert] at hmaps
  split at hmaps
  · obtain rfl := Option.some.inj hmaps
    refine ⟨1, ?_⟩
    rcases List.mem_cons.mp hmem with rfl | hmem
    · simp
    · obtain rfl := List.mem_singleton.mp hmem
      simp
  · simp at hmaps

end Settle
