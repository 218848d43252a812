import Settle.Engine.DagMarks

/-!
# The rows of an ingest call

What `groupInputRows` makes of its input, read off the input itself: the rows of a table at a
block (`InputData.rowsAt`), for rows by column name and for positional rows. A checked input
has exactly these rows, each block that has any once, and all of them above the latest block.
-/

namespace Settle

open Std

variable {E : Type} [Engine E]

namespace Db

/-- Whether a row by column name is of `block`. -/
def ofBlock (block : BlockNumber) (map : RowMap) : Bool :=
  match map["block_number"]? with
  | some (.uint64 n) => n == block
  | _ => false

/-- The rows of `table` at `block` in the input of a call. -/
def InputData.rowsAt (registry : String → Option ColumnRegistry) (table : String)
    (block : BlockNumber) : InputData → List Row
  | .maps data =>
    match data[table]?, registry table with
    | some input, some registry => (input.filter (ofBlock block)).map (rowOfMap registry)
    | _, _ => []
  | .rows data => (data[table]?.bind fun byBlock => byBlock[block]?).getD []

/-- The blocks of an input by table, as `ingestTables` goes through them. -/
def inputBlocks (tables : List (String × BTreeMap BlockNumber (List Row))) :
    List (String × BlockNumber × List Row) :=
  tables.flatMap fun (table, byBlock) =>
    byBlock.toList.map fun (block, rows) => (table, block, rows)

theorem mem_inputBlocks {tables : List (String × BTreeMap BlockNumber (List Row))} {table : String}
    {block : BlockNumber} {rows : List Row} :
    (table, block, rows) ∈ inputBlocks tables ↔
      ∃ byBlock, (table, byBlock) ∈ tables ∧ byBlock[block]? = some rows := by
  simp only [inputBlocks, List.mem_flatMap, List.mem_map, Prod.mk.injEq, Prod.exists]
  constructor
  · rintro ⟨t, byBlock, hmem, b, rs, hrows, rfl, rfl, rfl⟩
    exact ⟨byBlock, hmem, ExtTreeMap.mem_toList_iff_getElem?_eq_some.mp hrows⟩
  · rintro ⟨byBlock, hmem, hrows⟩
    exact ⟨table, byBlock, hmem, block, rows,
      ExtTreeMap.mem_toList_iff_getElem?_eq_some.mpr hrows, rfl, rfl, rfl⟩

/-! ## Rows by column name -/

/-- `mapBlock` succeeds with the block that `ofBlock` sees. -/
theorem mapBlock_ok {table : String} {map : RowMap} {n : BlockNumber}
    (h : mapBlock table map = .ok n) (block : BlockNumber) : ofBlock block map = (n == block) := by
  unfold mapBlock at h
  unfold ofBlock
  split at h
  · next m heq =>
    cases h
    rw [heq]
  · cases h
  · cases h

/-- The loop of `rowsFromMaps` appends each row to those of its block. -/
theorem rowsFromMaps_loop {table : String} {registry : ColumnRegistry} {maps : List RowMap}
    {acc byBlock : BTreeMap BlockNumber (List Row)}
    (h : maps.foldlM (fun (byBlock : BTreeMap BlockNumber (List Row)) map => do
      let block ← mapBlock table map
      (.ok (byBlock.insert block (byBlock[block]?.getD [] ++ [rowOfMap registry map])) :
        Except Error (BTreeMap BlockNumber (List Row)))) acc = .ok byBlock)
    (block : BlockNumber) :
    byBlock[block]? = if (maps.filter (ofBlock block)) = [] then acc[block]?
      else some (acc[block]?.getD [] ++ (maps.filter (ofBlock block)).map (rowOfMap registry)) := by
  induction maps generalizing acc with
  | nil =>
    cases h
    rfl
  | cons map maps ih =>
    rw [List.foldlM_cons] at h
    cases hb : mapBlock table map with
    | error err =>
      rw [hb] at h
      cases h
    | ok n =>
      rw [hb] at h
      have hrest := ih h
      rw [hrest, List.filter_cons, mapBlock_ok hb block]
      by_cases hn : n = block
      · subst hn
        simp only [ExtTreeMap.getElem?_insert_self, Option.getD_some, beq_self_eq_true, if_true,
          List.map_cons, List.append_assoc, List.singleton_append, reduceCtorEq, if_false]
        split
        · next hnil => rw [hnil, List.map_nil]
        · rfl
      · have hne : ¬ compare n block = .eq := fun heq => hn (LawfulEqCmp.eq_of_compare heq)
        have hbeq : (n == block) = false := by simpa using hn
        rw [hbeq, if_neg Bool.false_ne_true, ExtTreeMap.getElem?_insert, if_neg hne]

theorem rowsFromMaps_ok {db : Db E} {table : String} {maps : List RowMap}
    {byBlock : BTreeMap BlockNumber (List Row)} (h : db.rowsFromMaps table maps = .ok byBlock)
    (block : BlockNumber) (rows : List Row) :
    byBlock[block]? = some rows ↔ rows ≠ [] ∧
      (match Engine.tableRegistry db.engine table with
        | some registry => (maps.filter (ofBlock block)).map (rowOfMap registry)
        | none => []) = rows := by
  unfold rowsFromMaps at h
  cases hreg : Engine.tableRegistry db.engine table with
  | none =>
    rw [hreg] at h
    cases maps with
    | nil =>
      cases h
      simp only [ExtTreeMap.getElem?_empty]
      constructor
      · intro hnone
        cases hnone
      · rintro ⟨hne, hnil⟩
        exact absurd hnil.symm hne
    | cons map maps =>
      simp only [List.isEmpty_cons, Bool.not_false, Option.isNone_none, Bool.and_self, if_true,
        bind, Except.bind] at h
      split at h <;> cases h
  | some registry =>
    rw [hreg] at h
    simp only [Option.isNone_some, Bool.and_false, Bool.false_eq_true, if_false] at h
    cases hloop : maps.foldlM (fun (byBlock : BTreeMap BlockNumber (List Row)) map => do
        let block ← mapBlock table map
        (.ok (byBlock.insert block (byBlock[block]?.getD [] ++ [rowOfMap registry map])) :
          Except Error (BTreeMap BlockNumber (List Row)))) ∅ with
    | error err =>
      rw [hloop] at h
      cases h
    | ok m =>
      rw [hloop] at h
      cases h
      rw [rowsFromMaps_loop hloop block]
      split
      · next hnil =>
        simp only [hnil, List.map_nil, ExtTreeMap.getElem?_empty]
        constructor
        · intro hnone
          cases hnone
        · rintro ⟨hne, hrows⟩
          exact absurd hrows.symm hne
      · next hnil =>
        simp only [ExtTreeMap.getElem?_empty, Option.getD_none, List.nil_append, Option.some.injEq]
        constructor
        · rintro rfl
          exact ⟨by simpa using hnil, rfl⟩
        · exact fun hrows => hrows.2

/-! ## Positional rows -/

theorem checkRows_ok {db : Db E} {table : String} {input byBlock : BTreeMap BlockNumber (List Row)}
    (h : db.checkRows table input = .ok byBlock) (block : BlockNumber) (rows : List Row) :
    byBlock[block]? = some rows ↔ rows ≠ [] ∧ input[block]? = some rows := by
  have hfilter : byBlock = input.filter fun _ rows => !rows.isEmpty := by
    unfold checkRows at h
    dsimp only at h
    split at h
    · cases h
      rfl
    · split at h
      · cases h
      · simp only [bind, Except.bind] at h
        split at h
        · cases h
        · cases h
          rfl
  rw [hfilter, ExtTreeMap.getElem?_filter]
  cases input[block]? with
  | none => simp
  | some rows' =>
    constructor
    · intro hsome
      cases rows' with
      | nil => simp at hsome
      | cons row rest =>
        obtain ⟨rfl, -⟩ : row :: rest = rows ∧ ¬ rows = [] := by simpa using hsome
        exact ⟨by simp, rfl⟩
    · rintro ⟨hne, heq⟩
      cases heq
      simp [hne]

/-! ## The grouped input -/

theorem mapM_ok {α β : Type} {f : α → Except Error β} {l : List α} {l' : List β}
    (h : l.mapM f = .ok l') : List.Forall₂ (fun a b => f a = .ok b) l l' := by
  induction l generalizing l' with
  | nil =>
    cases h
    exact List.Forall₂.nil
  | cons a l ih =>
    rw [List.mapM_cons] at h
    cases hf : f a with
    | error err =>
      rw [hf] at h
      cases h
    | ok b =>
      cases hrest : l.mapM f with
      | error err =>
        rw [hf, hrest] at h
        cases h
      | ok rest =>
        rw [hf, hrest] at h
        cases h
        exact List.Forall₂.cons hf (ih hrest)

/-- The loop over the tables: each one with what `check` makes of it. -/
theorem mem_mapM_tables {α β : Type} {check : String → α → Except Error β}
    {tables : List (String × α)} {grouped : List (String × β)}
    (h : tables.mapM (fun (table, input) => do .ok (table, ← check table input)) = .ok grouped) :
    (∀ table b, (table, b) ∈ grouped →
      ∃ input, (table, input) ∈ tables ∧ check table input = .ok b) ∧
    ∀ table input, (table, input) ∈ tables →
      ∃ b, (table, b) ∈ grouped ∧ check table input = .ok b := by
  have hone : ∀ t : String × α, ∀ t' : String × β,
      (do .ok (t.1, ← check t.1 t.2) : Except Error (String × β)) = .ok t' →
        t'.1 = t.1 ∧ check t.1 t.2 = .ok t'.2 := by
    intro t t' ht
    cases hc : check t.1 t.2 with
    | error err =>
      rw [hc] at ht
      cases ht
    | ok b =>
      rw [hc] at ht
      cases ht
      exact ⟨rfl, rfl⟩
  have hall := mapM_ok h
  clear h
  induction hall with
  | nil => simp
  | @cons t t' tables grouped ht hrest ih =>
    obtain ⟨hname, hcheck⟩ := hone t t' ht
    constructor
    · intro table b hmem
      rcases List.mem_cons.mp hmem with heq | hmem
      · subst heq
        have hname : table = t.1 := hname
        subst hname
        exact ⟨t.2, List.mem_cons_self, hcheck⟩
      · obtain ⟨input, hin, hok⟩ := ih.1 table b hmem
        exact ⟨input, List.mem_cons_of_mem t hin, hok⟩
    · intro table input hmem
      rcases List.mem_cons.mp hmem with heq | hmem
      · subst heq
        have hname : t'.1 = table := hname
        refine ⟨t'.2, ?_, hcheck⟩
        rw [← hname]
        exact List.mem_cons_self
      · obtain ⟨b, hin, hok⟩ := ih.2 table input hmem
        exact ⟨b, List.mem_cons_of_mem t' hin, hok⟩

/-- The order check of `groupInputRows` succeeded, and then its row checks. -/
theorem groupInputRows_checked {db : Db E} {data : InputData} {latest : Option BlockNumber}
    {tables : List (String × BTreeMap BlockNumber (List Row))}
    (h : db.groupInputRows data latest = .ok tables) :
    (do
      let grouped ← match data with
        | .maps data => data.toList.mapM fun (table, maps) => do
            .ok (table, ← db.rowsFromMaps table maps)
        | .rows data => data.toList.mapM fun (table, byBlock) => do
            .ok (table, ← db.checkRows table byBlock)
      .ok (grouped.filter fun (_, byBlock) => !byBlock.isEmpty)) = Except.ok tables ∧
    ∀ l m, latest = some l → minInput data = some m → l < m := by
  unfold groupInputRows at h
  cases latest with
  | none => exact ⟨h, by simp⟩
  | some l =>
    cases hm : minInput data with
    | none =>
      rw [hm] at h
      exact ⟨h, by simp⟩
    | some m =>
      rw [hm] at h
      dsimp only at h
      split at h
      · cases h
      · next hle =>
        refine ⟨h, ?_⟩
        intro l' m' hl' hm'
        cases hl'
        cases hm'
        exact UInt64.not_le.mp hle

/-- The checks of `groupInputRows` that succeeded. -/
theorem groupInputRows_cases {db : Db E} {data : InputData} {latest : Option BlockNumber}
    {tables : List (String × BTreeMap BlockNumber (List Row))}
    (h : db.groupInputRows data latest = .ok tables) :
    (∀ l m, latest = some l → minInput data = some m → l < m) ∧
    ∃ grouped, tables = grouped.filter (fun (_, byBlock) => !byBlock.isEmpty) ∧
      (match data with
        | .maps data => data.toList.mapM fun (table, maps) => do
            .ok (table, ← db.rowsFromMaps table maps)
        | .rows data => data.toList.mapM fun (table, byBlock) => do
            .ok (table, ← db.checkRows table byBlock)) = .ok grouped := by
  refine ⟨(groupInputRows_checked h).2, ?_⟩
  have hgroup := (groupInputRows_checked h).1
  cases data with
  | maps input =>
    dsimp only at hgroup ⊢
    generalize (input.toList.mapM _ : Except Error (List (String × BTreeMap BlockNumber (List Row))))
      = grouped at hgroup ⊢
    cases grouped with
    | error err => cases hgroup
    | ok grouped =>
      cases hgroup
      exact ⟨grouped, rfl, rfl⟩
  | rows input =>
    dsimp only at hgroup ⊢
    generalize (input.toList.mapM _ : Except Error (List (String × BTreeMap BlockNumber (List Row))))
      = grouped at hgroup ⊢
    cases grouped with
    | error err => cases hgroup
    | ok grouped =>
      cases hgroup
      exact ⟨grouped, rfl, rfl⟩

/-- **A checked input has the rows of the input.** -/
theorem groupInputRows_rows {db : Db E} {data : InputData} {latest : Option BlockNumber}
    {tables : List (String × BTreeMap BlockNumber (List Row))}
    (h : db.groupInputRows data latest = .ok tables) (table : String) (block : BlockNumber)
    (rows : List Row) :
    (table, block, rows) ∈ inputBlocks tables ↔
      rows ≠ [] ∧ data.rowsAt (Engine.tableRegistry db.engine) table block = rows := by
  obtain ⟨-, grouped, rfl, hgrouped⟩ := groupInputRows_cases h
  rw [mem_inputBlocks]
  -- a table with rows at some block is not dropped
  have hdrop : (∃ byBlock : BTreeMap BlockNumber (List Row),
      (table, byBlock) ∈ grouped.filter (fun (_, byBlock) => !byBlock.isEmpty) ∧
        byBlock[block]? = some rows) ↔
      ∃ byBlock, (table, byBlock) ∈ grouped ∧ byBlock[block]? = some rows := by
    constructor
    · rintro ⟨byBlock, hmem, hrows⟩
      exact ⟨byBlock, (List.mem_filter.mp hmem).1, hrows⟩
    · rintro ⟨byBlock, hmem, hrows⟩
      refine ⟨byBlock, List.mem_filter.mpr ⟨hmem, ?_⟩, hrows⟩
      by_contra hempty
      have hnil : byBlock = ∅ := ExtTreeMap.isEmpty_iff.mp (by simpa using hempty)
      rw [hnil, ExtTreeMap.getElem?_empty] at hrows
      cases hrows
  rw [hdrop]
  cases data with
  | maps input =>
    obtain ⟨hfrom, hto⟩ := mem_mapM_tables hgrouped
    rw [InputData.rowsAt]
    constructor
    · rintro ⟨byBlock, hmem, hrows⟩
      obtain ⟨maps, hmaps, hok⟩ := hfrom table byBlock hmem
      have hmaps := ExtTreeMap.mem_toList_iff_getElem?_eq_some.mp hmaps
      have hat := (rowsFromMaps_ok hok block rows).mp hrows
      rw [hmaps]
      refine ⟨hat.1, ?_⟩
      rw [← hat.2]
      cases Engine.tableRegistry db.engine table <;> rfl
    · rintro ⟨hne, hat⟩
      cases hmaps : input[table]? with
      | none =>
        rw [hmaps] at hat
        exact absurd hat.symm hne
      | some maps =>
        have hmem : (table, maps) ∈ input.toList :=
          ExtTreeMap.mem_toList_iff_getElem?_eq_some.mpr hmaps
        obtain ⟨byBlock, hin, hok⟩ := hto table maps hmem
        refine ⟨byBlock, hin, (rowsFromMaps_ok hok block rows).mpr ⟨hne, ?_⟩⟩
        rw [hmaps] at hat
        rw [← hat]
        cases Engine.tableRegistry db.engine table <;> rfl
  | rows input =>
    obtain ⟨hfrom, hto⟩ := mem_mapM_tables hgrouped
    rw [InputData.rowsAt]
    constructor
    · rintro ⟨byBlock, hmem, hrows⟩
      obtain ⟨byBlock', hin, hok⟩ := hfrom table byBlock hmem
      have hin := ExtTreeMap.mem_toList_iff_getElem?_eq_some.mp hin
      have hat := (checkRows_ok hok block rows).mp hrows
      rw [hin, Option.bind_some, hat.2]
      exact ⟨hat.1, rfl⟩
    · rintro ⟨hne, hat⟩
      cases hin : input[table]? with
      | none =>
        rw [hin] at hat
        exact absurd hat.symm hne
      | some byBlock' =>
        have hmem : (table, byBlock') ∈ input.toList :=
          ExtTreeMap.mem_toList_iff_getElem?_eq_some.mpr hin
        obtain ⟨byBlock, hgr, hok⟩ := hto table byBlock' hmem
        refine ⟨byBlock, hgr, (checkRows_ok hok block rows).mpr ⟨hne, ?_⟩⟩
        rw [hin, Option.bind_some] at hat
        cases hrow : byBlock'[block]? with
        | none =>
          rw [hrow] at hat
          exact absurd hat.symm hne
        | some rows' =>
          rw [hrow, Option.getD_some] at hat
          rw [hat]

/-! ## Blocks above the latest one -/

theorem min?_le {blocks : List BlockNumber} {b : BlockNumber} (hb : b ∈ blocks) :
    ∃ m, blocks.min? = some m ∧ m ≤ b := by
  have hfold : ∀ (rest : List BlockNumber) (x : BlockNumber), rest.foldl min x ≤ x ∧
      ∀ y ∈ rest, rest.foldl min x ≤ y := by
    intro rest
    induction rest with
    | nil => exact fun x => ⟨UInt64.le_refl x, by simp⟩
    | cons z rest ih =>
      intro x
      obtain ⟨hle, hall⟩ := ih (min x z)
      obtain ⟨hx, hz⟩ := BlockNumber.min_le x z
      refine ⟨UInt64.le_trans hle hx, ?_⟩
      intro y hy
      rcases List.mem_cons.mp hy with rfl | hy
      · exact UInt64.le_trans hle hz
      · exact hall y hy
  cases blocks with
  | nil => cases hb
  | cons x rest =>
    refine ⟨rest.foldl min x, rfl, ?_⟩
    rcases List.mem_cons.mp hb with rfl | hb
    · exact (hfold rest b).1
    · exact (hfold rest x).2 b hb

/-- The lowest block of the input is at or below every block with rows. -/
theorem minInput_le {registry : String → Option ColumnRegistry} {data : InputData} {table : String}
    {block : BlockNumber} (h : data.rowsAt registry table block ≠ []) :
    ∃ m, minInput data = some m ∧ m ≤ block := by
  cases data with
  | maps input =>
    rw [InputData.rowsAt] at h
    cases hmaps : input[table]? with
    | none => simp [hmaps] at h
    | some maps =>
      cases hreg : registry table with
      | none => simp [hmaps, hreg] at h
      | some reg =>
        have hne : maps.filter (ofBlock block) ≠ [] := by
          intro hnil
          simp [hmaps, hreg, hnil] at h
        obtain ⟨map, hmap⟩ := List.exists_mem_of_ne_nil _ hne
        obtain ⟨hmem, hof⟩ := List.mem_filter.mp hmap
        refine min?_le ?_
        rw [List.mem_flatMap]
        refine ⟨(table, maps), ExtTreeMap.mem_toList_iff_getElem?_eq_some.mpr hmaps, ?_⟩
        rw [List.mem_filterMap]
        refine ⟨map, hmem, ?_⟩
        unfold ofBlock at hof
        split at hof
        · next n heq =>
          have hn := beq_iff_eq.mp hof
          simp_all
        · cases hof
  | rows input =>
    rw [InputData.rowsAt] at h
    cases hin : input[table]? with
    | none => simp [hin] at h
    | some byBlock =>
      cases hrows : byBlock[block]? with
      | none => simp [hin, hrows] at h
      | some rows =>
        have hne : rows ≠ [] := by simpa [hin, hrows] using h
        have hmem : (block, rows) ∈ byBlock.toList :=
          ExtTreeMap.mem_toList_iff_getElem?_eq_some.mpr hrows
        -- the first block with rows is not above this one
        obtain ⟨first, hfirst, hle⟩ : ∃ first,
            byBlock.toList.find? (fun (_, rows) => !rows.isEmpty) = some first ∧
              first.1 ≤ block := by
          have hsorted := OrdMap.sorted_toList byBlock
          generalize byBlock.toList = blocks at hmem hsorted
          induction blocks with
          | nil => cases hmem
          | cons e blocks ih =>
            obtain ⟨hlt, hsorted⟩ := List.pairwise_cons.mp hsorted
            rw [List.find?_cons]
            rcases List.mem_cons.mp hmem with rfl | hmem
            · have hrow : (!rows.isEmpty) = true := by simpa using hne
              refine ⟨(block, rows), ?_, UInt64.le_refl block⟩
              simp only [hrow]
            · split
              · exact ⟨e, rfl, UInt64.le_of_lt (hlt _ hmem)⟩
              · exact ih hmem hsorted
        have hlist : first.1 ∈ input.toList.filterMap fun (_, blocks) =>
            (blocks.toList.find? fun (_, rows) => !rows.isEmpty).map Prod.fst := by
          rw [List.mem_filterMap]
          exact ⟨(table, byBlock), ExtTreeMap.mem_toList_iff_getElem?_eq_some.mpr hin,
            congrArg (Option.map Prod.fst) hfirst⟩
        obtain ⟨m, hm, hmle⟩ := min?_le hlist
        exact ⟨m, hm, UInt64.le_trans hmle hle⟩

/-- **A checked input has rows above the latest block only.** -/
theorem groupInputRows_above {db : Db E} {data : InputData} {latest : Option BlockNumber}
    {tables : List (String × BTreeMap BlockNumber (List Row))}
    (h : db.groupInputRows data latest = .ok tables) :
    ∀ t ∈ inputBlocks tables, ∀ l, latest = some l → l < t.2.1 := by
  intro t ht l hl
  obtain ⟨table, block, rows⟩ := t
  obtain ⟨hne, hat⟩ := (groupInputRows_rows h table block rows).mp ht
  obtain ⟨m, hm, hle⟩ := minInput_le (by rw [hat]; exact hne)
  exact lt_of_lt_of_le ((groupInputRows_cases h).1 l m hl hm) hle

end Db

end Settle
