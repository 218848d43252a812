import Settle.Schema.Validate
import Settle.Engine.DagOpen

/-!
# The column types of a view's source

A view reads the numeric mode of an aggregate off the type of its column. `check_numeric_aggregates`
and `SettleEngine::new` resolve that type separately, one with the state fields of a reducer before
its GROUP BY columns and one after them. They agree unless a state field and a GROUP BY column of
the reducer share a name with different types (`column_types_agree_iff`).
-/

namespace Settle

open Std

/-- A map made of the entries of a list with distinct keys. -/
theorem getElem?_ofList_map {α β : Type} (key : α → String) (value : α → β) {l : List α}
    (h : (l.map key).Nodup) (k : String) :
    (ExtTreeMap.ofList (l.map fun a => (key a, value a)) compare)[k]?
      = (l.find? (key · == k)).map value := by
  cases hfind : l.find? (key · == k) with
  | none =>
    refine ExtTreeMap.getElem?_ofList_of_contains_eq_false ?_
    rw [List.find?_eq_none] at hfind
    simp only [List.map_map, List.contains_eq_mem, decide_eq_false_iff_not, List.mem_map]
    rintro ⟨a, ha, heq⟩
    exact hfind a ha (by simpa using heq)
  | some a =>
    have hmem := List.mem_of_find?_eq_some hfind
    have hkey : key a = k := by simpa using List.find?_some hfind
    refine ExtTreeMap.getElem?_ofList_of_mem (k := k) ReflCmp.compare_self ?_ ?_
    · rw [List.pairwise_map]
      refine (List.pairwise_map.mp h).imp ?_
      intro a b hne heq
      exact hne (LawfulEqCmp.eq_of_compare heq)
    · exact List.mem_map.mpr ⟨a, hmem, by rw [hkey]⟩

/-- An element by its key, when keys are distinct. -/
theorem find?_of_nodup {α : Type} (key : α → String) {l : List α} (h : (l.map key).Nodup) {a : α}
    (ha : a ∈ l) : l.find? (key · == key a) = some a := by
  cases hfound : l.find? (key · == key a) with
  | none =>
    rw [List.find?_eq_none] at hfound
    exact absurd (beq_self_eq_true (key a)) (hfound a ha)
  | some b =>
    have hkey : key b = key a := by simpa using List.find?_some hfound
    rw [List.inj_on_of_nodup_map h (List.mem_of_find?_eq_some hfound) ha hkey]

namespace Schema

variable {schema : Schema}

/-- A state field of the reducer that is no MAP has the name of a GROUP BY column with another
type in the source table. -/
def Clash (schema : Schema) (source column : String) : Prop :=
  ∃ r ∈ schema.reducers, r.name = source ∧ column ∈ r.groupBy ∧
    ∃ f ∈ r.state, f.name = column ∧ f.map = false ∧
      ∃ columnType, schema.tableType r.source column = some columnType ∧
        columnType ≠ f.columnType

theorem tableColumnTypes_get (hnames : schema.tableNames.Nodup)
    (hcolumns : ∀ t ∈ schema.tables, (t.columns.map ColumnDef.name).Nodup) (table column : String) :
    (schema.tableColumnTypes[table]?).bind (fun columns => columns[column]?)
      = schema.tableType table column := by
  rw [tableColumnTypes, getElem?_ofList_map TableDef.name _ hnames, tableType, Option.bind_map]
  cases hfind : schema.tables.find? (·.name == table) with
  | none => rfl
  | some t =>
    exact getElem?_ofList_map ColumnDef.name ColumnDef.columnType
      (hcolumns t (List.mem_of_find?_eq_some hfind)) column

/-- The GROUP BY columns over the state fields, as the engine adds them. -/
theorem foldl_groupBy_get (columns : FxHashMap String ColumnType) (groupBy : List String)
    (fields : FxHashMap String ColumnType) (column : String) :
    (groupBy.foldl (fun fields column =>
      match columns[column]? with
      | some columnType => fields.insert column columnType
      | none => fields) fields)[column]?
      = if column ∈ groupBy then (columns[column]?).or fields[column]? else fields[column]? := by
  induction groupBy generalizing fields with
  | nil => rfl
  | cons name groupBy ih =>
    rw [List.foldl_cons, ih]
    by_cases heq : name = column
    · subst heq
      cases hname : columns[name]? with
      | none => simp
      | some columnType => simp
    · have hne : column ≠ name := fun h => heq h.symm
      have hcmp : ¬ compare name column = .eq := fun h => heq (LawfulEqCmp.eq_of_compare h)
      cases columns[name]? with
      | none => simp [hne]
      | some columnType =>
        simp only [List.mem_cons, hne, false_or, ExtTreeMap.getElem?_insert, hcmp, if_false]

/-- The engine's type of an emit column: a GROUP BY column of the source table before a state
field. -/
theorem reducerOutput_get (hnames : schema.tableNames.Nodup)
    (hcolumns : ∀ t ∈ schema.tables, (t.columns.map ColumnDef.name).Nodup) {r : ReducerDef}
    (hstate : (r.state.map StateField.name).Nodup) (column : String) :
    (schema.reducerOutput r)[column]?
      = (if column ∈ r.groupBy then schema.tableType r.source column else none).or
          ((r.state.find? fun f => f.name == column && !f.map).map StateField.columnType) := by
  have hfields : (ExtTreeMap.ofList ((r.state.filter (!·.map)).map fun s =>
      (s.name, s.columnType)) compare : FxHashMap String ColumnType)[column]?
        = (r.state.find? fun f => f.name == column && !f.map).map StateField.columnType := by
    have hnodup : ((r.state.filter (!·.map)).map StateField.name).Nodup :=
      hstate.sublist (List.filter_sublist.map _)
    rw [getElem?_ofList_map StateField.name StateField.columnType hnodup, List.find?_filter]
    congr 2
    funext f
    by_cases hname : f.name = column
    · simp [hname]
    · simp [hname]
  have htable := tableColumnTypes_get hnames hcolumns r.source column
  rw [reducerOutput]
  cases hcols : schema.tableColumnTypes[r.source]? with
  | none =>
    rw [hcols] at htable
    have htype : schema.tableType r.source column = none := htable.symm
    dsimp only
    rw [hfields, htype]
    simp
  | some columns =>
    rw [hcols] at htable
    have htype : columns[column]? = schema.tableType r.source column := htable
    refine (foldl_groupBy_get columns r.groupBy _ column).trans ?_
    rw [hfields, htype]
    split <;> simp

theorem reducerColumnTypes_get (hnames : schema.reducerNames.Nodup) (source : String) :
    schema.reducerColumnTypes[source]?
      = (schema.reducers.find? (·.name == source)).map schema.reducerOutput :=
  getElem?_ofList_map ReducerDef.name schema.reducerOutput hnames source

theorem objectNames_nodup (h : schema.objectNames.Nodup) : schema.tableNames.Nodup ∧
    schema.reducerNames.Nodup ∧ (schema.materializedViews.map MVDef.name).Nodup ∧
    ∀ name ∈ schema.tableNames, name ∉ schema.reducerNames := by
  rw [objectNames, List.nodup_append, List.nodup_append] at h
  obtain ⟨⟨htables, hreducers, hdisjoint⟩, hviews, -⟩ := h
  exact ⟨htables, hreducers, hviews, fun name ht hr => hdisjoint name ht name hr rfl⟩

/-- The source is a table, and no reducer has its name. -/
theorem sourceColumnTypes_table (hobjects : schema.objectNames.Nodup)
    (hcolumns : ∀ t ∈ schema.tables, (t.columns.map ColumnDef.name).Nodup) {source : String}
    {columns : FxHashMap String ColumnType}
    (hcols : schema.tableColumnTypes[source]? = some columns) (column : String) :
    (schema.sourceColumnTypes source)[column]? = schema.columnType source column ∧
      ¬ schema.Clash source column := by
  obtain ⟨htables, -, -, hdisjoint⟩ := objectNames_nodup hobjects
  have htype : columns[column]? = schema.tableType source column := by
    have htable := tableColumnTypes_get htables hcolumns source column
    rwa [hcols] at htable
  have hsource : source ∈ schema.tableNames := by
    rw [tableColumnTypes, getElem?_ofList_map TableDef.name _ htables] at hcols
    obtain ⟨t, ht, -⟩ := Option.map_eq_some_iff.mp hcols
    have hname : t.name = source := by simpa using List.find?_some ht
    exact List.mem_map.mpr ⟨t, List.mem_of_find?_eq_some ht, hname⟩
  have hnone : ∀ r ∈ schema.reducers, r.name ≠ source := fun r hr hname =>
    hdisjoint source hsource (List.mem_map.mpr ⟨r, hr, hname⟩)
  have hreducer : schema.reducers.find? (·.name == source) = none := by
    rw [List.find?_eq_none]
    intro r hr
    simpa using hnone r hr
  constructor
  · rw [sourceColumnTypes, hcols, Option.some_or, Option.getD_some, htype, columnType, hreducer]
    cases schema.tableType source column <;> rfl
  · rintro ⟨r, hr, hname, -⟩
    exact hnone r hr hname

/-- A clash on a state field. -/
theorem clash_iff_of_field (hreducers : schema.reducerNames.Nodup) {r : ReducerDef}
    (hr : r ∈ schema.reducers) (hstate : (r.state.map StateField.name).Nodup) {f : StateField}
    (hf : f ∈ r.state) (hmap : f.map = false) :
    schema.Clash r.name f.name ↔ f.name ∈ r.groupBy ∧
      ∃ columnType, schema.tableType r.source f.name = some columnType ∧
        columnType ≠ f.columnType := by
  constructor
  · rintro ⟨r', hr', hname, hgroup, f', hf', hfname, -, htype⟩
    obtain rfl : r' = r := List.inj_on_of_nodup_map hreducers hr' hr hname
    obtain rfl : f' = f := List.inj_on_of_nodup_map hstate hf' hf hfname
    exact ⟨hgroup, htype⟩
  · rintro ⟨hgroup, htype⟩
    exact ⟨r, hr, rfl, hgroup, f, hf, rfl, hmap, htype⟩

/-- A column that is no state field does not clash. -/
theorem not_clash_of_no_field (hreducers : schema.reducerNames.Nodup) {r : ReducerDef}
    (hr : r ∈ schema.reducers) {column : String}
    (hfield : (r.state.find? fun f => f.name == column && !f.map) = none) :
    ¬ schema.Clash r.name column := by
  rintro ⟨r', hr', hname, -, f, hf, hfname, hmap, -⟩
  obtain rfl : r' = r := List.inj_on_of_nodup_map hreducers hr' hr hname
  rw [List.find?_eq_none] at hfield
  exact hfield f hf (by simp [hfname, hmap])

/-- The types agree, except when the source is a reducer where a state field and a GROUP BY column
clash. -/
theorem sourceColumnTypes_iff (hobjects : schema.objectNames.Nodup)
    (hcolumns : ∀ t ∈ schema.tables, (t.columns.map ColumnDef.name).Nodup)
    (hstate : ∀ r ∈ schema.reducers, (r.state.map StateField.name).Nodup) (source column : String) :
    (schema.sourceColumnTypes source)[column]? = schema.columnType source column
      ↔ ¬ schema.Clash source column := by
  obtain ⟨htables, hreducers, -⟩ := objectNames_nodup hobjects
  cases hcols : schema.tableColumnTypes[source]? with
  | some columns =>
    obtain ⟨heq, hclash⟩ := sourceColumnTypes_table hobjects hcolumns hcols column
    exact iff_of_true heq hclash
  | none =>
    have htable := tableColumnTypes_get htables hcolumns source column
    rw [hcols] at htable
    have htype : schema.tableType source column = none := htable.symm
    rw [sourceColumnTypes, hcols, Option.none_or, reducerColumnTypes_get hreducers, columnType, htype]
    dsimp only
    cases hfound : schema.reducers.find? (·.name == source) with
    | none =>
      refine iff_of_true (by simp) ?_
      rintro ⟨r, hr, rfl, -⟩
      rw [find?_of_nodup ReducerDef.name hreducers hr] at hfound
      cases hfound
    | some r =>
      have hr := List.mem_of_find?_eq_some hfound
      obtain rfl : r.name = source := by simpa using List.find?_some hfound
      rw [Option.map_some, Option.getD_some, reducerOutput_get htables hcolumns (hstate r hr),
        Option.bind_some]
      cases hfield : r.state.find? fun f => f.name == column && !f.map with
      | none => exact iff_of_true (by simp) (not_clash_of_no_field hreducers hr hfield)
      | some f =>
        have hf := List.mem_of_find?_eq_some hfield
        obtain ⟨rfl, hmap⟩ : f.name = column ∧ f.map = false := by
          simpa using List.find?_some hfield
        rw [clash_iff_of_field hreducers hr (hstate r hr) hf hmap]
        dsimp only
        by_cases hgroup : f.name ∈ r.groupBy
        · rw [if_pos hgroup]
          cases schema.tableType r.source f.name with
          | none => simp
          | some columnType => simp [hgroup]
        · simp [hgroup]

/-- **One type for each view column.** In an accepted schema the type that the engine takes for a
column of a view's source is the one that `check_numeric_aggregates` resolved exactly when no state
field of the source clashes with a GROUP BY column of that name, and then no numeric aggregate
reads a column without numbers. -/
theorem column_types_agree_iff (h : schema.validate = .ok ()) (mv : MVDef)
    (hmv : mv ∈ schema.materializedViews) (func : AggFunc) (column : String)
    (hitem : .agg func (some column) ∈ mv.select.map SelectItem.expr)
    (hnumeric : numeric func = true) :
    ((schema.sourceColumnTypes mv.source)[column]? = schema.columnType mv.source column
      ↔ ¬ schema.Clash mv.source column) ∧
    (¬ schema.Clash mv.source column →
      noMode (schema.sourceColumnTypes mv.source)[column]? = false) := by
  obtain ⟨-, -, hnames, -, -, hviews⟩ := validate_ok.mp h
  obtain ⟨hobjects, hcolumns, hstate⟩ := checkNames_ok.mp hnames
  have hiff := sourceColumnTypes_iff hobjects hcolumns hstate mv.source column
  refine ⟨hiff, fun hclash => ?_⟩
  rw [hiff.mpr hclash]
  obtain ⟨-, -, -, -, -, -, hnumbers⟩ := checkView_ok.mp (hviews mv hmv)
  obtain ⟨item, hmem, hexpr⟩ := List.mem_map.mp hitem
  have hcheck := forM_eq_ok.mp hnumbers item hmem
  rw [hexpr] at hcheck
  dsimp only at hcheck
  rw [ite_error_ok, hnumeric] at hcheck
  simpa using hcheck

/-! ### A clash

The reducer `r` groups by the String column `x` of `t`, and has a UInt64 state field `x`. -/

def clashSchema : Schema where
  tables := [⟨"t", [⟨"block_number", .uint64⟩, ⟨"x", .string⟩], false⟩]
  modules := []
  reducers := [⟨"r", "t", ["x"], [⟨"x", .uint64, "0", false⟩], .external "r", []⟩]
  materializedViews := [⟨"v", "r", [⟨.agg .sum (some "x"), none⟩], [], none⟩]

theorem clashSchema_valid : clashSchema.validate = .ok () := by decide +kernel

/-- The state field is no String, so `sum(x)` is accepted, and the engine sums a String column. -/
theorem clash_sums_strings :
    ¬ ∀ schema : Schema, schema.validate = .ok () → ∀ mv ∈ schema.materializedViews,
      ∀ (func : AggFunc) (column : String),
        .agg func (some column) ∈ mv.select.map SelectItem.expr → numeric func = true →
        (schema.sourceColumnTypes mv.source)[column]? = schema.columnType mv.source column := by
  intro hall
  have hsame := hall clashSchema clashSchema_valid _ (List.mem_singleton_self _) .sum "x"
    (by simp) rfl
  revert hsame
  decide +kernel

theorem column_types_agree_iff_clash :
    (clashSchema.sourceColumnTypes "r")["x"]? = clashSchema.columnType "r" "x"
      ↔ ¬ clashSchema.Clash "r" "x" :=
  (column_types_agree_iff clashSchema_valid
    ⟨"v", "r", [⟨.agg .sum (some "x"), none⟩], [], none⟩ (List.mem_singleton_self _) .sum "x"
    (by simp) rfl).1

end Schema

end Settle
