import Settle.Storage.Format

/-!
# Schema validation

`validate_schema` of `src/schema/parser.rs`. The error is the message of `Error::Schema`.

The walk along the sources of the reducers stops at a name without a source or at one that it has
visited. Each step visits one more of the names that have a source, so it ends.
-/

namespace Settle

open Std

/-! ## Names -/

/-- `unique`: Err if two of the names are equal. -/
def unique (owner kind : String) : List String → List String → Except String Unit
  | _, [] => .ok ()
  | seen, name :: rest =>
    if seen.contains name then .error (owner ++ "two " ++ kind ++ "s are named '" ++ name ++ "'")
    else unique owner kind (name :: seen) rest

/-- The most columns that a stored row can hold (`u16::MAX`). -/
def maxColumns : Nat := 65535

/-- The most aggregate columns of a view: their count is stored in one byte. -/
def maxMvAggregates : Nat := 255

namespace Schema

variable (schema : Schema)

def tableNames : List String := schema.tables.map TableDef.name

def reducerNames : List String := schema.reducers.map ReducerDef.name

def moduleNames : List String := schema.modules.map ModuleDef.name

def checkSizes : Except String Unit := do
  schema.tables.forM fun table =>
    if maxColumns < table.columns.length then
      .error ("table '" ++ table.name ++ "': " ++ toString table.columns.length ++
        " columns, at most " ++ toString maxColumns ++ " are supported")
    else .ok ()
  schema.reducers.forM fun reducer =>
    if maxColumns < reducer.state.length then
      .error ("reducer '" ++ reducer.name ++ "': " ++ toString reducer.state.length ++
        " STATE fields, at most " ++ toString maxColumns ++ " are supported")
    else .ok ()

/-- Module name uniqueness. -/
def checkModules : List String → List String → Except String Unit
  | _, [] => .ok ()
  | seen, name :: rest =>
    if seen.contains name then .error ("duplicate module name: '" ++ name ++ "'")
    else checkModules (name :: seen) rest

/-- A source names a table or a reducer, and the output names a table or a view: the three share
one namespace. -/
def objectNames : List String :=
  schema.tableNames ++ schema.reducerNames ++ schema.materializedViews.map MVDef.name

def checkNames : Except String Unit := do
  unique "" "object" [] schema.objectNames
  schema.tables.forM fun table =>
    unique ("table '" ++ table.name ++ "': ") "column" [] (table.columns.map ColumnDef.name)
  schema.reducers.forM fun reducer =>
    unique ("reducer '" ++ reducer.name ++ "': ") "state field" []
      (reducer.state.map StateField.name)

/-! ## Reducers -/

/-- REQUIRE references. -/
def checkRequires (reducer : ReducerDef) : Except String Unit :=
  reducer.requires.forM fun req =>
    if schema.moduleNames.contains req then .ok ()
    else .error ("reducer '" ++ reducer.name ++ "': REQUIRE references unknown module '" ++ req ++ "'")

/-- The source is a table or another reducer. -/
def checkSource (reducer : ReducerDef) : Except String Unit :=
  if !schema.tableNames.contains reducer.source && !schema.reducerNames.contains reducer.source then
    .error ("reducer '" ++ reducer.name ++ "': source '" ++ reducer.source ++
      "' is not a known table or reducer")
  else if reducer.source = reducer.name then
    .error ("reducer '" ++ reducer.name ++ "': cannot source from itself")
  else .ok ()

/-- GROUP BY columns against the source table. The output columns of a reducer are dynamic. -/
def checkGroupBy (reducer : ReducerDef) : Except String Unit :=
  match schema.tables.find? (·.name == reducer.source) with
  | none => .ok ()
  | some table =>
    reducer.groupBy.forM fun col =>
      if (table.columns.map ColumnDef.name).contains col then .ok ()
      else .error ("reducer '" ++ reducer.name ++ "': GROUP BY column '" ++ col ++
        "' not found in source table '" ++ reducer.source ++ "'")

def checkReducer (reducer : ReducerDef) : Except String Unit := do
  schema.checkRequires reducer
  schema.checkSource reducer
  schema.checkGroupBy reducer

/-! ## Circular dependencies -/

/-- The reducers whose source is a reducer, with it. -/
def reducerSourceMap : FxHashMap String String :=
  ExtTreeMap.ofList ((schema.reducers.filter fun r => schema.reducerNames.contains r.source).map
    fun r => (r.name, r.source)) compare

end Schema

/-- The names that have a source and were not visited. -/
def unvisited (sources : FxHashMap String String) (visited : List String) : List String :=
  sources.keys.filter fun name => !visited.contains name

theorem unvisited_lt {sources : FxHashMap String String} {visited : List String}
    {current next : String} (h : sources[current]? = some next)
    (hv : ¬ visited.contains current = true) :
    (unvisited sources (current :: visited)).length < (unvisited sources visited).length := by
  have hfilter : unvisited sources (current :: visited)
      = (unvisited sources visited).filter fun name => !(name == current) := by
    rw [unvisited, unvisited, List.filter_filter]
    congr 1
    funext name
    by_cases heq : name = current
    · simp [heq]
    · simp [heq]
  rw [hfilter, List.length_filter_lt_length_iff_exists]
  refine ⟨current, List.mem_filter.mpr ⟨?_, by simpa using hv⟩, by simp⟩
  rw [ExtTreeMap.mem_keys, ExtTreeMap.mem_iff_isSome_getElem?, h]
  rfl

/-- The walk along the sources. -/
def walkSources (sources : FxHashMap String String) (visited : List String) (current : String) :
    Except String Unit :=
  match _h : sources[current]? with
  | none => .ok ()
  | some next =>
    if _hv : visited.contains current then
      .error ("circular dependency detected among reducers involving '" ++ current ++ "'")
    else walkSources sources (current :: visited) next
termination_by (unvisited sources visited).length
decreasing_by exact unvisited_lt (by assumption) (by assumption)

namespace Schema

variable (schema : Schema)

def checkCycles : Except String Unit :=
  schema.reducerSourceMap.keys.forM (walkSources schema.reducerSourceMap [])

end Schema

/-! ## Views -/

namespace MVDef

variable (mv : MVDef)

/-- The items that are not aggregates. -/
def keyItems : List SelectItem :=
  mv.select.filter fun item =>
    match item.expr with
    | .agg _ _ => false
    | _ => true

def aggregateCount : Nat :=
  (mv.select.filter fun item =>
    match item.expr with
    | .agg _ _ => true
    | _ => false).length

/-- The key items that a GROUP BY entry names. As in SQL, a source column wins over an alias: it
names each key item that reads it. -/
def entryItems (keys : List SelectItem) (entry : String) : List Nat :=
  let reading := (List.range keys.length).filter fun i =>
    (keys[i]?.map SelectItem.expr) = some (.column entry)
  if reading.isEmpty then (keys.findIdx? fun key => key.outputName == entry).toList else reading

/-- `named[i]` is set for each of the items. -/
def nameItems (keys : List SelectItem) : List Nat → List Bool → Except String (List Bool)
  | [], named => .ok named
  | i :: rest, named =>
    if named[i]?.getD false then
      .error ("MV '" ++ mv.name ++ "': GROUP BY names the key item '" ++
        ((keys[i]?.map SelectItem.outputName).getD "") ++ "' twice")
    else nameItems keys rest (named.set i true)

def nameEntries (keys : List SelectItem) : List String → List Bool → Except String (List Bool)
  | [], named => .ok named
  | entry :: rest, named =>
    match entryItems keys entry with
    | [] =>
      .error ("MV '" ++ mv.name ++ "': GROUP BY '" ++ entry ++
        "' is not a key item of the select list")
    | items => do
      let named ← mv.nameItems keys items named
      nameEntries keys rest named

/-- `check_view_keys`. -/
def checkViewKeys : Except String Unit := do
  let named ← mv.nameEntries mv.keyItems mv.groupBy (List.replicate mv.keyItems.length false)
  match named.findIdx? (! ·) with
  | some i =>
    .error ("MV '" ++ mv.name ++ "': the key item '" ++
      ((mv.keyItems[i]?.map SelectItem.outputName).getD "") ++ "' is not in GROUP BY")
  | none => .ok ()

/-- The source columns that the items read. -/
def readColumns : List String :=
  mv.select.filterMap fun item =>
    match item.expr with
    | .column col => some col
    | .windowFunc col _ => some col
    | .agg _ col => col

end MVDef

namespace Schema

variable (schema : Schema)

/-- The type of a column of a table. -/
def tableType (table column : String) : Option ColumnType :=
  (schema.tables.find? (·.name == table)).bind fun t =>
    (t.columns.find? (·.name == column)).map ColumnDef.columnType

/-- `column_type` in `check_numeric_aggregates`: the type of a column of the source of a view. -/
def columnType (source column : String) : Option ColumnType :=
  match schema.tableType source column with
  | some columnType => some columnType
  | none =>
    (schema.reducers.find? (·.name == source)).bind fun reducer =>
      match reducer.state.find? fun f => f.name == column && !f.map with
      | some field => some field.columnType
      | none =>
        if reducer.groupBy.contains column then schema.tableType reducer.source column else none

/-- The types whose columns hold no numbers. -/
def noMode : Option ColumnType → Bool
  | some .string | some .boolean | some .bytes | some .base58 | some .json => true
  | _ => false

/-- The aggregate reads numbers. -/
def numeric : AggFunc → Bool
  | .sum | .min | .max | .avg => true
  | _ => false

/-- `check_numeric_aggregates`. -/
def checkNumericAggregates (mv : MVDef) : Except String Unit :=
  mv.select.forM fun item =>
    match item.expr with
    | .agg func (some column) =>
      if numeric func && noMode (schema.columnType mv.source column) then
        .error ("MV '" ++ mv.name ++ "': " ++ func.name ++ "() reads numbers, and column '" ++
          column ++ "' holds none")
      else .ok ()
    | _ => .ok ()

/-- The columns that a view of a table reads. -/
def checkReadColumns (mv : MVDef) : Except String Unit :=
  match schema.tables.find? (·.name == mv.source) with
  | none => .ok ()
  | some table =>
    mv.readColumns.forM fun col =>
      if (table.columns.map ColumnDef.name).contains col then .ok ()
      else .error ("MV '" ++ mv.name ++ "': column '" ++ col ++ "' not found in source table '" ++
        mv.source ++ "'")

/-- The time column of a sliding window over a table. -/
def checkWindow (mv : MVDef) : Except String Unit :=
  match mv.slidingWindow, schema.tables.find? (·.name == mv.source) with
  | some sw, some table =>
    match table.columns.find? (·.name == sw.timeColumn) with
    | none =>
      .error ("MV '" ++ mv.name ++ "': WINDOW SLIDING BY column '" ++ sw.timeColumn ++
        "' not found in source table '" ++ mv.source ++ "'")
    | some c =>
      match c.columnType with
      | .dateTime | .uint64 | .int64 => .ok ()
      | columnType =>
        .error ("MV '" ++ mv.name ++ "': WINDOW SLIDING BY column '" ++ sw.timeColumn ++
          "' must be DateTime, UInt64, or Int64 (got " ++ columnType.text ++ ")")
  | _, _ => .ok ()

/-- The source of a view, and the number of its aggregates. -/
def checkViewSource (mv : MVDef) : Except String Unit :=
  if !schema.tableNames.contains mv.source && !schema.reducerNames.contains mv.source then
    .error ("MV '" ++ mv.name ++ "': source '" ++ mv.source ++ "' is not a known table or reducer")
  else if maxMvAggregates < mv.aggregateCount then
    .error ("MV '" ++ mv.name ++ "': " ++ toString mv.aggregateCount ++
      " aggregate columns, at most " ++ toString maxMvAggregates ++ " are supported")
  else .ok ()

def checkHasAggregate (mv : MVDef) : Except String Unit :=
  if mv.aggregateCount = 0 then
    .error ("MV '" ++ mv.name ++ "': a view needs at least one aggregate")
  else .ok ()

def checkView (mv : MVDef) : Except String Unit := do
  schema.checkViewSource mv
  schema.checkReadColumns mv
  schema.checkWindow mv
  checkHasAggregate mv
  unique ("MV '" ++ mv.name ++ "': ") "output column" [] (mv.select.map SelectItem.outputName)
  mv.checkViewKeys
  schema.checkNumericAggregates mv

/-- `validate_schema`. -/
def validate : Except String Unit := do
  schema.checkSizes
  checkModules [] schema.moduleNames
  schema.checkNames
  schema.reducers.forM schema.checkReducer
  schema.checkCycles
  schema.materializedViews.forM schema.checkView

end Schema

/-! ## What the checks ask -/

theorem seq_ok {ε : Type} {x y : Except ε Unit} :
    (do x; y) = .ok () ↔ x = .ok () ∧ y = .ok () := by
  cases x with
  | error e =>
    constructor
    · intro h
      cases h
    · rintro ⟨h, -⟩
      cases h
  | ok u => exact ⟨fun h => ⟨rfl, h⟩, fun h => h.2⟩

theorem forM_eq_ok {ε α : Type} {f : α → Except ε Unit} {l : List α} :
    l.forM f = .ok () ↔ ∀ a ∈ l, f a = .ok () := by
  induction l with
  | nil => exact ⟨fun _ a ha => absurd ha (by simp), fun _ => rfl⟩
  | cons a l ih =>
    show (do f a; l.forM f) = .ok () ↔ _
    rw [seq_ok, ih, List.forall_mem_cons]

theorem ite_error_ok {ε : Type} {p : Prop} [Decidable p] {e : ε} :
    (if p then .error e else .ok () : Except ε Unit) = .ok () ↔ ¬ p := by
  split
  · next h =>
    constructor
    · intro heq
      cases heq
    · exact fun hn => absurd h hn
  · next h => exact ⟨fun _ => h, fun _ => rfl⟩

theorem unique_ok {owner kind : String} {seen names : List String} :
    unique owner kind seen names = .ok () ↔ names.Nodup ∧ ∀ n ∈ names, n ∉ seen := by
  induction names generalizing seen with
  | nil => simp [unique]
  | cons name rest ih =>
    rw [unique]
    split
    · next hc =>
      have hseen : name ∈ seen := by simpa using hc
      constructor
      · intro h
        cases h
      · rintro ⟨-, hnot⟩
        exact absurd hseen (hnot name (by simp))
    · next hc =>
      have hseen : name ∉ seen := by simpa using hc
      rw [ih, List.nodup_cons]
      constructor
      · rintro ⟨hnd, hnot⟩
        refine ⟨⟨fun hmem => hnot name hmem (by simp), hnd⟩, ?_⟩
        intro n hn
        rcases List.mem_cons.mp hn with rfl | hn
        · exact hseen
        · exact fun hs => hnot n hn (by simp [hs])
      · rintro ⟨⟨hname, hnd⟩, hnot⟩
        refine ⟨hnd, fun n hn hs => ?_⟩
        rcases List.mem_cons.mp hs with rfl | hs
        · exact hname hn
        · exact hnot n (by simp [hn]) hs

namespace Schema

variable {schema : Schema}

theorem validate_ok : schema.validate = .ok () ↔ schema.checkSizes = .ok () ∧
    checkModules [] schema.moduleNames = .ok () ∧ schema.checkNames = .ok () ∧
    (∀ r ∈ schema.reducers, schema.checkReducer r = .ok ()) ∧ schema.checkCycles = .ok () ∧
    ∀ mv ∈ schema.materializedViews, schema.checkView mv = .ok () := by
  rw [validate, seq_ok, seq_ok, seq_ok, seq_ok, seq_ok, forM_eq_ok, forM_eq_ok]

theorem checkNames_ok : schema.checkNames = .ok () ↔ schema.objectNames.Nodup ∧
    (∀ t ∈ schema.tables, (t.columns.map ColumnDef.name).Nodup) ∧
    ∀ r ∈ schema.reducers, (r.state.map StateField.name).Nodup := by
  rw [checkNames, seq_ok, seq_ok, forM_eq_ok, forM_eq_ok]
  simp only [unique_ok, List.not_mem_nil, not_false_eq_true, implies_true, and_true]

theorem checkReducer_ok {r : ReducerDef} : schema.checkReducer r = .ok () ↔
    schema.checkRequires r = .ok () ∧ schema.checkSource r = .ok () ∧
      schema.checkGroupBy r = .ok () := by
  rw [checkReducer, seq_ok, seq_ok]

theorem checkSource_ok {r : ReducerDef} : schema.checkSource r = .ok () ↔
    (r.source ∈ schema.tableNames ∨ r.source ∈ schema.reducerNames) ∧ r.source ≠ r.name := by
  rw [checkSource]
  split
  · next h =>
    constructor
    · intro heq
      cases heq
    · rintro ⟨hor, -⟩
      simp at h
      exact absurd hor (by simp [h.1, h.2])
  · next h =>
    rw [ite_error_ok]
    have hor : r.source ∈ schema.tableNames ∨ r.source ∈ schema.reducerNames := by
      simp at h
      by_cases ht : r.source ∈ schema.tableNames
      · exact .inl ht
      · exact .inr (h ht)
    exact ⟨fun hne => ⟨hor, hne⟩, fun hne => hne.2⟩

theorem checkView_ok {mv : MVDef} : schema.checkView mv = .ok () ↔
    schema.checkViewSource mv = .ok () ∧ schema.checkReadColumns mv = .ok () ∧
      schema.checkWindow mv = .ok () ∧ checkHasAggregate mv = .ok () ∧
      (mv.select.map SelectItem.outputName).Nodup ∧ mv.checkViewKeys = .ok () ∧
      schema.checkNumericAggregates mv = .ok () := by
  rw [checkView, seq_ok, seq_ok, seq_ok, seq_ok, seq_ok, seq_ok, unique_ok]
  simp

/-- The source of a view that passes is a table or a reducer. -/
theorem checkViewSource_mem {mv : MVDef} (h : schema.checkViewSource mv = .ok ()) :
    mv.source ∈ schema.tableNames ∨ mv.source ∈ schema.reducerNames := by
  rw [checkViewSource] at h
  split at h
  · cases h
  · next hn =>
    simp at hn
    by_cases ht : mv.source ∈ schema.tableNames
    · exact .inl ht
    · exact .inr (hn ht)

end Schema

end Settle
