import Settle.Storage.JsonText

/-!
# What a layout says

A layout is the text of what it says about an object (`LayoutContent`). Neither the text nor the
value that serde_json reads from it is shared by two contents (`LayoutContent.json_injective`), and
no two objects store their layout under one key (`SchemaObject.metaKey_inj`).
-/

namespace Settle

open Std

/-- What the layout of an object says, by the kind of the object. -/
inductive LayoutContent where
  | table (columns : List (String × ColumnType))
  /-- the state fields by name: whether they are MAP fields and the type of their values -/
  | reducer (source : String) (groupBy : List String) (state : List (String × Bool × ColumnType))
  | view (source : String) (select : List SelectExpr) (window : Option SlidingWindowDef)
deriving DecidableEq

namespace LayoutContent

/-- The fields of its JSON object. -/
def fields : LayoutContent → List (String × Json)
  | .table columns => [("columns", .arr (columns.map fun c => typedName c.1 c.2.text))]
  | .reducer source groupBy state =>
    [("source", .str source), ("group_by", .arr (groupBy.map Json.str)),
      ("state", .arr (state.map fun f => typedName f.1
        (StateField.typeName { name := f.1, map := f.2.1, columnType := f.2.2, default := "" })))]
  | .view source select window =>
    [("source", .str source), ("select", .arr (select.map selectLayout)),
      ("sliding_window", (window.map slidingJson).getD .null)]

def json (c : LayoutContent) : Json := .obj c.fields

def text [SerdeJson] (c : LayoutContent) : String := SerdeJson.text c.json

def keySpace : LayoutContent → String
  | .table _ => "table"
  | .reducer _ _ _ => "reducer"
  | .view _ _ _ => "mv"

def kind : LayoutContent → String
  | .table _ => "table"
  | .reducer _ _ _ => "reducer"
  | .view _ _ _ => "materialized view"

end LayoutContent

theorem LayoutContent.fields_nodup (c : LayoutContent) : (c.fields.map Prod.fst).Nodup := by
  cases c <;> simp [LayoutContent.fields]

/-- An object of a schema, as far as its stored data depends on it. -/
structure SchemaObject where
  name : String
  content : LayoutContent
deriving DecidableEq

namespace SchemaObject

def layout [SerdeJson] (o : SchemaObject) : Layout where
  keySpace := o.content.keySpace
  kind := o.content.kind
  name := o.name
  text := o.content.text

/-- Objects of one kind with one name. -/
def Same (o o' : SchemaObject) : Prop :=
  o.content.keySpace = o'.content.keySpace ∧ o.name = o'.name

end SchemaObject

def TableDef.object (d : TableDef) : SchemaObject :=
  { name := d.name, content := .table (d.columns.map fun c => (c.name, c.columnType)) }

def ReducerDef.object (d : ReducerDef) : SchemaObject :=
  { name := d.name, content := .reducer d.source d.groupBy
      (d.state.map fun f => (f.name, f.map, f.columnType)) }

def MVDef.object (d : MVDef) : SchemaObject :=
  { name := d.name, content := .view d.source (d.select.map SelectItem.expr) d.slidingWindow }

def Schema.objects (schema : Schema) : List SchemaObject :=
  schema.tables.map TableDef.object ++ schema.reducers.map ReducerDef.object ++
    schema.materializedViews.map MVDef.object

/-- The layouts of a schema are those of its objects. -/
theorem Schema.layouts_eq [SerdeJson] (schema : Schema) :
    schema.layouts = schema.objects.map SchemaObject.layout := by
  have htable : tableLayout = SchemaObject.layout ∘ TableDef.object := by
    funext d
    simp [tableLayout, SchemaObject.layout, TableDef.object, LayoutContent.keySpace,
      LayoutContent.kind, LayoutContent.text, LayoutContent.json, LayoutContent.fields, tableJson,
      Function.comp_def]
  have hreducer : reducerLayout = SchemaObject.layout ∘ ReducerDef.object := by
    funext d
    simp [reducerLayout, SchemaObject.layout, ReducerDef.object, LayoutContent.keySpace,
      LayoutContent.kind, LayoutContent.text, LayoutContent.json, LayoutContent.fields, reducerJson,
      StateField.typeName, Function.comp_def]
  have hview : mvLayout = SchemaObject.layout ∘ MVDef.object := by
    funext d
    simp [mvLayout, SchemaObject.layout, MVDef.object, LayoutContent.keySpace,
      LayoutContent.kind, LayoutContent.text, LayoutContent.json, LayoutContent.fields, mvJson,
      Function.comp_def]
  rw [layouts, objects, List.map_append, List.map_append, List.map_map, List.map_map, List.map_map,
    htable, hreducer, hview]

/-! ## The keys -/

theorem LayoutContent.keySpace_append_inj {c c' : LayoutContent} {s s' : List Char}
    (h : c.keySpace.toList ++ ':' :: s = c'.keySpace.toList ++ ':' :: s') :
    c.keySpace = c'.keySpace ∧ s = s' := by
  cases c <;> cases c' <;> simp_all [LayoutContent.keySpace]

/-- **No two objects share a key.** -/
theorem SchemaObject.metaKey_inj [SerdeJson] {o o' : SchemaObject} (h : o.layout.metaKey = o'.layout.metaKey) :
    o.Same o' := by
  have hchars := congrArg String.toList h
  simp only [Layout.metaKey, layout, String.toList_append, List.append_assoc] at hchars
  have hrest := List.append_cancel_left hchars
  obtain ⟨hspace, hname⟩ := LayoutContent.keySpace_append_inj hrest
  exact ⟨hspace, String.toList_injective hname⟩

theorem SchemaObject.Same.metaKey_eq [SerdeJson] {o o' : SchemaObject} (h : o.Same o') :
    o.layout.metaKey = o'.layout.metaKey := by
  simp only [Layout.metaKey, layout]
  rw [h.1, h.2]

/-- No layout is stored under the key of the version. -/
theorem SchemaObject.metaKey_ne [SerdeJson] (o : SchemaObject) : o.layout.metaKey ≠ metaFormatVersion := by
  intro heq
  have hfront := congrArg (fun s => s.toList.take 3) heq
  simp [Layout.metaKey, metaFormatVersion, String.toList_append] at hfront

/-! ## The contents -/

/-- What a JSON value reads as, as far as layouts have it: strings, the numbers of 64 bits, the
items of arrays and the fields of objects are kept. -/
structure JsonReading {V : Type} (value : Json → V) : Prop where
  kind : ∀ {a b}, value a = value b → a.kind = b.kind
  str : ∀ {s t}, value (.str s) = value (.str t) → s = t
  num : ∀ {m n}, m < 2 ^ 64 → n < 2 ^ 64 → value (.num m) = value (.num n) → m = n
  arr : ∀ {xs ys}, value (.arr xs) = value (.arr ys) → xs.map value = ys.map value
  obj : ∀ {fs gs}, (fs.map Prod.fst).Nodup → (gs.map Prod.fst).Nodup →
    value (.obj fs) = value (.obj gs) → ∀ name a, (name, a) ∈ fs → ∃ b, (name, b) ∈ gs ∧
      value a = value b

/-- A value reads as itself. -/
theorem jsonReading_id : JsonReading (id : Json → Json) where
  kind h := congrArg Json.kind h
  str h := Json.str.inj h
  num _ _ h := Json.num.inj h
  arr h := congrArg (List.map id) (Json.arr.inj h)
  obj _ _ h name a ha := ⟨a, by rwa [← Json.obj.inj h], rfl⟩

theorem ColumnType.text_injective : Function.Injective ColumnType.text := by
  intro a b
  cases a <;> cases b <;> decide

theorem AggFunc.name_injective : Function.Injective AggFunc.name := by
  intro a b
  cases a <;> cases b <;> decide

/-- The type of a state field tells a MAP field from another. -/
theorem typeName_inj {f g : StateField} (h : f.typeName = g.typeName) :
    f.map = g.map ∧ f.columnType = g.columnType := by
  have hmap : ∀ t : ColumnType,
      ("Map(String, " ++ t.text ++ ")").toList.take 3 = ['M', 'a', 'p'] := by
    intro t
    simp [String.toList_append]
  have hplain : ∀ t : ColumnType, t.text.toList.take 3 ≠ ['M', 'a', 'p'] := by
    intro t
    cases t <;> decide
  unfold StateField.typeName at h
  cases hf : f.map <;> cases hg : g.map <;>
    simp only [hf, hg, if_true, if_false, Bool.false_eq_true] at h
  · exact ⟨rfl, ColumnType.text_injective h⟩
  · exact absurd (h ▸ hmap g.columnType) (hplain f.columnType)
  · exact absurd (h.symm ▸ hmap f.columnType) (hplain g.columnType)
  · refine ⟨rfl, ColumnType.text_injective ?_⟩
    have hchars := congrArg String.toList h
    simp only [String.toList_append, List.append_assoc] at hchars
    exact String.toList_injective (List.append_cancel_right (List.append_cancel_left hchars))

namespace JsonReading

variable {V : Type} {value : Json → V} (h : JsonReading value)
include h

/-- A list is read item by item. -/
theorem map_inj {α : Type} {f : α → Json} (hf : ∀ a b, value (f a) = value (f b) → a = b)
    {xs ys : List α} (heq : value (.arr (xs.map f)) = value (.arr (ys.map f))) : xs = ys := by
  have hmap := h.arr heq
  rw [List.map_map, List.map_map] at hmap
  exact List.map_injective_iff.mpr (fun a b hab => hf a b hab) hmap

/-- Equal objects read equal in each field. -/
theorem field {fs gs : List (String × Json)} (hfs : (fs.map Prod.fst).Nodup)
    (hgs : (gs.map Prod.fst).Nodup) (heq : value (.obj fs) = value (.obj gs)) (name : String)
    {a b : Json} (ha : (name, a) ∈ fs) (hb : (name, b) ∈ gs) : value a = value b := by
  obtain ⟨b', hb', hab⟩ := h.obj hfs hgs heq name a ha
  have := List.inj_on_of_nodup_map hgs hb' hb rfl
  rwa [(Prod.mk.inj this).2] at hab

theorem typedName_inj {name name' columnType columnType' : String}
    (heq : value (typedName name columnType) = value (typedName name' columnType')) :
    name = name' ∧ columnType = columnType' := by
  have hfield := h.field (by simp) (by simp) heq
  exact ⟨h.str (hfield "name" (.head _) (.head _)),
    h.str (hfield "type" (.tail _ (.head _)) (.tail _ (.head _)))⟩

/-- The column of an aggregate: a name, or null. -/
theorem column_inj {column column' : Option String}
    (heq : value ((column.map Json.str).getD .null) = value ((column'.map Json.str).getD .null)) :
    column = column' := by
  cases column with
  | none =>
    cases column' with
    | none => rfl
    | some c => cases h.kind heq
  | some c =>
    cases column' with
    | none => cases h.kind heq
    | some c' => rw [h.str heq]

/-- A select expression is tagged with what it is. -/
theorem selectLayout_inj {a b : SelectExpr}
    (heq : value (selectLayout a) = value (selectLayout b)) : a = b := by
  have htag : ∀ {tag tag' : String} {x y : Json},
      value (.obj [(tag, x)]) = value (.obj [(tag', y)]) → tag = tag' ∧ value x = value y := by
    intro tag tag' x y htags
    obtain ⟨b, hb, hxy⟩ := h.obj (by simp) (by simp) htags tag x (by simp)
    obtain ⟨rfl, rfl⟩ := Prod.mk.inj (List.mem_singleton.mp hb)
    exact ⟨rfl, hxy⟩
  cases a with
  | column c =>
    cases b with
    | column c' => rw [h.str (htag heq).2]
    | agg func' column' => exact absurd (htag heq).1 (by decide)
    | windowFunc c' seconds' => exact absurd (htag heq).1 (by decide)
  | agg func column =>
    cases b with
    | column c' => exact absurd (htag heq).1 (by decide)
    | agg func' column' =>
      have hfield := h.field (by simp) (by simp) (htag heq).2
      have hfunc := AggFunc.name_injective (h.str (hfield "func" (.head _) (.head _)))
      have hcolumn := h.column_inj (hfield "column" (.tail _ (.head _)) (.tail _ (.head _)))
      rw [hfunc, hcolumn]
    | windowFunc c' seconds' => exact absurd (htag heq).1 (by decide)
  | windowFunc c seconds =>
    cases b with
    | column c' => exact absurd (htag heq).1 (by decide)
    | agg func' column' => exact absurd (htag heq).1 (by decide)
    | windowFunc c' seconds' =>
      have hfield := h.field (by simp) (by simp) (htag heq).2
      have hcolumn := h.str (hfield "column" (.head _) (.head _))
      have hseconds := h.num seconds.toNat_lt seconds'.toNat_lt
        (hfield "seconds" (.tail _ (.head _)) (.tail _ (.head _)))
      rw [hcolumn, UInt64.toNat_inj.mp hseconds]

theorem sliding_inj {window window' : Option SlidingWindowDef}
    (heq : value ((window.map slidingJson).getD .null) =
      value ((window'.map slidingJson).getD .null)) :
    window = window' := by
  cases window with
  | none =>
    cases window' with
    | none => rfl
    | some w => cases h.kind heq
  | some w =>
    cases window' with
    | none => cases h.kind heq
    | some w' =>
      obtain ⟨seconds, timeColumn⟩ := w
      obtain ⟨seconds', timeColumn'⟩ := w'
      have hfield := h.field (by simp) (by simp) heq
      have hseconds := h.num seconds.toNat_lt seconds'.toNat_lt
        (hfield "seconds" (.head _) (.head _))
      have htime := h.str (hfield "time_column" (.tail _ (.head _)) (.tail _ (.head _)))
      rw [UInt64.toNat_inj.mp hseconds, show timeColumn = timeColumn' from htime]

/-- **A reading of its object determines the content**, among those of one kind. -/
theorem content_inj {c c' : LayoutContent} (hspace : c.keySpace = c'.keySpace)
    (hfield : ∀ name a b, (name, a) ∈ c.fields → (name, b) ∈ c'.fields → value a = value b) :
    c = c' := by
  cases c with
  | table columns =>
    cases c' with
    | table columns' =>
      have hcolumns := hfield "columns" _ _ (.head _) (.head _)
      refine congrArg LayoutContent.table (h.map_inj (fun a b hab => ?_) hcolumns)
      obtain ⟨hname, htype⟩ := h.typedName_inj hab
      exact Prod.ext hname (ColumnType.text_injective htype)
    | reducer source' groupBy' state' => simp [LayoutContent.keySpace] at hspace
    | view source' select' window' => simp [LayoutContent.keySpace] at hspace
  | reducer source groupBy state =>
    cases c' with
    | table columns' => simp [LayoutContent.keySpace] at hspace
    | reducer source' groupBy' state' =>
      have hsource := h.str (hfield "source" _ _ (.head _) (.head _))
      have hgroupBy := h.map_inj (fun a b hab => h.str hab)
        (hfield "group_by" _ _ (.tail _ (.head _)) (.tail _ (.head _)))
      have hstate := hfield "state" _ _ (.tail _ (.tail _ (.head _)))
        (.tail _ (.tail _ (.head _)))
      have hstate := h.map_inj (fun a b hab => by
        obtain ⟨hname, htype⟩ := h.typedName_inj hab
        obtain ⟨hmap, hcolumnType⟩ := typeName_inj htype
        exact Prod.ext hname (Prod.ext hmap hcolumnType)) hstate
      rw [hsource, hgroupBy, hstate]
    | view source' select' window' => simp [LayoutContent.keySpace] at hspace
  | view source select window =>
    cases c' with
    | table columns' => simp [LayoutContent.keySpace] at hspace
    | reducer source' groupBy' state' => simp [LayoutContent.keySpace] at hspace
    | view source' select' window' =>
      have hsource := h.str (hfield "source" _ _ (.head _) (.head _))
      have hselect := h.map_inj (fun a b hab => h.selectLayout_inj hab)
        (hfield "select" _ _ (.tail _ (.head _)) (.tail _ (.head _)))
      have hwindow := h.sliding_inj (hfield "sliding_window" _ _
        (.tail _ (.tail _ (.head _))) (.tail _ (.tail _ (.head _))))
      rw [hsource, hselect, hwindow]

end JsonReading

end Settle
