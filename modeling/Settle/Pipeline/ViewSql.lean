import Settle.Schema.ViewKeys

/-!
# The views of the pipeline builder

`view_to_sql` of `src/pipeline/codegen.rs`, with the option types of `src/pipeline/ddl.rs`. The
text is written from the statement that it states: its select items, its GROUP BY list and its
window.

GROUP BY names an interval key by its names in the select list, and `check_view_keys` reads a name
as a source column before it reads it as an output name. The statement therefore denotes what was
built unless an interval key is selected under the name of a GROUP BY column (`view_denotes_iff`).
-/

namespace Settle

open Std

/-! ## Durations -/

/-- `char::is_whitespace`: the Unicode property White_Space. -/
def isWhitespace (c : Char) : Bool :=
  let n := c.toNat
  (9 ≤ n && n ≤ 13) || n == 0x20 || n == 0x85 || n == 0xa0 || n == 0x1680 ||
    (0x2000 ≤ n && n ≤ 0x200a) || n == 0x2028 || n == 0x2029 || n == 0x202f || n == 0x205f ||
    n == 0x3000

/-- `str::trim`. -/
def trimChars (cs : List Char) : List Char :=
  ((cs.dropWhile isWhitespace).reverse.dropWhile isWhitespace).reverse

def isAsciiDigit (c : Char) : Bool := '0' ≤ c && c ≤ '9'

/-- The number that decimal digits write. -/
def digitsValue (cs : List Char) : Nat := cs.foldl (fun n c => n * 10 + (c.toNat - 48)) 0

/-- `to_ascii_lowercase`. -/
def asciiLower (c : Char) : Char := if 'A' ≤ c && c ≤ 'Z' then Char.ofNat (c.toNat + 32) else c

/-- The seconds of a duration unit. -/
def unitSeconds : String → Option Nat
  | "s" | "sec" | "second" | "seconds" => some 1
  | "m" | "min" | "minute" | "minutes" => some 60
  | "h" | "hr" | "hour" | "hours" => some 3600
  | "d" | "day" | "days" => some 86400
  | _ => none

/-- `parse_duration`. -/
def parseDuration (s : String) : Except String UInt64 :=
  let trimmed := trimChars s.toList
  let num := trimmed.takeWhile isAsciiDigit
  let rest := trimmed.dropWhile isAsciiDigit
  if rest.isEmpty || num.isEmpty || 2 ^ 64 ≤ digitsValue num then
    .error ("invalid duration: '" ++ s ++ "'")
  else
    let unit := String.ofList ((trimChars rest).map asciiLower)
    match unitSeconds unit with
    | none => .error ("unknown duration unit: '" ++ unit ++ "'")
    | some mult =>
      if 2 ^ 64 ≤ digitsValue num * mult then .error ("duration overflows: '" ++ s ++ "'")
      else .ok (UInt64.ofNat (digitsValue num * mult))

/-! ## The options of a view -/

structure IntervalExpr where
  column : String
  seconds : UInt64
  aliasName : Option String
  /-- why the duration does not parse -/
  error : Option String

inductive GroupByItem where
  | column (name : String)
  | interval (i : IntervalExpr)

inductive Projection where
  | agg (func : AggFunc) (column : Option String)
  | key (column : String)

structure SlidingWindowOptions where
  interval : String
  timeColumn : String

structure ViewSpec where
  name : String
  source : String
  groupBy : List GroupByItem
  slidingWindow : Option SlidingWindowOptions
  projections : List (String × Projection)

/-- The name by which key projections select the item. -/
def GroupByItem.name : GroupByItem → String
  | .column c => c
  | .interval i => i.aliasName.getD (i.column ++ "_interval")

namespace ViewSpec

variable (v : ViewSpec)

/-! ## The statement -/

/-- An interval is found by the name of its item. -/
def addInterval (defs : FxHashMap String IntervalExpr) :
    GroupByItem → FxHashMap String IntervalExpr
  | .column _ => defs
  | .interval i => defs.insert (GroupByItem.interval i).name i

def intervalDefs : FxHashMap String IntervalExpr := v.groupBy.foldl addInterval ∅

/-- The select item of a projection. -/
def selectItem : String × Projection → SelectItem
  | (output, .key column) =>
    match v.intervalDefs[column]? with
    | some i => ⟨.windowFunc i.column i.seconds, some output⟩
    | none => if output = column then ⟨.column column, none⟩ else ⟨.column column, some output⟩
  | (output, .agg func column) => ⟨.agg func column, some output⟩

/-- The key projections: their output names and the items that they select. -/
def keys : List (String × String) :=
  v.projections.filterMap fun (output, p) =>
    match p with
    | .key column => some (output, column)
    | .agg _ _ => none

/-- GROUP BY names an interval key by each of its names in the select list. -/
def groupByNames (col : String) : List String :=
  let names := (v.keys.filter fun key => key.2 == col).map Prod.fst
  if v.intervalDefs.contains col && !names.isEmpty then names else [col]

/-- The first error of an interval. -/
def intervalError : List GroupByItem → Except String Unit
  | [] => .ok ()
  | .column _ :: rest => intervalError rest
  | .interval i :: rest =>
    match i.error with
    | some e => .error ("view '" ++ v.name ++ "': interval(): " ++ e)
    | none => intervalError rest

/-- What the statement of a view states. -/
def statement : Except String MVDef := do
  v.intervalError v.groupBy
  let window ← match v.slidingWindow with
    | none => .ok none
    | some sw => do
      let seconds ← parseDuration sw.interval
      .ok (some { intervalSeconds := seconds, timeColumn := sw.timeColumn })
  .ok {
    name := v.name
    source := v.source
    select := v.projections.map v.selectItem
    groupBy := (v.groupBy.map GroupByItem.name).flatMap v.groupByNames
    slidingWindow := window }

end ViewSpec

/-! ## Its text -/

def SelectExpr.sql : SelectExpr → String
  | .column c => c
  | .windowFunc c seconds =>
    "toStartOfInterval(" ++ c ++ ", INTERVAL " ++ toString seconds.toNat ++ " SECOND)"
  | .agg func (some c) => func.name ++ "(" ++ c ++ ")"
  | .agg func none => func.name ++ "()"

def SelectItem.sql (item : SelectItem) : String :=
  match item.aliasName with
  | none => item.expr.sql
  | some a => item.expr.sql ++ " AS " ++ a

def MVDef.sql (d : MVDef) : String :=
  "CREATE MATERIALIZED VIEW " ++ d.name ++ " AS SELECT " ++
    ", ".intercalate (d.select.map SelectItem.sql) ++ " FROM " ++ d.source ++ " GROUP BY " ++
    ", ".intercalate d.groupBy ++
    (match d.slidingWindow with
    | some w =>
      " WINDOW SLIDING INTERVAL " ++ toString w.intervalSeconds.toNat ++ " SECOND BY " ++
        w.timeColumn
    | none => "") ++ ";"

/-- `view_to_sql`. -/
def viewToSql (v : ViewSpec) : Except String String := v.statement.map MVDef.sql

/-! ## What a view means -/

/-- The key that the item is. -/
def GroupByItem.expr : GroupByItem → SelectExpr
  | .column c => .column c
  | .interval i => .windowFunc i.column i.seconds

namespace ViewSpec

/-- A spec with GROUP BY items of distinct names that its key projections select, each of them and
nothing else, with distinct output names, an aggregate, and valid durations. -/
structure Valid (v : ViewSpec) : Prop where
  items : (v.groupBy.map GroupByItem.name).Nodup
  outputs : (v.projections.map Prod.fst).Nodup
  selects : ∀ key ∈ v.keys, key.2 ∈ v.groupBy.map GroupByItem.name
  selected : ∀ item ∈ v.groupBy, ∃ key ∈ v.keys, key.2 = item.name
  aggregate : ∃ p ∈ v.projections, ∃ func column, p.2 = .agg func column
  intervals : ∀ i, .interval i ∈ v.groupBy → i.error = none ∧ 0 < i.seconds
  window : ∀ sw, v.slidingWindow = some sw →
    ∃ seconds, parseDuration sw.interval = .ok seconds ∧ 0 < seconds

/-- An interval key is selected under the name of a GROUP BY column. -/
def Clash (v : ViewSpec) : Prop :=
  ∃ key ∈ v.keys, .column key.1 ∈ v.groupBy ∧ ∃ i, .interval i ∈ v.groupBy ∧
    (GroupByItem.interval i).name = key.2

/-- What a projection means: the aggregate, or the item that it selects. -/
def Meaning (v : ViewSpec) (p : Projection) (expr : SelectExpr) : Prop :=
  match p with
  | .agg func column => expr = .agg func column
  | .key column => ∃ item ∈ v.groupBy, item.name = column ∧ expr = item.expr

/-- The window of the spec, with its duration. -/
def StatedWindow (v : ViewSpec) (window : Option SlidingWindowDef) : Prop :=
  window = none ∧ v.slidingWindow = none ∨
    ∃ sw seconds, v.slidingWindow = some sw ∧ parseDuration sw.interval = .ok seconds ∧
      window = some { intervalSeconds := seconds, timeColumn := sw.timeColumn }

/-- A definition that denotes what was built. -/
structure Denotes (v : ViewSpec) (d : MVDef) : Prop where
  source : d.name = v.name ∧ d.source = v.source
  /-- each select item has the output name and the meaning of its projection -/
  select : List.Forall₂ (fun p item => item.outputName = p.1 ∧ v.Meaning p.2 item.expr)
    v.projections d.select
  /-- the GROUP BY entries name the items in order, each as often as it is selected -/
  groupBy : (d.groupBy.flatMap (MVDef.entryItems d.keyItems)).filterMap
      (fun i => d.keyItems[i]?.map SelectItem.expr)
    = v.groupBy.flatMap fun item =>
      List.replicate (v.keys.filter (·.2 == item.name)).length item.expr
  window : v.StatedWindow d.slidingWindow

variable {v : ViewSpec}

/-! ## The items by name -/

theorem foldl_addInterval (items : List GroupByItem) (h : (items.map GroupByItem.name).Nodup)
    (defs : FxHashMap String IntervalExpr) :
    (∀ i, .interval i ∈ items →
      (items.foldl addInterval defs)[(GroupByItem.interval i).name]? = some i) ∧
    ∀ n, (∀ i, .interval i ∈ items → (GroupByItem.interval i).name ≠ n) →
      (items.foldl addInterval defs)[n]? = defs[n]? := by
  induction items generalizing defs with
  | nil => exact ⟨by simp, fun _ _ => rfl⟩
  | cons item items ih =>
    rw [List.map_cons, List.nodup_cons] at h
    obtain ⟨hin, hout⟩ := ih h.2 (addInterval defs item)
    refine ⟨fun i hi => ?_, fun n hn => ?_⟩
    · rw [List.foldl_cons]
      rcases List.mem_cons.mp hi with rfl | hi
      · rw [hout]
        · simp [addInterval]
        · intro i' hi' heq
          exact h.1 (List.mem_map.mpr ⟨.interval i', hi', heq⟩)
      · exact hin i hi
    · rw [List.foldl_cons, hout n fun i hi => hn i (by simp [hi])]
      cases item with
      | column c => rfl
      | interval i =>
        have hne := hn i (by simp)
        rw [addInterval, ExtTreeMap.getElem?_insert]
        exact if_neg fun heq => hne (LawfulEqCmp.eq_of_compare heq)

theorem intervalDefs_interval (h : v.Valid) {i : IntervalExpr} (hi : .interval i ∈ v.groupBy) :
    v.intervalDefs[(GroupByItem.interval i).name]? = some i :=
  (foldl_addInterval v.groupBy h.items ∅).1 i hi

theorem item_unique (h : v.Valid) {a b : GroupByItem} (ha : a ∈ v.groupBy) (hb : b ∈ v.groupBy)
    (heq : a.name = b.name) : a = b :=
  List.inj_on_of_nodup_map h.items ha hb heq

theorem intervalDefs_column (h : v.Valid) {c : String} (hc : .column c ∈ v.groupBy) :
    v.intervalDefs[c]? = none := by
  refine ((foldl_addInterval v.groupBy h.items ∅).2 c fun i hi heq => ?_).trans (by simp)
  have := item_unique h hi hc heq
  cases this

/-- The select item of a key: the item that it selects, under its output name. -/
theorem selectItem_key (h : v.Valid) {item : GroupByItem} (hitem : item ∈ v.groupBy)
    (output : String) : (v.selectItem (output, .key item.name)).outputName = output ∧
      (v.selectItem (output, .key item.name)).expr = item.expr := by
  rw [selectItem]
  cases item with
  | column c =>
    rw [show (GroupByItem.column c).name = c from rfl, intervalDefs_column h hitem]
    dsimp only
    split
    · next heq => exact ⟨heq.symm, rfl⟩
    · exact ⟨rfl, rfl⟩
  | interval i =>
    rw [intervalDefs_interval h hitem]
    exact ⟨rfl, rfl⟩

/-! ## The key items -/

/-- The select item of a key. -/
def keyItem (v : ViewSpec) (key : String × String) : SelectItem :=
  v.selectItem (key.1, .key key.2)

theorem keyItem_spec (h : v.Valid) {key : String × String} (hkey : key ∈ v.keys) :
    ∃ item ∈ v.groupBy, item.name = key.2 ∧ (v.keyItem key).outputName = key.1 ∧
      (v.keyItem key).expr = item.expr := by
  obtain ⟨item, hitem, hname⟩ := List.mem_map.mp (h.selects key hkey)
  have hspec := selectItem_key h hitem key.1
  rw [hname] at hspec
  exact ⟨item, hitem, hname, hspec⟩

theorem filter_selectItem (projections : List (String × Projection)) :
    (projections.map v.selectItem).filter (fun item =>
      match item.expr with
      | .agg _ _ => false
      | _ => true)
    = (projections.filterMap fun (output, p) =>
        match p with
        | .key column => some (output, column)
        | .agg _ _ => none).map v.keyItem := by
  induction projections with
  | nil => rfl
  | cons p rest ih =>
    obtain ⟨output, p⟩ := p
    cases p with
    | agg func column =>
      rw [List.map_cons, List.filter_cons_of_neg (by simp [selectItem]), ih]
      rfl
    | key column =>
      rw [List.map_cons, List.filter_cons_of_pos, ih]
      · rfl
      · rw [selectItem]
        cases v.intervalDefs[column]? with
        | some i => rfl
        | none =>
          by_cases heq : output = column
          · simp [heq]
          · simp [heq]

/-- The positions of the key items that select an item. -/
def keyIndexes (v : ViewSpec) (name : String) : List Nat :=
  (List.range v.keys.length).filter fun i => (v.keys[i]?.map Prod.snd) = some name

theorem mem_keyIndexes {name : String} {i : Nat} :
    i ∈ v.keyIndexes name ↔ ∃ key, v.keys[i]? = some key ∧ key.2 = name := by
  rw [keyIndexes, List.mem_filter, List.mem_range]
  constructor
  · rintro ⟨-, h⟩
    obtain ⟨key, hkey, hname⟩ := Option.map_eq_some_iff.mp (of_decide_eq_true h)
    exact ⟨key, hkey, hname⟩
  · rintro ⟨key, hkey, rfl⟩
    exact ⟨(List.getElem?_eq_some_iff.mp hkey).1, by simp [hkey]⟩

/-- The key items that read a column. -/
theorem reads_iff (h : v.Valid) {i : Nat} {entry : String} :
    ((v.keys.map v.keyItem)[i]?.map SelectItem.expr) = some (.column entry) ↔
      i ∈ v.keyIndexes entry ∧ .column entry ∈ v.groupBy := by
  rw [mem_keyIndexes, List.getElem?_map, Option.map_map]
  constructor
  · intro hread
    obtain ⟨key, hkey, hexpr⟩ := Option.map_eq_some_iff.mp hread
    obtain ⟨item, hitem, hname, -, heq⟩ := keyItem_spec h (List.mem_of_getElem? hkey)
    have hcolumn : item.expr = .column entry := heq.symm.trans hexpr
    cases item with
    | column c =>
      obtain rfl : c = entry := by injection hcolumn
      exact ⟨⟨key, hkey, hname.symm⟩, hitem⟩
    | interval i => cases hcolumn
  · rintro ⟨⟨key, hkey, rfl⟩, hcolumn⟩
    obtain ⟨item, hitem, hname, -, heq⟩ := keyItem_spec h (List.mem_of_getElem? hkey)
    obtain rfl := item_unique h hitem hcolumn hname
    rw [hkey]
    exact congrArg some heq

/-- A GROUP BY column names each key item that selects it. -/
theorem entryItems_column (h : v.Valid) {c : String} (hc : .column c ∈ v.groupBy) :
    MVDef.entryItems (v.keys.map v.keyItem) c = v.keyIndexes c := by
  have hreading : ((List.range (v.keys.map v.keyItem).length).filter fun i =>
      decide (((v.keys.map v.keyItem)[i]?.map SelectItem.expr) = some (.column c)))
        = v.keyIndexes c := by
    rw [keyIndexes, List.length_map]
    apply List.filter_congr
    intro i hi
    rw [decide_eq_decide, reads_iff h, mem_keyIndexes]
    constructor
    · rintro ⟨⟨key, hkey, rfl⟩, -⟩
      rw [hkey]
      rfl
    · intro hname
      obtain ⟨key, hkey, hname⟩ := Option.map_eq_some_iff.mp hname
      exact ⟨⟨key, hkey, hname⟩, hc⟩
  rw [MVDef.entryItems, hreading]
  obtain ⟨key, hkey, hname⟩ := h.selected (.column c) hc
  obtain ⟨i, hi, hget⟩ := List.getElem_of_mem hkey
  have hmem : i ∈ v.keyIndexes c :=
    mem_keyIndexes.mpr ⟨key, by rw [List.getElem?_eq_getElem hi, hget], hname⟩
  rw [if_neg]
  simpa using List.ne_nil_of_mem hmem

/-- Another output name names its key item. -/
theorem entryItems_output (h : v.Valid) (hkeys : (v.keys.map Prod.fst).Nodup) {i : Nat}
    {key : String × String} (hkey : v.keys[i]? = some key) (hc : .column key.1 ∉ v.groupBy) :
    MVDef.entryItems (v.keys.map v.keyItem) key.1 = [i] := by
  have hreading : ((List.range (v.keys.map v.keyItem).length).filter fun i =>
      decide (((v.keys.map v.keyItem)[i]?.map SelectItem.expr) = some (.column key.1))) = [] := by
    rw [List.filter_eq_nil_iff]
    intro j _ hread
    exact hc ((reads_iff h).mp (of_decide_eq_true hread)).2
  have hfind : (v.keys.map v.keyItem).findIdx? (fun item => item.outputName == key.1) = some i := by
    have hi := (List.getElem?_eq_some_iff.mp hkey).1
    have hout : ∀ j (hj : j < v.keys.length), (v.keyItem v.keys[j]).outputName = v.keys[j].1 :=
      fun j hj => by
        obtain ⟨item, -, -, hname, -⟩ := keyItem_spec h (List.getElem_mem hj)
        exact hname
    have hgetKey : v.keys[i] = key := (List.getElem?_eq_some_iff.mp hkey).2
    rw [List.findIdx?_eq_some_iff_getElem]
    refine ⟨by simpa using hi, ?_, ?_⟩
    · rw [List.getElem_map, hout i hi, hgetKey]
      exact beq_self_eq_true _
    · intro j hj
      rw [List.getElem_map, hout j (by omega)]
      intro heq
      have heq : v.keys[j].1 = v.keys[i].1 := by
        rw [hgetKey]
        simpa using heq
      have hj' : j < (v.keys.map Prod.fst).length := by
        rw [List.length_map]
        omega
      have hi' : i < (v.keys.map Prod.fst).length := by simpa using hi
      have := (@List.Nodup.getElem_inj_iff _ _ hkeys j hj' i hi').mp (by simpa using heq)
      omega
  rw [MVDef.entryItems, hreading, hfind]
  rfl

/-! ## The GROUP BY entries -/

/-- The positions of an item are those of its keys. -/
theorem filterMap_keyIndexes (name : String) :
    (v.keyIndexes name).filterMap (v.keys[·]?) = v.keys.filter (·.2 == name) := by
  have hall : (List.range v.keys.length).filterMap (v.keys[·]?) = v.keys := by
    have hmap : (List.range v.keys.length).map (v.keys[·]?) = v.keys.map some := by
      apply List.ext_getElem
      · simp
      · intro i hi _
        simp only [List.length_map, List.length_range] at hi
        simp [hi]
    calc (List.range v.keys.length).filterMap (v.keys[·]?)
      _ = ((List.range v.keys.length).map (v.keys[·]?)).filterMap id := by
          rw [List.filterMap_map]
          rfl
      _ = v.keys := by
          rw [hmap, List.filterMap_map]
          exact List.filterMap_some
  rw [keyIndexes, List.filterMap_filter]
  conv_rhs => rw [← hall, List.filter_filterMap]
  apply List.filterMap_congr
  intro i _
  cases hkey : v.keys[i]? with
  | none => simp
  | some key =>
    by_cases hname : key.2 = name
    · simp [hname, Option.filter]
    · simp [hname, Option.filter]

theorem groupByNames_column (h : v.Valid) {c : String} (hc : .column c ∈ v.groupBy) :
    v.groupByNames c = [c] := by
  have hcontains : v.intervalDefs.contains c = false := by
    rw [ExtTreeMap.contains_eq_isSome_getElem?, intervalDefs_column h hc]
    rfl
  rw [groupByNames, hcontains]
  rfl

theorem groupByNames_interval (h : v.Valid) {i : IntervalExpr} (hi : .interval i ∈ v.groupBy) :
    v.groupByNames (GroupByItem.interval i).name =
      (v.keys.filter (·.2 == (GroupByItem.interval i).name)).map Prod.fst := by
  have hcontains : v.intervalDefs.contains (GroupByItem.interval i).name = true := by
    rw [ExtTreeMap.contains_eq_isSome_getElem?, intervalDefs_interval h hi]
    rfl
  obtain ⟨key, hkey, hname⟩ := h.selected _ hi
  have hne :
      ((v.keys.filter (·.2 == (GroupByItem.interval i).name)).map Prod.fst).isEmpty = false := by
    rw [List.isEmpty_eq_false_iff]
    exact List.ne_nil_of_mem (List.mem_map_of_mem
      (List.mem_filter.mpr ⟨hkey, beq_iff_eq.mpr hname⟩))
  rw [groupByNames, hcontains, hne]
  rfl

theorem keys_nodup (h : v.Valid) : (v.keys.map Prod.fst).Nodup := by
  have hsub : (v.keys.map Prod.fst).Sublist (v.projections.map Prod.fst) := by
    rw [keys]
    generalize v.projections = projections
    induction projections with
    | nil => exact List.Sublist.slnil
    | cons p rest ih =>
      obtain ⟨output, p⟩ := p
      cases p with
      | agg func column => exact ih.cons output
      | key column => exact ih.cons_cons output
  exact h.outputs.sublist hsub

/-- **The entries of an item name its key items**, unless one is read as a column. -/
theorem flatMap_groupByNames (h : v.Valid) (hkeys : (v.keys.map Prod.fst).Nodup)
    (hclash : ¬ v.Clash) {item : GroupByItem} (hitem : item ∈ v.groupBy) :
    (v.groupByNames item.name).flatMap (MVDef.entryItems (v.keys.map v.keyItem)) =
      v.keyIndexes item.name := by
  cases item with
  | column c =>
    rw [show (GroupByItem.column c).name = c from rfl, groupByNames_column h hitem,
      List.flatMap_singleton, entryItems_column h hitem]
  | interval i =>
    rw [groupByNames_interval h hitem, ← filterMap_keyIndexes, List.flatMap_map]
    have hread : ∀ indexes : List Nat,
        (∀ j ∈ indexes, j ∈ v.keyIndexes (GroupByItem.interval i).name) →
        (indexes.filterMap (v.keys[·]?)).flatMap
          (fun key => MVDef.entryItems (v.keys.map v.keyItem) key.1) = indexes := by
      intro indexes hmem
      induction indexes with
      | nil => rfl
      | cons j indexes ih =>
        obtain ⟨key, hkey, hname⟩ := mem_keyIndexes.mp (hmem j (by simp))
        have hcolumn : .column key.1 ∉ v.groupBy := fun hc =>
          hclash ⟨key, List.mem_of_getElem? hkey, hc, i, hitem, hname.symm⟩
        rw [List.filterMap_cons_some hkey, List.flatMap_cons,
          entryItems_output h hkeys hkey hcolumn, ih fun j hj => hmem j (by simp [hj])]
        rfl
    exact hread _ fun _ hj => hj

/-- Every entry names a key item. -/
theorem entryItems_ne_nil (h : v.Valid) (hclash : ¬ v.Clash) {item : GroupByItem}
    (hitem : item ∈ v.groupBy) {entry : String} (hentry : entry ∈ v.groupByNames item.name) :
    MVDef.entryItems (v.keys.map v.keyItem) entry ≠ [] := by
  cases item with
  | column c =>
    rw [show (GroupByItem.column c).name = c from rfl, groupByNames_column h hitem,
      List.mem_singleton] at hentry
    subst hentry
    obtain ⟨key, hkey, hname⟩ := h.selected _ hitem
    obtain ⟨j, hj⟩ := List.getElem?_of_mem hkey
    rw [entryItems_column h hitem]
    exact List.ne_nil_of_mem (mem_keyIndexes.mpr ⟨key, hj, hname⟩)
  | interval i =>
    rw [groupByNames_interval h hitem] at hentry
    obtain ⟨key, hkey, rfl⟩ := List.mem_map.mp hentry
    obtain ⟨hkey, hname⟩ := List.mem_filter.mp hkey
    obtain ⟨j, hj⟩ := List.getElem?_of_mem hkey
    have hcolumn : .column key.1 ∉ v.groupBy := fun hc =>
      hclash ⟨key, hkey, hc, i, hitem, (beq_iff_eq.mp hname).symm⟩
    rw [entryItems_output h (keys_nodup h) hj hcolumn]
    exact List.cons_ne_nil j []

/-- Together the positions of the items are those of the keys, each once. -/
theorem flatMap_keyIndexes (h : v.Valid) :
    ((v.groupBy.map GroupByItem.name).flatMap v.keyIndexes).Nodup ∧
      ∀ i < v.keys.length, i ∈ (v.groupBy.map GroupByItem.name).flatMap v.keyIndexes := by
  refine ⟨?_, fun i hi => ?_⟩
  · rw [List.nodup_flatMap]
    refine ⟨fun name _ => List.Nodup.filter _ List.nodup_range, ?_⟩
    refine h.items.imp fun {a b} hne => ?_
    intro i ha hb
    obtain ⟨key, hkey, rfl⟩ := mem_keyIndexes.mp ha
    obtain ⟨key', hkey', rfl⟩ := mem_keyIndexes.mp hb
    rw [hkey, Option.some.injEq] at hkey'
    exact hne (congrArg Prod.snd hkey')
  · have hmem : v.keys[i] ∈ v.keys := List.getElem_mem hi
    exact List.mem_flatMap.mpr ⟨v.keys[i].2, h.selects _ hmem,
      mem_keyIndexes.mpr ⟨v.keys[i], List.getElem?_eq_getElem hi, rfl⟩⟩

/-! ## The statement of a view -/

theorem intervalError_ok {items : List GroupByItem}
    (h : ∀ i, .interval i ∈ items → i.error = none) : v.intervalError items = .ok () := by
  induction items with
  | nil => rfl
  | cons item rest ih =>
    have hrest := ih fun i hi => h i (by simp [hi])
    cases item with
    | column c => exact hrest
    | interval i =>
      rw [intervalError, h i (by simp)]
      exact hrest

/-- A valid spec has a statement. -/
theorem statement_ok (h : v.Valid) : ∃ d, v.statement = .ok d ∧ d.name = v.name ∧
    d.source = v.source ∧ d.select = v.projections.map v.selectItem ∧
    d.groupBy = (v.groupBy.map GroupByItem.name).flatMap v.groupByNames ∧
    v.StatedWindow d.slidingWindow := by
  rw [statement, intervalError_ok fun i hi => (h.intervals i hi).1]
  cases hwindow : v.slidingWindow with
  | none => exact ⟨_, rfl, rfl, rfl, rfl, rfl, .inl ⟨rfl, hwindow⟩⟩
  | some sw =>
    obtain ⟨seconds, hparse, -⟩ := h.window sw hwindow
    dsimp only
    rw [hparse]
    exact ⟨_, rfl, rfl, rfl, rfl, rfl, .inr ⟨sw, seconds, hwindow, hparse, rfl⟩⟩

/-- Each select item has the name and the meaning of its projection. -/
theorem select_denotes (h : v.Valid) :
    List.Forall₂ (fun p item => item.outputName = p.1 ∧ v.Meaning p.2 item.expr)
      v.projections (v.projections.map v.selectItem) := by
  rw [List.forall₂_map_right_iff, List.forall₂_same]
  rintro ⟨output, p⟩ hp
  cases p with
  | agg func column => exact ⟨rfl, rfl⟩
  | key column =>
    have hkey : (output, column) ∈ v.keys := List.mem_filterMap.mpr ⟨_, hp, rfl⟩
    obtain ⟨item, hitem, hname, houtput, hexpr⟩ := keyItem_spec h hkey
    exact ⟨houtput, item, hitem, hname, hexpr⟩

/-- The positions of an item read it, each time. -/
theorem filterMap_expr (h : v.Valid) {item : GroupByItem} (hitem : item ∈ v.groupBy) :
    (v.keyIndexes item.name).filterMap
        (fun i => (v.keys.map v.keyItem)[i]?.map SelectItem.expr) =
      List.replicate (v.keys.filter (·.2 == item.name)).length item.expr := by
  have hmap : (fun i => (v.keys.map v.keyItem)[i]?.map SelectItem.expr) =
      fun i : Nat => (v.keys[i]?).map fun key => (v.keyItem key).expr := by
    funext i
    rw [List.getElem?_map, Option.map_map]
    rfl
  rw [hmap, ← List.map_filterMap, filterMap_keyIndexes, List.map_eq_replicate_iff]
  intro key hkey
  obtain ⟨hkey, hname⟩ := List.mem_filter.mp hkey
  obtain ⟨item', hitem', hname', -, hexpr⟩ := keyItem_spec h hkey
  rw [hexpr, item_unique h hitem' hitem (hname'.trans (beq_iff_eq.mp hname))]

/-- A clash names a key item twice. -/
theorem clash_not_nodup (h : v.Valid) (hclash : v.Clash) :
    ¬ (((v.groupBy.map GroupByItem.name).flatMap v.groupByNames).flatMap
      (MVDef.entryItems (v.keys.map v.keyItem))).Nodup := by
  obtain ⟨key, hkey, hc, i, hi, hname⟩ := hclash
  intro hnodup
  rw [List.flatMap_assoc, List.nodup_flatMap] at hnodup
  have hne : key.1 ≠ (GroupByItem.interval i).name := fun heq => by
    have := item_unique h hc hi heq
    cases this
  have hsymm : Std.Symm (Function.onFun List.Disjoint fun name =>
      (v.groupByNames name).flatMap (MVDef.entryItems (v.keys.map v.keyItem))) :=
    ⟨fun _ _ hab => List.Disjoint.symm hab⟩
  have hdisjoint := hnodup.2.forall (List.mem_map_of_mem hc) (List.mem_map_of_mem hi) hne
  -- the column is selected, so the name reads a key item from both entries
  obtain ⟨key', hkey', hname'⟩ := h.selected _ hc
  obtain ⟨j, hj⟩ := List.getElem?_of_mem hkey'
  have hread : j ∈ MVDef.entryItems (v.keys.map v.keyItem) key.1 := by
    rw [entryItems_column h hc]
    exact mem_keyIndexes.mpr ⟨key', hj, hname'⟩
  refine hdisjoint (List.mem_flatMap.mpr ⟨key.1, ?_, hread⟩)
    (List.mem_flatMap.mpr ⟨key.1, ?_, hread⟩)
  · rw [show (GroupByItem.column key.1).name = key.1 from rfl, groupByNames_column h hc]
    exact List.mem_singleton_self _
  · rw [groupByNames_interval h hi]
    exact List.mem_map_of_mem (List.mem_filter.mpr ⟨hkey, beq_iff_eq.mpr hname.symm⟩)

/-- **Builder views denote what was built**, exactly when no interval key is selected under the name
of a GROUP BY column. The parser reads the statement as it is written. -/
theorem view_denotes_iff (parse : String → Except String MVDef) (v : ViewSpec) (h : v.Valid)
    (hparse : ∀ d, v.statement = .ok d → parse d.sql = .ok d) :
    ∃ sql d, viewToSql v = .ok sql ∧ parse sql = .ok d ∧
      (d.checkViewKeys = .ok () ∧ v.Denotes d ↔ ¬ v.Clash) := by
  obtain ⟨d, hd, hname, hsource, hselect, hgroupBy, hwindow⟩ := statement_ok h
  have hkeyItems : d.keyItems = v.keys.map v.keyItem := by
    rw [MVDef.keyItems, hselect]
    exact filter_selectItem v.projections
  refine ⟨d.sql, d, by rw [viewToSql, hd]; rfl, hparse d hd, ?_, fun hclash => ?_⟩
  · rintro ⟨hcheck, -⟩ hclash
    obtain ⟨-, hnodup, -⟩ := MVDef.checkViewKeys_ok.mp hcheck
    rw [hgroupBy, hkeyItems] at hnodup
    exact clash_not_nodup h hclash hnodup
  · have hnames : d.groupBy.flatMap (MVDef.entryItems d.keyItems) =
        (v.groupBy.map GroupByItem.name).flatMap v.keyIndexes := by
      rw [hgroupBy, hkeyItems, List.flatMap_assoc, List.flatMap_map, List.flatMap_map]
      apply List.flatMap_congr
      exact fun item hitem => flatMap_groupByNames h (keys_nodup h) hclash hitem
    obtain ⟨hnodup, hcover⟩ := flatMap_keyIndexes h
    refine ⟨MVDef.checkViewKeys_ok.mpr
      ⟨fun e he => ?_, by rwa [hnames], fun i hi => ?_⟩, ?_⟩
    · rw [hgroupBy] at he
      obtain ⟨name, hname, he⟩ := List.mem_flatMap.mp he
      obtain ⟨item, hitem, rfl⟩ := List.mem_map.mp hname
      rw [hkeyItems]
      exact entryItems_ne_nil h hclash hitem he
    · rw [hnames]
      exact hcover i (by simpa [hkeyItems] using hi)
    · refine ⟨⟨hname, hsource⟩, ?_, ?_, hwindow⟩
      · rw [hselect]
        exact select_denotes h
      · rw [hnames, hkeyItems, List.flatMap_map, List.filterMap_flatMap]
        apply List.flatMap_congr
        exact fun item hitem => filterMap_expr h hitem

/-- A bucket of the time is selected as `b`, beside the column `b`. -/
def bucketSpec : ViewSpec :=
  { name := "v", source := "t", slidingWindow := none
    groupBy := [.interval { column := "ts", seconds := 60, aliasName := some "t", error := none },
      .column "b"]
    projections := [("b", .key "t"), ("c", .key "b"), ("n", .agg .count none)] }

def bucketDef : MVDef :=
  { name := "v", source := "t", slidingWindow := none
    select := [⟨.windowFunc "ts" 60, some "b"⟩, ⟨.column "b", some "c"⟩,
      ⟨.agg .count none, some "n"⟩]
    groupBy := ["b", "b"] }

theorem bucketSpec_valid : bucketSpec.Valid where
  items := by decide
  outputs := by decide
  selects := by decide
  selected := by decide
  aggregate := ⟨("n", .agg .count none), by simp [bucketSpec], .count, none, rfl⟩
  intervals := by
    intro i hi
    simp only [bucketSpec, List.mem_cons, GroupByItem.interval.injEq, reduceCtorEq,
      List.not_mem_nil, or_false] at hi
    subst hi
    exact ⟨rfl, by decide⟩
  window := fun sw hsw => nomatch hsw

/-- The bucket and the column are both named `b` in GROUP BY, and `b` reads the column. -/
theorem bucket_view_rejected : bucketSpec.Valid ∧ bucketSpec.statement = .ok bucketDef ∧
    viewToSql bucketSpec = .ok ("CREATE MATERIALIZED VIEW v AS SELECT " ++
      "toStartOfInterval(ts, INTERVAL 60 SECOND) AS b, b AS c, count() AS n FROM t " ++
      "GROUP BY b, b;") ∧
    bucketDef.checkViewKeys = .error "MV 'v': GROUP BY names the key item 'c' twice" :=
  ⟨bucketSpec_valid, rfl, rfl, by decide⟩

/-- The hours of a user, over the last day. -/
def hourSpec : ViewSpec :=
  { name := "v", source := "t"
    slidingWindow := some { interval := "24 hours", timeColumn := "ts" }
    groupBy := [.interval { column := "ts", seconds := 3600, aliasName := none, error := none },
      .column "user"]
    projections := [("hour", .key "ts_interval"), ("user", .key "user"),
      ("total", .agg .sum (some "amount"))] }

theorem hourSpec_valid : hourSpec.Valid where
  items := by decide
  outputs := by decide
  selects := by decide
  selected := by decide
  aggregate := ⟨("total", .agg .sum (some "amount")), by simp [hourSpec], .sum, some "amount", rfl⟩
  intervals := by
    intro i hi
    simp only [hourSpec, List.mem_cons, GroupByItem.interval.injEq, reduceCtorEq,
      List.not_mem_nil, or_false] at hi
    subst hi
    exact ⟨rfl, by decide⟩
  window := by
    intro sw hsw
    cases hsw
    exact ⟨86400, by decide, by decide⟩

theorem view_denotes_iff_hours : ∃ sql d, viewToSql hourSpec = .ok sql ∧
    d.checkViewKeys = .ok () ∧ hourSpec.Denotes d := by
  have hclash : ¬ hourSpec.Clash := by
    rintro ⟨key, hkey, hc, i, hi, hname⟩
    simp only [hourSpec, List.mem_cons, GroupByItem.interval.injEq, GroupByItem.column.injEq,
      reduceCtorEq, List.not_mem_nil, or_false, false_or] at hc hi
    subst hi
    have hkeys : hourSpec.keys = [("hour", "ts_interval"), ("user", "user")] := rfl
    rw [hkeys] at hkey
    rcases List.mem_cons.mp hkey with rfl | hkey
    · exact absurd hc (by decide)
    · rw [List.mem_singleton.mp hkey] at hname
      exact absurd hname (by decide)
  obtain ⟨d, hd, -⟩ := statement_ok hourSpec_valid
  obtain ⟨sql, d', hsql, -, hiff⟩ := view_denotes_iff
    (fun s => if s = d.sql then .ok d else .error "syntax") hourSpec hourSpec_valid
    (fun d' hd' => by
      rw [hd, Except.ok.injEq] at hd'
      rw [hd', if_pos rfl])
  exact ⟨sql, d', hsql, hiff.mpr hclash⟩

end ViewSpec

end Settle
