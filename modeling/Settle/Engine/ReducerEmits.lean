import Settle.Data.StableSort
import Settle.Engine.ReducerProcess

/-!
# The output of a reducer

The emits of a block are positional rows, over columns that grow with the names that the body
uses. Read by name, they are what the body emitted: `EmitsRep`. The output of a block lists them
in the order of the input rows, on both paths, and a group-by column that an emit left Null comes
from its input row.
-/

namespace Settle

open Std

/-- The value of `name` in the fields of an emit: the last one wins. -/
def fieldValue (fields : List (String × Value)) (name : String) : Value :=
  ((fields.reverse.find? (·.1 = name)).map Prod.snd).getD .null

/-- A column of positional values, by name. -/
def readColumn (columns : List String) (values : List Value) (name : String) : Value :=
  (((ColumnRegistry.mk columns).getId name).bind (values[·]?)).getD .null

namespace ColumnRegistry

variable {columns : List String} {name : String} {id : Nat}

theorem getId_mem (h : (mk columns).getId name = some id) : columns[id]? = some name := by
  obtain ⟨hlt, hname, -⟩ := List.findIdx?_eq_some_iff_getElem.mp h
  rw [List.getElem?_eq_getElem hlt]
  simpa using hname

theorem getId_lt (h : (mk columns).getId name = some id) : id < columns.length :=
  (List.getElem?_eq_some_iff.mp (getId_mem h)).1

theorem getId_none : (mk columns).getId name = none ↔ name ∉ columns := by
  rw [getId, List.findIdx?_eq_none_iff]
  constructor
  · intro h hmem
    simpa using h name hmem
  · intro h x hx
    rw [beq_eq_false_iff_ne]
    rintro rfl
    exact h hx

/-- New columns come after the others. -/
theorem getId_append (columns more : List String) (name : String) :
    (mk (columns ++ more)).getId name
      = ((mk columns).getId name).or (((mk more).getId name).map (· + columns.length)) := by
  rw [getId, getId, getId]
  exact List.findIdx?_append

end ColumnRegistry

section Read

variable {columns : List String} {values : List Value} {name : String} {id : Nat}

/-- A value shorter than the columns reads the same with more columns. -/
theorem readColumn_append (more : List String) (h : values.length ≤ columns.length)
    (name : String) : readColumn (columns ++ more) values name = readColumn columns values name := by
  rw [readColumn, readColumn, ColumnRegistry.getId_append]
  cases (ColumnRegistry.mk columns).getId name with
  | some id => rfl
  | none =>
    cases (ColumnRegistry.mk more).getId name with
    | none => rfl
    | some id =>
      have hnone : values[id + columns.length]? = none := List.getElem?_eq_none (by omega)
      simp [hnone]

/-- Nulls at the end read as no value. -/
theorem readColumn_pad (columns : List String) (values : List Value) (n : Nat) (name : String) :
    readColumn columns (values ++ List.replicate n Value.null) name
      = readColumn columns values name := by
  rw [readColumn, readColumn]
  cases (ColumnRegistry.mk columns).getId name with
  | none => rfl
  | some id =>
    simp only [Option.bind_some]
    rw [List.getElem?_append]
    split
    · rfl
    · next hge =>
      rw [List.getElem?_replicate, List.getElem?_eq_none (by omega)]
      split <;> rfl

theorem getElem?_setAt (values : List Value) (id : Nat) (value : Value) (j : Nat) :
    ((Emits.setAt values id value)[j]?).getD .null
      = if j = id then value else (values[j]?).getD .null := by
  unfold Emits.setAt
  rw [List.getElem?_set]
  by_cases hj : j = id
  · subst hj
    have hlt : j < (values ++ List.replicate (j + 1 - values.length) Value.null).length := by
      simp
      omega
    rw [if_pos rfl, if_pos hlt, if_pos rfl]
    rfl
  · rw [if_neg (Ne.symm hj), if_neg hj, List.getElem?_append]
    split
    · rfl
    · rw [List.getElem?_replicate, List.getElem?_eq_none (l := values) (by omega)]
      split <;> rfl

theorem length_setAt (values : List Value) (id : Nat) (value : Value) :
    (Emits.setAt values id value).length = max values.length (id + 1) := by
  unfold Emits.setAt
  simp
  omega

/-- A column that was set. -/
theorem readColumn_setAt (h : (ColumnRegistry.mk columns).getId name = some id) (value : Value)
    (name' : String) : readColumn columns (Emits.setAt values id value) name'
      = if name' = name then value else readColumn columns values name' := by
  rw [readColumn, readColumn]
  cases hid : (ColumnRegistry.mk columns).getId name' with
  | none =>
    have hne : name' ≠ name := by
      rintro rfl
      rw [h] at hid
      cases hid
    rw [if_neg hne]
    rfl
  | some id' =>
    simp only [Option.bind_some]
    rw [getElem?_setAt]
    by_cases hname : name' = name
    · subst hname
      rw [h] at hid
      obtain rfl := Option.some.inj hid
      simp
    · have hne : id' ≠ id := by
        rintro rfl
        have h₁ := ColumnRegistry.getId_mem h
        have h₂ := ColumnRegistry.getId_mem hid
        rw [h₁] at h₂
        exact hname (Option.some.inj h₂).symm
      rw [if_neg hne, if_neg hname]

end Read

/-! ## The emits of a block -/

/-- The emitted rows, read by name, are those of the log. -/
def EmitsRep (e : Emits) (log : List (Nat × List (String × Value))) : Prop :=
  List.Forall₂ (fun row entry => row.1 = entry.1 ∧ row.2.length ≤ e.columns.length ∧
    ∀ name, readColumn e.columns row.2 name = fieldValue entry.2 name) e.rows log

namespace Emits

theorem column_spec (e : Emits) (name : String) (h : (e.column name).1.overflow = none) :
    e.overflow = none ∧ (e.column name).1.rows = e.rows ∧
    e.columns <+: (e.column name).1.columns ∧
    ∃ id, (e.column name).2 = some id ∧
      (ColumnRegistry.mk (e.column name).1.columns).getId name = some id := by
  unfold column at h ⊢
  cases hid : (ColumnRegistry.mk e.columns).getId name with
  | some id =>
    rw [hid] at h
    exact ⟨h, rfl, List.prefix_refl _, id, rfl, hid⟩
  | none =>
    rw [hid] at h
    dsimp only at h ⊢
    split at h
    · next hlt =>
      rw [if_pos hlt]
      refine ⟨h, rfl, List.prefix_append _ _, _, rfl, ?_⟩
      rw [ColumnRegistry.getId_append, hid]
      simp [ColumnRegistry.getId]
    · -- the column found no room
      exfalso
      cases hover : e.overflow <;> simp [hover] at h

/-- The fields of one row. -/
theorem setFields_spec (fields : List (String × Value)) (e : Emits) (values : List Value)
    (h : (setFields fields (e, values)).1.overflow = none)
    (hlen : values.length ≤ e.columns.length) :
    e.overflow = none ∧ (setFields fields (e, values)).1.rows = e.rows ∧
    e.columns <+: (setFields fields (e, values)).1.columns ∧
    (setFields fields (e, values)).2.length ≤ (setFields fields (e, values)).1.columns.length ∧
    ∀ name, readColumn (setFields fields (e, values)).1.columns (setFields fields (e, values)).2 name
      = ((fields.reverse.find? (·.1 = name)).map Prod.snd).getD
          (readColumn e.columns values name) := by
  induction fields generalizing e values with
  | nil => exact ⟨h, rfl, List.prefix_refl _, hlen, fun _ => rfl⟩
  | cons field fields ih =>
    obtain ⟨name, value⟩ := field
    have hover : (e.column name).1.overflow = none := by
      -- an overflow stays
      by_contra hne
      have hstay : ∀ (fields : List (String × Value)) (e : Emits) (values : List Value),
          e.overflow ≠ none → (setFields fields (e, values)).1.overflow ≠ none := by
        intro fields
        induction fields with
        | nil => exact fun e values he => he
        | cons field fields ihf =>
          intro e values he
          have hcol : (e.column field.1).1.overflow ≠ none := by
            unfold column
            split
            · exact he
            · split
              · exact he
              · obtain ⟨x, hx⟩ := Option.ne_none_iff_exists'.mp he
                simp [hx]
          rw [setFields]
          split
          · next e' id heq =>
            rw [heq] at hcol
            exact ihf e' _ hcol
          · next e' heq =>
            rw [heq] at hcol
            exact ihf e' _ hcol
      rw [setFields] at h
      split at h
      · next e' id heq =>
        rw [heq] at hne
        exact hstay fields e' _ hne h
      · next e' heq =>
        rw [heq] at hne
        exact hstay fields e' _ hne h
    obtain ⟨he, hrows, hpre, id, hid, hget⟩ := column_spec e name hover
    have hstep : setFields ((name, value) :: fields) (e, values)
        = setFields fields ((e.column name).1, setAt values id value) := by
      rw [setFields]
      split
      · next e' id' heq =>
        rw [heq] at hid ⊢
        obtain rfl := Option.some.inj hid
        rfl
      · next e' heq =>
        rw [heq] at hid
        cases hid
    rw [hstep] at h ⊢
    have hlen' : (setAt values id value).length ≤ (e.column name).1.columns.length := by
      have h₁ := ColumnRegistry.getId_lt hget
      have h₂ := hpre.length_le
      rw [length_setAt]
      omega
    obtain ⟨-, hr, hp, hl, hread⟩ := ih (e.column name).1 (setAt values id value) h hlen'
    refine ⟨he, hr.trans hrows, hpre.trans hp, hl, fun name' => ?_⟩
    obtain ⟨more, hmore⟩ := hpre
    rw [hread name', readColumn_setAt hget, ← hmore, readColumn_append more hlen, List.reverse_cons,
      List.find?_append]
    cases fields.reverse.find? (fun field => decide (field.1 = name')) with
    | some field => rfl
    | none =>
      by_cases hname : name' = name
      · subst hname
        simp
      · simp [hname, Ne.symm hname]

/-- One emit by name. -/
theorem pushNamed_rep {e : Emits} {log : List (Nat × List (String × Value))} (he : EmitsRep e log)
    (source : Nat) (fields : List (String × Value))
    (h : (e.pushNamed source fields).overflow = none) :
    EmitsRep (e.pushNamed source fields) (log ++ [(source, fields)]) ∧
    e.columns <+: (e.pushNamed source fields).columns ∧ e.overflow = none := by
  obtain ⟨hover, hrows, hpre, hlen, hread⟩ := setFields_spec fields e [] h (Nat.zero_le _)
  refine ⟨?_, hpre, hover⟩
  show List.Forall₂ _ ((setFields fields (e, [])).1.rows ++ [(source, (setFields fields (e, [])).2)]) _
  rw [hrows]
  refine List.rel_append ?_ (.cons ⟨rfl, hlen, fun name => ?_⟩ .nil)
  · refine he.imp ?_
    rintro row entry ⟨h₁, h₂, h₃⟩
    obtain ⟨more, hmore⟩ := hpre
    refine ⟨h₁, h₂.trans (hmore ▸ (List.prefix_append _ _).length_le), fun name => ?_⟩
    show readColumn (setFields fields (e, [])).1.columns row.2 name = _
    rw [← hmore, readColumn_append more h₂]
    exact h₃ name
  · refine (hread name).trans ?_
    have hnull : readColumn e.columns [] name = .null := by
      rw [readColumn]
      cases (ColumnRegistry.mk e.columns).getId name <;> rfl
    rw [hnull]
    rfl

/-- **The emits of a log**, when they found room for their columns. -/
theorem pushAll_rep {e : Emits} {log : List (Nat × List (String × Value))} (he : EmitsRep e log)
    (more : List (Nat × List (String × Value))) (h : (e.pushAll more).overflow = none) :
    EmitsRep (e.pushAll more) (log ++ more) ∧ e.columns <+: (e.pushAll more).columns ∧
    e.overflow = none := by
  induction more generalizing e log with
  | nil =>
    rw [List.append_nil]
    exact ⟨he, List.prefix_refl _, h⟩
  | cons entry more ih =>
    have h : ((e.pushNamed entry.1 entry.2).pushAll more).overflow = none := h
    have hstay : (e.pushNamed entry.1 entry.2).overflow = none := by
      by_contra hne
      have hkeep : ∀ (more : List (Nat × List (String × Value))) (e : Emits), e.overflow ≠ none →
          (e.pushAll more).overflow ≠ none := by
        intro more
        induction more with
        | nil => exact fun e he => he
        | cons entry more ihm =>
          intro e he
          refine ihm _ fun hnone => ?_
          exact he (setFields_spec entry.2 e [] hnone (Nat.zero_le _)).1
      exact hkeep more _ hne h
    obtain ⟨hrep, hpre, hover⟩ := pushNamed_rep he entry.1 entry.2 hstay
    obtain ⟨hrep', hpre', -⟩ := ih hrep h
    refine ⟨?_, hpre.trans hpre', hover⟩
    rw [List.append_assoc] at hrep'
    exact hrep'

end Emits

/-! ## The order of the emits -/

section Order

variable {κ : Type} [DecidableEq κ] {v : ReducerShape} {key : Row → κ}
  {base base' : κ → GroupValue} {rows : List (Row × Nat)}

/-- An emit has the index of a row. -/
theorem emissions_mem {x : Nat × List (String × Value)} (h : x ∈ emissions v key base rows) :
    ∃ e ∈ rows, e.2 = x.1 := by
  induction rows generalizing base with
  | nil => simp [emissions] at h
  | cons e rows ih =>
    obtain ⟨row, index⟩ := e
    rw [emissions, List.mem_append] at h
    rcases h with h | h
    · obtain ⟨fields, -, rfl⟩ := List.mem_map.mp h
      exact ⟨(row, index), by simp, rfl⟩
    · obtain ⟨e, he, heq⟩ := ih h
      exact ⟨e, List.mem_cons_of_mem _ he, heq⟩

/-- Rows in index order emit in index order. -/
theorem emissions_sorted (h : rows.Pairwise fun a b => a.2 < b.2) :
    (emissions v key base rows).Pairwise fun a b => a.1 ≤ b.1 := by
  induction rows generalizing base with
  | nil => exact .nil
  | cons e rows ih =>
    obtain ⟨row, index⟩ := e
    obtain ⟨hlt, h⟩ := List.pairwise_cons.mp h
    rw [emissions]
    refine List.pairwise_append.mpr ⟨?_, ih h, ?_⟩
    · refine List.pairwise_map.mpr (List.pairwise_of_forall fun _ _ => Nat.le_refl _)
    · intro a ha x hx
      obtain ⟨fields, -, rfl⟩ := List.mem_map.mp ha
      obtain ⟨e, he, heq⟩ := emissions_mem hx
      rw [← heq]
      exact Nat.le_of_lt (hlt e he)

/-- The rows of one group see only its value. -/
theorem emissions_congr {k : κ} (hk : ∀ e ∈ rows, key e.1 = k) (h : base k = base' k) :
    emissions v key base rows = emissions v key base' rows := by
  induction rows generalizing base base' with
  | nil => rfl
  | cons e rows ih =>
    obtain ⟨row, index⟩ := e
    have hrow : key row = k := hk (row, index) (by simp)
    rw [emissions, emissions, hrow, h]
    congr 1
    exact ih (fun e he => hk e (List.mem_cons_of_mem _ he)) (by simp)

/-- The emits of the rows of one group. -/
theorem emissions_filter (keyAt : Nat → Option κ) (hkey : ∀ e ∈ rows, keyAt e.2 = some (key e.1))
    (k : κ) :
    (emissions v key base rows).filter (fun x => keyAt x.1 = some k)
      = emissions v key base (rows.filter fun e => key e.1 = k) := by
  induction rows generalizing base with
  | nil => rfl
  | cons e rows ih =>
    obtain ⟨row, index⟩ := e
    have hrow : keyAt index = some (key row) := hkey (row, index) (by simp)
    have ih := fun base => @ih base fun e he => hkey e (List.mem_cons_of_mem _ he)
    rw [emissions, List.filter_append, ih]
    by_cases hk : key row = k
    · rw [List.filter_cons_of_pos (by simpa using hk), emissions, List.filter_eq_self.mpr]
      intro x hx
      obtain ⟨fields, -, rfl⟩ := List.mem_map.mp hx
      simp [hrow, hk]
    · rw [List.filter_cons_of_neg (by simpa using hk), List.filter_eq_nil_iff.mpr, List.nil_append]
      · refine emissions_congr (k := k) (fun e he => by simpa using (List.mem_filter.mp he).2) ?_
        rw [Function.update_of_ne (Ne.symm hk)]
      · intro x hx
        obtain ⟨fields, -, rfl⟩ := List.mem_map.mp hx
        simp [hrow, hk]

/-- **Whatever the order of the groups, the emits in the order of the rows are the same.** -/
theorem mergeSort_emissions {input : List Row} {order : List (Row × Nat)}
    (h : KeepsGroups key input order) :
    (emissions v key base order).mergeSort (fun a b => a.1 ≤ b.1)
      = emissions v key base input.zipIdx := by
  have hkeyAt : ∀ e ∈ input.zipIdx, input[e.2]?.map key = some (key e.1) := by
    intro e he
    rw [List.mem_zipIdx_iff_getElem?] at he
    rw [he]
    rfl
  refine StableSort.mergeSort_eq_of_filter Prod.fst ?_ ?_
  · apply emissions_sorted
    refine List.pairwise_iff_getElem.mpr ?_
    intro i j hi hj hij
    simpa using hij
  · intro j
    cases hj : input[j]? with
    | none =>
      -- no row has this index
      have hno : ∀ order : List (Row × Nat), (∀ e ∈ order, e ∈ input.zipIdx) →
          (emissions v key base order).filter (fun x => x.1 = j) = [] := by
        intro order hmem
        rw [List.filter_eq_nil_iff]
        intro x hx
        obtain ⟨e, he, heq⟩ := emissions_mem hx
        have := hkeyAt e (hmem e he)
        simp only [decide_eq_true_eq]
        rintro rfl
        rw [heq, hj] at this
        cases this
      rw [hno order h.mem, hno _ fun e he => he]
    | some row =>
      -- the emits of a row are among those of its group
      have hsplit : ∀ l : List (Nat × List (String × Value)), l.filter (fun x => x.1 = j)
          = (l.filter fun x => input[x.1]?.map key = some (key row)).filter
              (fun x => x.1 = j) := by
        intro l
        rw [List.filter_filter]
        apply List.filter_congr
        intro x _
        by_cases hx : x.1 = j
        · simp [hx, hj]
        · simp [hx]
      rw [hsplit, hsplit (emissions v key base input.zipIdx),
        emissions_filter (fun i => input[i]?.map key) (fun e he => hkeyAt e (h.mem e he)),
        emissions_filter (fun i => input[i]?.map key) hkeyAt, h.filter]

end Order

/-! ## The output -/

/-- An emitted row by column name: a group-by column that the emit left Null comes from the input
row, at the position that it has in the first row of the block. -/
def emittedRow (v : ReducerShape) (rows : List Row) (entry : Nat × List (String × Value))
    (name : String) : Value :=
  if (fieldValue entry.2 name).isNull ∧ name ∈ v.groupBy then
    (((rows.head?.bind fun first => first.registry.getId name)).bind
      (((rows[entry.1]?.map Row.values).getD [])[·]?)).getD .null
  else fieldValue entry.2 name

theorem Value.eq_null_of_isNull {x : Value} (h : x.isNull = true) : x = .null := by
  cases x <;> first | rfl | cases h

/-- One output row, read by name. -/
theorem column_outputRow {v : ReducerShape} {rows : List Row} {columns : List String}
    (hpre : v.groupBy <+: columns) {values : List Value} (hlen : values.length = columns.length)
    {entry : Nat × List (String × Value)}
    (hread : ∀ name, readColumn columns values name = fieldValue entry.2 name)
    (hrow : entry.1 < rows.length) (name : String) :
    SourceRow.column (ReducerEngine.outputRow (ReducerEngine.groupByIds v rows) columns rows
      (entry.1, values)) name = emittedRow v rows entry name := by
  obtain ⟨more, hmore⟩ := hpre
  have hread := hread name
  show (((ColumnRegistry.mk columns).getId name).bind _).getD Value.null = _
  rw [readColumn] at hread
  cases hid : (ColumnRegistry.mk columns).getId name with
  | none =>
    rw [hid] at hread
    have hnot : name ∉ v.groupBy := by
      intro hmem
      refine ColumnRegistry.getId_none.mp hid ?_
      rw [← hmore]
      exact List.mem_append_left _ hmem
    rw [emittedRow, if_neg fun h => hnot h.2]
    exact hread
  | some j =>
    have hj := ColumnRegistry.getId_lt hid
    have hname := ColumnRegistry.getId_mem hid
    rw [hid] at hread
    have hvalue : values[j]? = some (fieldValue entry.2 name) := by
      rw [← hread]
      simp only [Option.bind_some]
      rw [List.getElem?_eq_getElem (by omega)]
      rfl
    obtain ⟨first, hfirst⟩ : ∃ first, rows.head? = some first := by
      cases rows with
      | nil => simp at hrow
      | cons first rest => exact ⟨first, rfl⟩
    have hids : ((ReducerEngine.groupByIds v rows)[j]?).join
        = if name ∈ v.groupBy then first.registry.getId name else none := by
      rw [ReducerEngine.groupByIds, hfirst]
      dsimp only
      rw [List.getElem?_map]
      by_cases hmem : name ∈ v.groupBy
      · -- the position of a group-by column in the emits is its position there
        have hj' : j < v.groupBy.length := by
          by_contra hge
          rw [← hmore, ColumnRegistry.getId_append] at hid
          cases hin : (ColumnRegistry.mk v.groupBy).getId name with
          | none => exact ColumnRegistry.getId_none.mp hin hmem
          | some i =>
            rw [hin] at hid
            have hi := ColumnRegistry.getId_lt hin
            have : i = j := by simpa using hid
            omega
        rw [← hmore, List.getElem?_append_left hj'] at hname
        rw [hname, if_pos hmem]
        rfl
      · rw [if_neg hmem]
        cases hget : v.groupBy[j]? with
        | none => rfl
        | some n =>
          exfalso
          rw [← hmore, List.getElem?_append_left (List.getElem?_eq_some_iff.mp hget).1, hget] at hname
          obtain rfl := Option.some.inj hname
          exact hmem (List.mem_of_getElem? hget)
    simp only [Option.bind_some]
    show ((List.map _ values.zipIdx)[j]?).getD Value.null = _
    rw [List.getElem?_map, List.getElem?_zipIdx, hvalue]
    simp only [Option.map_some, Option.getD_some, Nat.zero_add, hids]
    rw [emittedRow, hfirst]
    by_cases hmem : name ∈ v.groupBy
    · cases hnull : (fieldValue entry.2 name).isNull with
      | false => simp
      | true =>
        simp only [hmem, and_self, ↓reduceIte, Option.bind_some]
        cases hcol : first.registry.getId name with
        | none => exact Value.eq_null_of_isNull hnull
        | some id => rfl
    · simp [hmem]

/-- **The output of a block**: the emits of its rows, in row order, read by name. -/
theorem takeOutput_spec {v : ReducerShape} {rows : List Row} {emits : Emits}
    {log reference : List (Nat × List (String × Value))} (hrep : EmitsRep emits log)
    (hpre : v.groupBy <+: emits.columns) (hlog : ∀ entry ∈ log, entry.1 < rows.length)
    (hsort : log.mergeSort (fun a b => a.1 ≤ b.1) = reference) :
    (ReducerEngine.takeOutput (ReducerEngine.groupByIds v rows) rows emits).map
        (fun row name => SourceRow.column row name)
      = reference.map (emittedRow v rows) := by
  set padded := emits.take with hpadded
  -- each padded row with its entry of the log
  have hrel : List.Forall₂ (fun row entry => row.1 = entry.1 ∧
      row.2.length = emits.columns.length ∧
      ∀ name, readColumn emits.columns row.2 name = fieldValue entry.2 name) padded log := by
    rw [hpadded, Emits.take]
    refine List.forall₂_map_left_iff.mpr (hrep.imp ?_)
    rintro row entry ⟨h₁, h₂, h₃⟩
    refine ⟨h₁, ?_, fun name => ?_⟩
    · simp only [List.length_append, List.length_replicate]
      omega
    · exact (readColumn_pad _ _ _ name).trans (h₃ name)
  have hlen := hrel.length_eq
  set pairs := padded.zip log with hpairs
  have hfst : pairs.map Prod.fst = padded := List.map_fst_zip hlen.le
  have hsnd : pairs.map Prod.snd = log := List.map_snd_zip hlen.ge
  have hmem : ∀ q ∈ pairs, q.1.1 = q.2.1 ∧ q.1.2.length = emits.columns.length ∧
      ∀ name, readColumn emits.columns q.1.2 name = fieldValue q.2.2 name := by
    intro q hq
    exact (List.forall₂_iff_zip.mp hrel).2 hq
  have hsorted₁ : (pairs.mergeSort fun a b => a.1.1 ≤ b.1.1).map Prod.fst
      = padded.mergeSort fun a b => a.1 ≤ b.1 := by
    rw [← hfst]
    exact List.map_mergeSort fun _ _ _ _ => rfl
  have hsorted₂ : (pairs.mergeSort fun a b => a.1.1 ≤ b.1.1).map Prod.snd = reference := by
    rw [← hsort, ← hsnd]
    refine List.map_mergeSort fun a ha b hb => ?_
    rw [(hmem a ha).1, (hmem b hb).1]
  rw [ReducerEngine.takeOutput, ← hpadded, ← hsorted₁, ← hsorted₂, List.map_map, List.map_map,
    List.map_map]
  apply List.map_congr_left
  intro q hq
  have hq : q ∈ pairs := (List.mergeSort_perm _ _).mem_iff.mp hq
  obtain ⟨h₁, h₂, h₃⟩ := hmem q hq
  have hin : q.2 ∈ log := by
    rw [← hsnd]
    exact List.mem_map_of_mem hq
  funext name
  have hcol := column_outputRow hpre h₂ h₃ (hlog q.2 hin) name
  rw [← h₁] at hcol
  exact hcol

end Settle
