import Settle.Engine.ReducerEmits

/-!
# The two paths of a reducer

`process_block` runs the rows of a block one by one, or group by group with the groups loaded
first. Here both are read from any state of the engine: loading the groups commutes with the rows
before them (`loadGroups_patch`), the first change of a group commutes with the rows of the others
(`change_runItem`), and the rows of two groups commute, so that both paths leave the same groups.
The emits differ in their order, and with it the columns, which only their names decide
(`pushAll_overflow`).
-/

namespace Settle

open Std

/-! ## Columns by first use -/

/-- The names of a log of emits, in order. -/
def logNames (log : List (Nat × List (String × Value))) : List String :=
  log.flatMap fun entry => entry.2.map Prod.fst

/-- Columns with the new ones of `names`, in order of first use. -/
def addNames (columns : List String) (names : List String) : List String :=
  names.foldl (fun columns name => if name ∈ columns then columns else columns ++ [name]) columns

theorem addNames_append (columns names more : List String) :
    addNames columns (names ++ more) = addNames (addNames columns names) more :=
  List.foldl_append

theorem prefix_addNames (columns names : List String) : columns <+: addNames columns names := by
  induction names generalizing columns with
  | nil => exact List.prefix_refl _
  | cons name names ih =>
    refine List.IsPrefix.trans ?_ (ih _)
    dsimp only
    split
    · exact List.prefix_refl _
    · exact List.prefix_append _ _

theorem mem_addNames (columns names : List String) (name : String) :
    name ∈ addNames columns names ↔ name ∈ columns ∨ name ∈ names := by
  induction names generalizing columns with
  | nil => simp [addNames]
  | cons n names ih =>
    rw [show addNames columns (n :: names)
      = addNames (if n ∈ columns then columns else columns ++ [n]) names from rfl, ih]
    split <;> grind

/-- The new columns are distinct and not among the old ones. -/
theorem addNames_eq_append (columns names : List String) :
    ∃ new, addNames columns names = columns ++ new ∧ new.Nodup ∧ ∀ n ∈ new, n ∉ columns := by
  induction names generalizing columns with
  | nil => exact ⟨[], by simp [addNames], List.nodup_nil, by simp⟩
  | cons n names ih =>
    rw [show addNames columns (n :: names)
      = addNames (if n ∈ columns then columns else columns ++ [n]) names from rfl]
    split
    · exact ih columns
    · next hn =>
      obtain ⟨new, heq, hnd, hnot⟩ := ih (columns ++ [n])
      refine ⟨n :: new, by simp [heq], ?_, ?_⟩
      · exact List.nodup_cons.mpr ⟨fun hm => hnot n hm (by simp), hnd⟩
      · intro m hm
        rcases List.mem_cons.mp hm with rfl | hm
        · exact hn
        · exact fun hc => hnot m hm (by simp [hc])

/-- The same names in another order give the same columns in another order. -/
theorem addNames_perm {columns names names' : List String} (h : ∀ n, n ∈ names ↔ n ∈ names') :
    (addNames columns names).Perm (addNames columns names') := by
  obtain ⟨new, heq, hnd, hnot⟩ := addNames_eq_append columns names
  obtain ⟨new', heq', hnd', hnot'⟩ := addNames_eq_append columns names'
  rw [heq, heq']
  refine List.Perm.append_left _ ((List.perm_ext_iff_of_nodup hnd hnd').mpr ?_)
  intro n
  have h₁ := mem_addNames columns names n
  have h₂ := mem_addNames columns names' n
  rw [heq, List.mem_append] at h₁
  rw [heq', List.mem_append, ← h n] at h₂
  have := hnot n
  have := hnot' n
  grind

namespace Emits

/-- The columns after the emits asked for `names`. -/
def useColumns (e : Emits) (names : List String) : Emits :=
  names.foldl (fun e name => (e.column name).1) e

theorem overflow_useColumns {e : Emits} (h : e.overflow ≠ none) (names : List String) :
    (e.useColumns names).overflow ≠ none := by
  induction names generalizing e with
  | nil => exact h
  | cons name names ih =>
    apply ih
    show (e.column name).1.overflow ≠ none
    unfold column
    split
    · exact h
    · split
      · exact h
      · obtain ⟨x, hx⟩ := Option.ne_none_iff_exists'.mp h
        simp [hx]

/-- There is room exactly when the names are known or the columns stay within the limit. -/
theorem useColumns_spec {e : Emits} (h : e.overflow = none) (names : List String) :
    ((e.useColumns names).overflow = none ↔
      addNames e.columns names = e.columns ∨
      (addNames e.columns names).length ≤ maxEmitColumns) ∧
    ((e.useColumns names).overflow = none →
      (e.useColumns names).columns = addNames e.columns names) := by
  induction names generalizing e with
  | nil => exact ⟨by simp [useColumns, addNames, h], fun _ => rfl⟩
  | cons name names ih =>
    have hstep : e.useColumns (name :: names) = (e.column name).1.useColumns names := rfl
    have hadd : addNames e.columns (name :: names)
        = addNames (if name ∈ e.columns then e.columns else e.columns ++ [name]) names := rfl
    rw [hstep, hadd]
    by_cases hmem : name ∈ e.columns
    · have hcol : (e.column name).1 = e := by
        unfold column
        cases hid : (ColumnRegistry.mk e.columns).getId name with
        | some id => rfl
        | none => exact absurd hmem (ColumnRegistry.getId_none.mp hid)
      rw [hcol, if_pos hmem]
      exact ih h
    · have hid := ColumnRegistry.getId_none.mpr hmem
      have hpre := prefix_addNames (e.columns ++ [name]) names
      have hlen := hpre.length_le
      simp only [List.length_append, List.length_singleton] at hlen
      have hne : addNames (e.columns ++ [name]) names ≠ e.columns := by
        intro heq
        rw [heq] at hlen
        omega
      rw [if_neg hmem]
      by_cases hlt : e.columns.length < maxEmitColumns
      · have hcol : (e.column name).1 = { e with columns := e.columns ++ [name] } := by
          simp [column, hid, hlt]
        rw [hcol]
        obtain ⟨hiff, hcols⟩ := ih (e := { e with columns := e.columns ++ [name] }) h
        refine ⟨hiff.trans ?_, hcols⟩
        simp only [hne, false_or]
        constructor
        · rintro (heq | hle)
          · rw [heq]
            simp only [List.length_append, List.length_singleton]
            omega
          · exact hle
        · exact Or.inr
      · -- the column finds no room, and the overflow stays
        have hover : (e.column name).1.overflow ≠ none := by
          simp [column, hid, hlt, h]
        have hstay := overflow_useColumns hover names
        refine ⟨?_, fun hnone => absurd hnone hstay⟩
        simp only [hstay, hne, false_or, false_iff]
        omega

theorem setFields_columns (fields : List (String × Value)) (e : Emits) (values : List Value) :
    (setFields fields (e, values)).1 = e.useColumns (fields.map Prod.fst) := by
  induction fields generalizing e values with
  | nil => rfl
  | cons field fields ih =>
    obtain ⟨name, value⟩ := field
    rw [setFields]
    split
    · next e' id heq =>
      rw [ih, List.map_cons, show e.useColumns (name :: fields.map Prod.fst)
        = (e.column name).1.useColumns (fields.map Prod.fst) from rfl, heq]
    · next e' heq =>
      rw [ih, List.map_cons, show e.useColumns (name :: fields.map Prod.fst)
        = (e.column name).1.useColumns (fields.map Prod.fst) from rfl, heq]

/-- Columns do not depend on the rows. -/
theorem useColumns_rows (e : Emits) (rows : List (Nat × List Value)) (names : List String) :
    ({ e with rows := rows } : Emits).useColumns names
      = { e.useColumns names with rows := rows } := by
  induction names generalizing e with
  | nil => rfl
  | cons name names ih =>
    have hcol : (({ e with rows := rows } : Emits).column name).1
        = { (e.column name).1 with rows := rows } := by
      unfold column
      cases (ColumnRegistry.mk e.columns).getId name with
      | some id => rfl
      | none =>
        dsimp only
        split <;> rfl
    show (({ e with rows := rows } : Emits).column name).1.useColumns names = _
    rw [hcol, ih]
    rfl

theorem pushAll_columns (e : Emits) (log : List (Nat × List (String × Value))) :
    (e.pushAll log).columns = (e.useColumns (logNames log)).columns ∧
    (e.pushAll log).overflow = (e.useColumns (logNames log)).overflow := by
  induction log generalizing e with
  | nil => exact ⟨rfl, rfl⟩
  | cons entry log ih =>
    have hpush : ∃ rows, e.pushNamed entry.1 entry.2
        = { e.useColumns (entry.2.map Prod.fst) with rows := rows } := by
      rw [pushNamed, setFields_columns]
      exact ⟨_, rfl⟩
    obtain ⟨rows, hpush⟩ := hpush
    have hsplit : e.useColumns (logNames (entry :: log))
        = (e.useColumns (entry.2.map Prod.fst)).useColumns (logNames log) := by
      rw [logNames, List.flatMap_cons, useColumns, List.foldl_append]
      rfl
    have hrec := ih (e.pushNamed entry.1 entry.2)
    rw [hpush, useColumns_rows (e.useColumns (entry.2.map Prod.fst)) rows] at hrec
    rw [hsplit, show e.pushAll (entry :: log) = (e.pushNamed entry.1 entry.2).pushAll log from rfl,
      hpush]
    exact hrec

/-- **The columns of a log of emits**: the block has room for them exactly when they are known or
stay within the limit, and they are then the old ones and the new names in order of first use. -/
theorem pushAll_overflow {e : Emits} (h : e.overflow = none)
    (log : List (Nat × List (String × Value))) :
    ((e.pushAll log).overflow = none ↔
      addNames e.columns (logNames log) = e.columns ∨
      (addNames e.columns (logNames log)).length ≤ maxEmitColumns) ∧
    ((e.pushAll log).overflow = none →
      (e.pushAll log).columns = addNames e.columns (logNames log)) := by
  obtain ⟨hcols, hover⟩ := pushAll_columns e log
  rw [hcols, hover]
  exact useColumns_spec h _

end Emits

/-! ## Rows on the groups -/

/-- The STATE values and the MAP entries that a group holds. -/
def ReducerGroup.value (g : ReducerGroup) : GroupValue := ⟨g.state, (g.maps.entries[·]?)⟩

namespace ReducerEngine

variable {v : ReducerShape} {st : Store} {block : BlockNumber} {ids : List (Option Nat)}

theorem runBody_body (g : ReducerGroup) (row : Row) :
    (runBody v g row).2 = v.body g.value row := rfl

theorem runBody_value (g : ReducerGroup) (row : Row) :
    (runBody v g row).1.value = v.step g.value row := by
  have hfold : ∀ (ops : List MapOp) (m : StateMaps),
      (fun k => (ops.foldl StateMaps.applyOp m).entries[k]?)
        = ops.foldl MapOp.applyTo (m.entries[·]?) := by
    intro ops
    induction ops with
    | nil => exact fun m => rfl
    | cons op ops ih =>
      intro m
      rw [List.foldl_cons, List.foldl_cons, ih, funext (StateMaps.applyOp_cases m op).2.2.1]
  rw [ReducerGroup.value, ReducerShape.step]
  congr 1
  exact hfold _ g.maps

theorem changeGroup_value (g : ReducerGroup) : (changeGroup block g).value = g.value := by
  unfold changeGroup
  split <;> rfl

/-- A row of the group at `item.2`. -/
def runItem (v : ReducerShape) (all : List ReducerGroup) (item : (Row × Nat) × Nat) :
    List ReducerGroup :=
  all.modify item.2 fun g => (runBody v g item.1.1).1

/-- The values of the groups in memory. -/
def valuesOf (v : ReducerShape) (all : List ReducerGroup) (id : Nat) : GroupValue :=
  (all[id]?.map ReducerGroup.value).getD v.initial

variable (v) in
/-- A row changes the value of its group. -/
theorem valuesOf_runItem {all : List ReducerGroup} (item : (Row × Nat) × Nat)
    (h : item.2 < all.length) :
    valuesOf v (runItem v all item) = Function.update (valuesOf v all) item.2
      (v.step (valuesOf v all item.2) item.1.1) := by
  funext id
  rw [valuesOf, runItem, List.getElem?_modify]
  by_cases hid : id = item.2
  · subst hid
    rw [Function.update_self, valuesOf, List.getElem?_eq_getElem h]
    simp [runBody_value]
  · rw [Function.update_of_ne hid, valuesOf]
    simp [Ne.symm hid]

end ReducerEngine

/-- The body succeeds on rows of the groups `key` says. -/
def BodySucceeds (v : ReducerShape) {κ : Type} [DecidableEq κ] (key : Row → κ) :
    (κ → GroupValue) → List (Row × Nat) → Prop
  | _, [] => True
  | base, (row, _) :: rest =>
    (v.body (base (key row)) row).error = none ∧
      BodySucceeds v key (Function.update base (key row) (v.step (base (key row)) row)) rest

namespace ReducerEngine

variable {v : ReducerShape} {st : Store} {block : BlockNumber} {ids : List (Option Nat)}

/-- What the rows of a block do: they all succeed, or there is an error. -/
inductive Outcome (emits : Emits) (ok : Prop) (final : ReducerEngine)
    (log : List (Nat × List (String × Value))) :
    ReducerEngine × Emits × Except Error Unit → Prop
  | done (hok : ok) (hroom : (emits.pushAll log).overflow = none) :
      Outcome emits ok final log (final, emits.pushAll log, .ok ())
  | failed (hnot : ¬ (ok ∧ (emits.pushAll log).overflow = none)) {r' : ReducerEngine}
      {emits' : Emits} {e : Error} (hgrowth : r'.emitGrowth = final.emitGrowth) :
      Outcome emits ok final log (r', emits', .error e)

theorem pushAll_append (e : Emits) (log more : List (Nat × List (String × Value))) :
    e.pushAll (log ++ more) = (e.pushAll log).pushAll more :=
  List.foldl_append

/-- The outcome of the rest after emits that found room. -/
theorem Outcome.after {emits : Emits} {ok ok' : Prop} {final : ReducerEngine}
    {first log : List (Nat × List (String × Value))}
    {x : ReducerEngine × Emits × Except Error Unit}
    (h : Outcome (emits.pushAll first) ok final log x) (hok : ok' ↔ ok) :
    Outcome emits ok' final (first ++ log) x := by
  cases h with
  | done ho hroom =>
    rw [← pushAll_append] at hroom ⊢
    exact .done (hok.mpr ho) hroom
  | failed hnot hgrowth =>
    rw [← pushAll_append] at hnot
    exact .failed (by rwa [hok]) hgrowth

theorem check_eq_ok {e : Emits} (h : e.overflow = none) : e.check = .ok () := by
  rw [Emits.check, h]

theorem overflow_pushAll {e : Emits} (h : e.overflow ≠ none)
    (log : List (Nat × List (String × Value))) : (e.pushAll log).overflow ≠ none := by
  rw [(Emits.pushAll_columns e log).2]
  exact Emits.overflow_useColumns h _

/-- The error of a body, or that of its columns. -/
def rowResult (out : BodyResult) (emits : Emits) : Except Error Unit :=
  match out.error with
  | some e => .error e
  | none => emits.check

/-- A row fails, and then so does every block that it starts, or it has room for its emits. -/
theorem rowResult_cases (out : BodyResult) (emits : Emits)
    (first : List (Nat × List (String × Value))) :
    (∃ e, rowResult out (emits.pushAll first) = .error e ∧
      ∀ (ok : Prop) log,
        ¬ ((out.error = none ∧ ok) ∧ (emits.pushAll (first ++ log)).overflow = none)) ∨
    (rowResult out (emits.pushAll first) = .ok () ∧ out.error = none ∧
      (emits.pushAll first).overflow = none) := by
  rw [rowResult]
  cases herr : out.error with
  | some e =>
    refine .inl ⟨e, rfl, ?_⟩
    rintro ok log ⟨⟨hnone, -⟩, -⟩
    cases hnone
  | none =>
    cases hroom : (emits.pushAll first).overflow with
    | none => exact .inr ⟨check_eq_ok hroom, rfl, rfl⟩
    | some name =>
      obtain ⟨e, hcheck⟩ : ∃ e, (emits.pushAll first).check = .error e := by
        rw [Emits.check, hroom]
        exact ⟨_, rfl⟩
      refine .inl ⟨e, hcheck, ?_⟩
      rintro ok log ⟨-, hnone⟩
      rw [pushAll_append] at hnone
      exact overflow_pushAll (by rw [hroom]; simp) _ hnone

variable (v) in
/-- One row of a group in memory. -/
theorem processRow_eq {r : ReducerEngine} (emits : Emits) (item : (Row × Nat) × Nat)
    (h : item.2 < r.all.length) :
    r.processRow v emits item.2 item.1.2 item.1.1
      = ({ r with all := runItem v r.all item },
          emits.pushAll ((v.body (valuesOf v r.all item.2) item.1.1).emits.map (item.1.2, ·)),
          rowResult (v.body (valuesOf v r.all item.2) item.1.1) (emits.pushAll
            ((v.body (valuesOf v r.all item.2) item.1.1).emits.map (item.1.2, ·)))) := by
  obtain ⟨g, hg⟩ : ∃ g, r.all[item.2]? = some g := ⟨_, List.getElem?_eq_getElem h⟩
  have hvalue : valuesOf v r.all item.2 = g.value := by
    rw [valuesOf, hg]
    rfl
  rw [processRow, hg, hvalue, Emits.pushAll, List.foldl_map]
  dsimp only
  rw [runBody_body, rowResult]
  cases (v.body g.value item.1.1).error <;> rfl

/-- **Rows of groups in memory, in the order given.** -/
theorem processItems_outcome (key : Row → Nat) (items : List ((Row × Nat) × Nat))
    (hkey : ∀ item ∈ items, item.2 = key item.1.1) (r : ReducerEngine) (emits : Emits)
    (hids : ∀ item ∈ items, item.2 < r.all.length) (hover : emits.overflow = none) :
    Outcome emits (BodySucceeds v key (valuesOf v r.all) (items.map Prod.fst))
      { r with all := items.foldl (runItem v) r.all } (emissions v key (valuesOf v r.all) (items.map Prod.fst))
      (processItems v items r emits) := by
  induction items generalizing r emits with
  | nil => exact .done trivial hover
  | cons item items ih =>
    obtain ⟨⟨row, index⟩, id⟩ := item
    have hid : id < r.all.length := hids ((row, index), id) (by simp)
    have hk : id = key row := hkey ((row, index), id) (by simp)
    have hrow := processRow_eq v emits ((row, index), id) hid
    dsimp only at hrow
    rw [processItems, hrow, List.map_cons, emissions, BodySucceeds, List.foldl_cons, ← hk]
    generalize (v.body (valuesOf v r.all id) row).emits.map (index, ·) = first
    rcases rowResult_cases (v.body (valuesOf v r.all id) row) emits first with
      ⟨e, herr, hnot⟩ | ⟨hok, hbody, hroom⟩
    · rw [herr]
      exact .failed (hnot _ _) rfl
    · rw [hok]
      have hrest := ih (fun item hitem => hkey item (List.mem_cons_of_mem _ hitem))
        { r with all := runItem v r.all ((row, index), id) } (emits.pushAll first)
        (fun item hitem => by
          have := hids item (List.mem_cons_of_mem _ hitem)
          simpa [runItem] using this) hroom
      have hvalues := valuesOf_runItem v ((row, index), id) hid
      dsimp only at hrest hvalues
      rw [hvalues] at hrest
      exact hrest.after (by simp [hbody])

/-! ## Loading commutes with the rows before -/

/-- The ids point at groups in memory. -/
def InRange (r : ReducerEngine) : Prop :=
  ∀ (k : List UInt8) (id : Nat), r.ids[k]? = some id → id < r.all.length

/-- A change of one group and of the index of the blocks. -/
def patch (r : ReducerEngine) (id : Nat) (f : ReducerGroup → ReducerGroup)
    (blockGroups : BTreeMap BlockNumber (List Nat)) : ReducerEngine :=
  { r with all := r.all.modify id f, blockGroups := blockGroups }

theorem groupId_spec {r r₁ : ReducerEngine} {k : List UInt8} {id : Nat} (h : r.InRange)
    (hid : r.groupId v st k = .ok (r₁, id)) :
    r₁.InRange ∧ r₁.ids[k]? = some id ∧
    (∀ (k' : List UInt8) (id' : Nat), r.ids[k']? = some id' → r₁.ids[k']? = some id') ∧
    ∃ more, r₁ = { r with all := r.all ++ more, ids := r₁.ids } := by
  unfold groupId at hid
  cases hk : r.ids[k]? with
  | some id' =>
    rw [hk] at hid
    cases hid
    exact ⟨h, hk, fun _ _ h => h, [], by simp⟩
  | none =>
    rw [hk] at hid
    dsimp only at hid
    split at hid
    · cases hid
    · cases hid
      refine ⟨?_, by simp, ?_, _, rfl⟩
      · intro k' id' hk'
        simp only [List.length_append, List.length_singleton]
        dsimp only at hk'
        rw [ExtTreeMap.getElem?_insert] at hk'
        split at hk'
        · cases hk'
          omega
        · have := h k' id' hk'
          omega
      · intro k' id' hk'
        dsimp only
        rw [ExtTreeMap.getElem?_insert]
        split
        · next heq =>
          rw [← Std.compare_eq_iff_eq.mp heq, hk] at hk'
          cases hk'
        · exact hk'

theorem modify_append_of_lt {all : List ReducerGroup} {id : Nat} (h : id < all.length)
    (f : ReducerGroup → ReducerGroup) (more : List ReducerGroup) :
    (all ++ more).modify id f = all.modify id f ++ more := by
  apply List.ext_getElem?
  intro j
  rw [List.getElem?_modify, List.getElem?_append, List.getElem?_append, List.length_modify]
  by_cases hj : j < all.length
  · rw [if_pos hj, if_pos hj, List.getElem?_modify]
  · have hne : id ≠ j := by omega
    rw [if_neg hj, if_neg hj]
    simp [hne]

theorem groupId_patch {r : ReducerEngine} {id : Nat} (h : id < r.all.length)
    (f : ReducerGroup → ReducerGroup) (blockGroups : BTreeMap BlockNumber (List Nat))
    (k : List UInt8) :
    (r.patch id f blockGroups).groupId v st k
      = (r.groupId v st k).map fun x => (x.1.patch id f blockGroups, x.2) := by
  unfold groupId
  have hids : (r.patch id f blockGroups).ids = r.ids := rfl
  have hload : (r.patch id f blockGroups).loadState v st k = r.loadState v st k := rfl
  rw [hids, hload]
  cases r.ids[k]? with
  | some id' => rfl
  | none =>
    cases r.loadState v st k with
    | error e => rfl
    | ok loaded =>
      dsimp only [Except.map, patch]
      rw [modify_append_of_lt h, List.length_modify]

variable (v) (st) (ids) in
/-- **Loading the groups of later rows commutes with a change of a group in memory.** -/
theorem loadGroups_patch {r : ReducerEngine} {id : Nat} (h : id < r.all.length) (hr : r.InRange)
    (f : ReducerGroup → ReducerGroup) (blockGroups : BTreeMap BlockNumber (List Nat))
    (rows : List Row) :
    loadGroups v st ids rows (r.patch id f blockGroups)
      = ((loadGroups v st ids rows r).1.patch id f blockGroups,
          (loadGroups v st ids rows r).2) := by
  induction rows generalizing r with
  | nil => rfl
  | cons row rows ih =>
    rw [loadGroups, loadGroups, groupId_patch h]
    cases hid : r.groupId v st (groupKey ids row) with
    | error e => rfl
    | ok x =>
      obtain ⟨r₁, id₁⟩ := x
      obtain ⟨hr₁, -, -, more, hmore⟩ := groupId_spec hr hid
      have hlen : id < r₁.all.length := by
        rw [hmore]
        simp only [List.length_append]
        omega
      dsimp only [Except.map]
      rw [ih hlen hr₁]
      rcases loadGroups v st ids rows r₁ with ⟨r₂, e | groups⟩
      · rfl
      · rfl

/-- What loading leaves in place. -/
theorem loadGroups_spec {r r₁ : ReducerEngine} {groups : List Nat} (rows : List Row)
    (hr : r.InRange) (hload : loadGroups v st ids rows r = (r₁, .ok groups)) :
    r₁.InRange ∧
    (∀ (k : List UInt8) (id : Nat), r.ids[k]? = some id → r₁.ids[k]? = some id) ∧
    (∃ more, r₁ = { r with all := r.all ++ more, ids := r₁.ids }) ∧
    List.Forall₂ (fun row id => r₁.ids[groupKey ids row]? = some id) rows groups := by
  induction rows generalizing r r₁ groups with
  | nil =>
    rw [loadGroups] at hload
    cases hload
    exact ⟨hr, fun _ _ h => h, ⟨[], by simp⟩, .nil⟩
  | cons row rows ih =>
    rw [loadGroups] at hload
    cases hid : r.groupId v st (groupKey ids row) with
    | error e =>
      rw [hid] at hload
      cases hload
    | ok x =>
      obtain ⟨r₂, id⟩ := x
      obtain ⟨hr₂, hk₂, hkeep₂, more₂, hmore₂⟩ := groupId_spec hr hid
      rw [hid] at hload
      dsimp only at hload
      rcases hrest : loadGroups v st ids rows r₂ with ⟨r₃, e | groups'⟩
      · rw [hrest] at hload
        cases hload
      · rw [hrest] at hload
        cases hload
        obtain ⟨hr₃, hkeep₃, ⟨more₃, hmore₃⟩, hall⟩ := ih hr₂ hrest
        refine ⟨hr₃, fun k id' hk => hkeep₃ k id' (hkeep₂ k id' hk), ⟨more₂ ++ more₃, ?_⟩,
          .cons (hkeep₃ _ _ hk₂) hall⟩
        rw [hmore₃, hmore₂]
        simp

/-! ## The path row by row -/

/-- `blockGroups` after the first change of `g`, at `id`, in a block. -/
def trackGroup (block : BlockNumber) (blockGroups : BTreeMap BlockNumber (List Nat)) (id : Nat)
    (g : ReducerGroup) : BTreeMap BlockNumber (List Nat) :=
  if g.undo.lastBlock = some block then blockGroups
  else blockGroups.insert block (blockGroups[block]?.getD [] ++ [id])

theorem change_eq {r : ReducerEngine} {id : Nat} {g : ReducerGroup} (hg : r.all[id]? = some g) :
    r.change block id
      = r.patch id (changeGroup block) (trackGroup block r.blockGroups id g) := by
  unfold change trackGroup patch
  rw [hg]
  dsimp only
  split
  · next hlast =>
    have hself : r.all.modify id (changeGroup block) = r.all := by
      apply List.ext_getElem?
      intro j
      rw [List.getElem?_modify]
      by_cases hj : id = j
      · subst hj
        simp [hg, changeGroup, hlast]
      · simp [hj]
    rw [hself]
  · rfl

/-- A row on the path row by row: the first change of its group, and the body. -/
def runRow (v : ReducerShape) (block : BlockNumber) (r : ReducerEngine)
    (item : (Row × Nat) × Nat) : ReducerEngine :=
  { r.change block item.2 with all := runItem v (r.change block item.2).all item }

variable (v) (block) in
theorem runRow_eq {r : ReducerEngine} (item : (Row × Nat) × Nat) {g : ReducerGroup}
    (hg : r.all[item.2]? = some g) :
    runRow v block r item
      = r.patch item.2 (fun g => (runBody v (changeGroup block g) item.1.1).1)
          (trackGroup block r.blockGroups item.2 g) := by
  rw [runRow, change_eq hg, patch, patch, runItem]
  dsimp only
  rw [List.modify_modify_eq]
  rfl

theorem valuesOf_change (r : ReducerEngine) (id : Nat) :
    valuesOf v (r.change block id).all = valuesOf v r.all := by
  funext j
  cases hg : r.all[id]? with
  | none =>
    rw [change, hg]
  | some g =>
    rw [change_eq hg, valuesOf, valuesOf, patch, List.getElem?_modify]
    by_cases hj : id = j
    · subst hj
      simp [hg, changeGroup_value]
    · simp [hj]

theorem length_change (r : ReducerEngine) (id : Nat) :
    (r.change block id).all.length = r.all.length := by
  unfold change
  split
  · rfl
  · split <;> simp

theorem emitGrowth_change (r : ReducerEngine) (id : Nat) :
    (r.change block id).emitGrowth = r.emitGrowth := by
  unfold change
  split
  · rfl
  · split <;> rfl

theorem emitGrowth_runRow (r : ReducerEngine) (item : (Row × Nat) × Nat) :
    (runRow v block r item).emitGrowth = r.emitGrowth :=
  emitGrowth_change r item.2

theorem emitGrowth_foldl_runRow (items : List ((Row × Nat) × Nat)) (r : ReducerEngine) :
    (items.foldl (runRow v block) r).emitGrowth = r.emitGrowth := by
  induction items generalizing r with
  | nil => rfl
  | cons item items ih => rw [List.foldl_cons, ih, emitGrowth_runRow]

theorem inRange_change {r : ReducerEngine} (h : r.InRange) (id : Nat) :
    (r.change block id).InRange := by
  intro k id' hk
  rw [length_change]
  refine h k id' ?_
  rw [← hk, change]
  split
  · rfl
  · split <;> rfl

theorem inRange_runRow {r : ReducerEngine} (h : r.InRange) (item : (Row × Nat) × Nat) :
    (runRow v block r item).InRange := by
  intro k id hk
  have := inRange_change h item.2 k id hk
  simpa [runRow, runItem] using this

theorem valuesOf_append {all : List ReducerGroup} {id : Nat} (h : id < all.length)
    (more : List ReducerGroup) : valuesOf v (all ++ more) id = valuesOf v all id := by
  rw [valuesOf, valuesOf, List.getElem?_append_left h]

variable (v) (st) (block) (ids) in
/-- **The path row by row**, once the groups of all rows load. -/
theorem processPerRow_outcome (key : Row → Nat) (rows : List (Row × Nat)) {r r₁ : ReducerEngine}
    {groups : List Nat} (hr : r.InRange)
    (hload : loadGroups v st ids (rows.map Prod.fst) r = (r₁, .ok groups))
    (hkey : ∀ item ∈ rows.zip groups, item.2 = key item.1.1) (emits : Emits)
    (hover : emits.overflow = none) :
    Outcome emits (BodySucceeds v key (valuesOf v r₁.all) rows)
      ((rows.zip groups).foldl (runRow v block) r₁) (emissions v key (valuesOf v r₁.all) rows)
      (processPerRow v st block ids rows r emits) := by
  induction rows generalizing r r₁ groups emits with
  | nil =>
    rw [List.map_nil, loadGroups] at hload
    cases hload
    exact .done trivial hover
  | cons e rows ih =>
    obtain ⟨row, index⟩ := e
    rw [List.map_cons, loadGroups] at hload
    dsimp only at hload
    cases hid : r.groupId v st (groupKey ids row) with
    | error e =>
      rw [hid] at hload
      cases hload
    | ok x =>
      obtain ⟨r₂, id⟩ := x
      rw [hid] at hload
      dsimp only at hload
      rcases hrest : loadGroups v st ids (rows.map Prod.fst) r₂ with ⟨r₃, e | groups'⟩
      · rw [hrest] at hload
        cases hload
      rw [hrest] at hload
      cases hload
      obtain ⟨hr₂, hk₂, -, -⟩ := groupId_spec hr hid
      obtain ⟨-, -, ⟨more, hmore⟩, -⟩ := loadGroups_spec _ hr₂ hrest
      have hlt : id < r₂.all.length := hr₂ _ _ hk₂
      have hkid : id = key row := hkey ((row, index), id) (by simp)
      obtain ⟨g, hg⟩ : ∃ g, r₂.all[id]? = some g := ⟨_, List.getElem?_eq_getElem hlt⟩
      have hg₁ : r₁.all[id]? = some g := by
        rw [hmore]
        dsimp only
        rw [List.getElem?_append_left hlt, hg]
      have hbg : r₁.blockGroups = r₂.blockGroups := by rw [hmore]
      have hlt₁ : id < r₁.all.length := (List.getElem?_eq_some_iff.mp hg₁).1
      -- the row, on the engine that loaded its group and on the one that loaded all
      have hrow := processRow_eq v (r := r₂.change block id) emits ((row, index), id)
        (by rw [length_change]; exact hlt)
      have hvalue : valuesOf v r₂.all id = valuesOf v r₁.all id := by
        rw [hmore]
        exact (valuesOf_append hlt more).symm
      dsimp only at hrow
      rw [valuesOf_change, hvalue] at hrow
      have hpatch := loadGroups_patch v st ids hlt hr₂
        (fun g => (runBody v (changeGroup block g) row).1)
        (trackGroup block r₂.blockGroups id g) (rows.map Prod.fst)
      have hrun₂ := runRow_eq v block ((row, index), id) hg
      have hrun₁ := runRow_eq v block ((row, index), id) hg₁
      dsimp only at hrun₁ hrun₂
      rw [hbg] at hrun₁
      rw [← hrun₂, hrest] at hpatch
      dsimp only at hpatch
      rw [← hrun₁] at hpatch
      have hvalues : valuesOf v (runRow v block r₁ ((row, index), id)).all
          = Function.update (valuesOf v r₁.all) id (v.step (valuesOf v r₁.all id) row) := by
        rw [runRow]
        dsimp only
        rw [valuesOf_runItem v _ (by rw [length_change]; exact hlt₁), valuesOf_change]
      rw [processPerRow, hid]
      dsimp only
      rw [hrow, emissions, BodySucceeds, List.zip_cons_cons, List.foldl_cons, ← hkid]
      generalize (v.body (valuesOf v r₁.all id) row).emits.map (index, ·) = first
      rcases rowResult_cases (v.body (valuesOf v r₁.all id) row) emits first with
        ⟨e, herr, hnot⟩ | ⟨hok, hbody, hroom⟩
      · rw [herr]
        refine .failed (hnot _ _) ?_
        rw [emitGrowth_foldl_runRow, emitGrowth_runRow, hmore]
        exact emitGrowth_change r₂ id
      · rw [hok]
        dsimp only
        have hnext := ih (inRange_runRow hr₂ _) hpatch
          (fun item hitem => hkey item (by simp [hitem])) (emits.pushAll first) hroom
        rw [hvalues] at hnext
        exact hnext.after (by simp [hbody])

variable (v) (st) (block) (ids) in
/-- A group that does not load fails the path row by row. -/
theorem processPerRow_load_error (rows : List (Row × Nat)) {r r₁ : ReducerEngine} {e : Error}
    (hr : r.InRange) (hload : loadGroups v st ids (rows.map Prod.fst) r = (r₁, .error e))
    (emits : Emits) :
    ∃ r' emits' e', processPerRow v st block ids rows r emits = (r', emits', .error e') ∧
      r'.emitGrowth = r.emitGrowth := by
  induction rows generalizing r r₁ emits with
  | nil =>
    rw [List.map_nil, loadGroups] at hload
    cases hload
  | cons entry rows ih =>
    obtain ⟨row, index⟩ := entry
    rw [List.map_cons, loadGroups] at hload
    dsimp only at hload
    rw [processPerRow]
    cases hid : r.groupId v st (groupKey ids row) with
    | error e' => exact ⟨r, emits, e', rfl, rfl⟩
    | ok x =>
      obtain ⟨r₂, id⟩ := x
      rw [hid] at hload
      dsimp only at hload ⊢
      obtain ⟨hr₂, hk₂, -, more, hmore⟩ := groupId_spec hr hid
      have hlt : id < r₂.all.length := hr₂ _ _ hk₂
      obtain ⟨g, hg⟩ : ∃ g, r₂.all[id]? = some g := ⟨_, List.getElem?_eq_getElem hlt⟩
      have hrow := processRow_eq v (r := r₂.change block id) emits ((row, index), id)
        (by rw [length_change]; exact hlt)
      dsimp only at hrow
      rw [hrow]
      have hgrowth : (runRow v block r₂ ((row, index), id)).emitGrowth = r.emitGrowth := by
        rw [emitGrowth_runRow, hmore]
      generalize v.body (valuesOf v (r₂.change block id).all id) row = out
      generalize out.emits.map (index, ·) = first
      rcases rowResult_cases out emits first with ⟨e', herr, -⟩ | ⟨hok, -, -⟩
      · rw [herr]
        exact ⟨_, _, _, rfl, hgrowth⟩
      · rw [hok]
        dsimp only
        -- the groups of the rest do not load either
        have hpatch := loadGroups_patch v st ids hlt hr₂
          (fun g => (runBody v (changeGroup block g) row).1)
          (trackGroup block r₂.blockGroups id g) (rows.map Prod.fst)
        rcases hrest : loadGroups v st ids (rows.map Prod.fst) r₂ with ⟨r₃, e₃ | groups⟩
        · have hrun := runRow_eq v block ((row, index), id) hg
          dsimp only at hrun
          rw [← hrun, hrest] at hpatch
          rw [hrest] at hload
          cases hload
          obtain ⟨r', emits', e', heq, hg'⟩ :=
            ih (inRange_runRow hr₂ _) hpatch (emits.pushAll first)
          exact ⟨r', emits', e', heq, hg'.trans hgrowth⟩
        · rw [hrest] at hload
          cases hload

/-! ## The path group by group -/

/-- The groups have no change above `block`. -/
def NotAbove (block : BlockNumber) (r : ReducerEngine) : Prop :=
  ∀ (id : Nat) (g : ReducerGroup), r.all[id]? = some g → ∀ b ∈ g.undo.toMap, b ≤ block

/-- The group at `id` has its change of the block. -/
def Changed (block : BlockNumber) (r : ReducerEngine) (id : Nat) : Prop :=
  ∃ g, r.all[id]? = some g ∧ g.undo.lastBlock = some block

/-- The body of a row on the group in memory. -/
def runOn (v : ReducerShape) (r : ReducerEngine) (item : (Row × Nat) × Nat) : ReducerEngine :=
  { r with all := runItem v r.all item }

theorem lastBlock_changeGroup {g : ReducerGroup} (h : ∀ b ∈ g.undo.toMap, b ≤ block) :
    (changeGroup block g).undo.lastBlock = some block := by
  unfold changeGroup
  split
  · assumption
  · rw [Blocks.lastBlock_eq, Blocks.toMap_insert]
    have heq : g.undo.toMap.insert block g.state
        = (OrdMap.keep g.undo.toMap (· < block)).insert block g.state := by
      ext b s
      have := h b
      grind
    rw [heq, OrdMap.toList_insert_of_lt (by intro b hb; grind)]
    simp

theorem getElem?_change (r : ReducerEngine) (id j : Nat) :
    (r.change block id).all[j]?
      = if id = j then r.all[j]?.map (changeGroup block) else r.all[j]? := by
  cases hg : r.all[id]? with
  | none =>
    rw [change, hg]
    dsimp only
    split
    · next heq => rw [← heq, hg]; rfl
    · rfl
  | some g =>
    rw [change_eq hg, patch, List.getElem?_modify]
    by_cases hj : id = j <;> simp [hj]

theorem changed_change {r : ReducerEngine} {id : Nat} (h : NotAbove block r)
    (hlt : id < r.all.length) : Changed block (r.change block id) id := by
  obtain ⟨g, hg⟩ : ∃ g, r.all[id]? = some g := ⟨_, List.getElem?_eq_getElem hlt⟩
  refine ⟨changeGroup block g, ?_, lastBlock_changeGroup (h id g hg)⟩
  rw [getElem?_change, if_pos rfl, hg]
  rfl

theorem Changed.change {r : ReducerEngine} {j : Nat} (h : Changed block r j) (id : Nat) :
    Changed block (r.change block id) j := by
  obtain ⟨g, hg, hlast⟩ := h
  rw [Changed, getElem?_change, hg]
  split
  · refine ⟨_, rfl, ?_⟩
    rw [changeGroup, if_pos hlast]
    exact hlast
  · exact ⟨g, rfl, hlast⟩

theorem NotAbove.change {r : ReducerEngine} (h : NotAbove block r) (id : Nat) :
    NotAbove block (r.change block id) := by
  intro j g hg b hb
  rw [getElem?_change] at hg
  split at hg
  · obtain ⟨g₀, hg₀, rfl⟩ := Option.map_eq_some_iff.mp hg
    unfold changeGroup at hb
    split at hb
    · exact h j g₀ hg₀ b hb
    · have := h j g₀ hg₀ b
      dsimp only at hb
      rw [Blocks.toMap_insert] at hb
      grind
  · exact h j g hg b hb

theorem getElem?_runOn (r : ReducerEngine) (item : (Row × Nat) × Nat) (j : Nat) :
    (runOn v r item).all[j]?
      = if item.2 = j then r.all[j]?.map fun g => (runBody v g item.1.1).1 else r.all[j]? := by
  rw [runOn, runItem, List.getElem?_modify]
  by_cases hj : item.2 = j <;> simp [hj]

theorem NotAbove.runOn {r : ReducerEngine} (h : NotAbove block r) (item : (Row × Nat) × Nat) :
    NotAbove block (runOn v r item) := by
  intro j g hg b hb
  rw [getElem?_runOn] at hg
  split at hg
  · obtain ⟨g₀, hg₀, rfl⟩ := Option.map_eq_some_iff.mp hg
    exact h j g₀ hg₀ b hb
  · exact h j g hg b hb

theorem Changed.change_eq {r : ReducerEngine} {id : Nat} (h : Changed block r id) :
    r.change block id = r := by
  obtain ⟨g, hg, hlast⟩ := h
  rw [ReducerEngine.change, hg]
  exact if_pos hlast

/-- **The first change of a group commutes with a row of a group that has its change.** -/
theorem change_runOn {r : ReducerEngine} {item : (Row × Nat) × Nat}
    (h : Changed block r item.2) (id : Nat) :
    (runOn v r item).change block id = runOn v (r.change block id) item := by
  by_cases hid : id = item.2
  · subst hid
    have hrun : Changed block (runOn v r item) item.2 := by
      obtain ⟨g, hg, hlast⟩ := h
      refine ⟨(runBody v g item.1.1).1, ?_, hlast⟩
      rw [getElem?_runOn, if_pos rfl, hg]
      rfl
    rw [hrun.change_eq, h.change_eq]
  · cases hg : r.all[id]? with
    | none =>
      have hg' : (runOn v r item).all[id]? = none := by
        rw [getElem?_runOn, if_neg (Ne.symm hid), hg]
      rw [ReducerEngine.change, hg', ReducerEngine.change, hg]
    | some g =>
      have hg' : (runOn v r item).all[id]? = some g := by
        rw [getElem?_runOn, if_neg (Ne.symm hid), hg]
      rw [ReducerEngine.change_eq hg', ReducerEngine.change_eq hg, runOn, runOn, patch, patch,
        runItem, runItem]
      dsimp only
      rw [List.modify_modify_ne _ _ _ (Ne.symm hid)]

theorem foldl_change_runOn {r : ReducerEngine} {item : (Row × Nat) × Nat}
    (h : Changed block r item.2) (groups : List Nat) :
    groups.foldl (fun r id => r.change block id) (runOn v r item)
      = runOn v (groups.foldl (fun r id => r.change block id) r) item := by
  induction groups generalizing r with
  | nil => rfl
  | cons id groups ih => rw [List.foldl_cons, List.foldl_cons, change_runOn h, ih (h.change id)]

/-- The rows one by one, as the first changes of their groups and then the rows. -/
theorem foldl_runRow_eq (items : List ((Row × Nat) × Nat)) {r : ReducerEngine}
    (hids : ∀ item ∈ items, item.2 < r.all.length) (h : NotAbove block r) :
    items.foldl (runRow v block) r
      = items.foldl (runOn v) ((items.map Prod.snd).foldl (fun r id => r.change block id) r) := by
  induction items generalizing r with
  | nil => rfl
  | cons item items ih =>
    have hlt := hids item (by simp)
    have hchanged := changed_change h hlt
    have hrun : runRow v block r item = runOn v (r.change block item.2) item := rfl
    rw [List.foldl_cons, List.map_cons, List.foldl_cons, List.foldl_cons, hrun, ih]
    · rw [foldl_change_runOn hchanged]
    · intro item' hitem'
      have := hids item' (by simp [hitem'])
      simpa [runOn, runItem, length_change] using this
    · exact (h.change item.2).runOn item

/-- A group that has its change is skipped. -/
theorem foldl_change_filter {r : ReducerEngine} {id : Nat} (h : Changed block r id)
    (groups : List Nat) :
    groups.foldl (fun r id => r.change block id) r
      = (groups.filter (· != id)).foldl (fun r id => r.change block id) r := by
  induction groups generalizing r with
  | nil => rfl
  | cons j groups ih =>
    by_cases hj : j = id
    · subst hj
      rw [List.filter_cons_of_neg (by simp), List.foldl_cons, h.change_eq]
      exact ih h
    · rw [List.filter_cons_of_pos (by simpa using hj), List.foldl_cons, List.foldl_cons]
      exact ih (h.change j)

theorem foldl_change_firstUses (groups : List Nat) {r : ReducerEngine}
    (hids : ∀ id ∈ groups, id < r.all.length) (h : NotAbove block r) :
    groups.foldl (fun r id => r.change block id) r
      = (firstUses groups).foldl (fun r id => r.change block id) r := by
  induction groups generalizing r with
  | nil => rfl
  | cons id groups ih =>
    have hchanged := changed_change h (hids id (by simp))
    rw [firstUses, List.foldl_cons, List.foldl_cons, ← foldl_change_filter hchanged]
    refine ih ?_ (h.change id)
    intro j hj
    rw [length_change]
    exact hids j (by simp [hj])

/-- **The groups after rows in some order**: each group ran its own rows. -/
theorem getElem?_foldl_runItem (items : List ((Row × Nat) × Nat)) (all : List ReducerGroup)
    (id : Nat) :
    (items.foldl (runItem v) all)[id]?
      = all[id]?.map fun g => (items.filter (·.2 == id)).foldl
          (fun g item => (runBody v g item.1.1).1) g := by
  induction items generalizing all with
  | nil => simp
  | cons item items ih =>
    rw [List.foldl_cons, ih, runItem, List.getElem?_modify]
    by_cases hid : item.2 = id
    · rw [List.filter_cons_of_pos (by simpa using hid)]
      simp only [hid, ↓reduceIte, Option.map_eq_map, Option.map_map]
      rfl
    · rw [List.filter_cons_of_neg (by simpa using hid)]
      simp [hid]

theorem foldl_runOn_eq (items : List ((Row × Nat) × Nat)) (r : ReducerEngine) :
    items.foldl (runOn v) r = { r with all := items.foldl (runItem v) r.all } := by
  induction items generalizing r with
  | nil => rfl
  | cons item items ih => rw [List.foldl_cons, ih, List.foldl_cons, runOn]

/-- The rows group by group keep the rows of each group. -/
theorem filter_groupedRows {items : List ((Row × Nat) × Nat)} {groups : List Nat}
    (h : ∀ item ∈ items, item.2 ∈ groups) (id : Nat) :
    (groupedRows items (firstUses groups)).filter (·.2 == id) = items.filter (·.2 == id) := by
  have hother : ∀ j, j ≠ id →
      (items.filter (·.2 == j)).filter (·.2 == id) = [] := by
    intro j hj
    rw [List.filter_filter, List.filter_eq_nil_iff]
    intro item _
    simp only [Bool.and_eq_true, beq_iff_eq, not_and]
    intro h₁ h₂
    exact hj (h₂.symm.trans h₁)
  rw [groupedRows, List.filter_flatMap]
  by_cases hid : id ∈ groups
  · rw [flatMap_eq_of_unique (nodup_firstUses groups) (mem_firstUses.mpr hid)
      fun j _ hj => hother j hj, List.filter_filter]
    simp
  · have hnone : items.filter (·.2 == id) = [] := by
      rw [List.filter_eq_nil_iff]
      intro item hitem
      simp only [beq_iff_eq]
      rintro rfl
      exact hid (h item hitem)
    rw [hnone, List.flatMap_eq_nil_iff]
    intro j hj
    refine hother j ?_
    rintro rfl
    exact hid (mem_firstUses.mp hj)

/-- Both orders leave the same groups. -/
theorem foldl_runItem_groupedRows {items : List ((Row × Nat) × Nat)} {groups : List Nat}
    (h : ∀ item ∈ items, item.2 ∈ groups) (all : List ReducerGroup) :
    (groupedRows items (firstUses groups)).foldl (runItem v) all
      = items.foldl (runItem v) all := by
  apply List.ext_getElem?
  intro id
  rw [getElem?_foldl_runItem, getElem?_foldl_runItem, filter_groupedRows h]

/-! ## A block -/

theorem length_foldl_change (groups : List Nat) (r : ReducerEngine) :
    (groups.foldl (fun r id => r.change block id) r).all.length = r.all.length := by
  induction groups generalizing r with
  | nil => rfl
  | cons id groups ih => rw [List.foldl_cons, ih, length_change]

theorem valuesOf_foldl_change (groups : List Nat) (r : ReducerEngine) :
    valuesOf v (groups.foldl (fun r id => r.change block id) r).all = valuesOf v r.all := by
  induction groups generalizing r with
  | nil => rfl
  | cons id groups ih => rw [List.foldl_cons, ih, valuesOf_change]

theorem emitGrowth_foldl_change (groups : List Nat) (r : ReducerEngine) :
    (groups.foldl (fun r id => r.change block id) r).emitGrowth = r.emitGrowth := by
  induction groups generalizing r with
  | nil => rfl
  | cons id groups ih => rw [List.foldl_cons, ih, emitGrowth_change]

variable (v) (st) (ids) in
/-- Loading does not see the index of the blocks. -/
theorem loadGroups_blockGroups (blockGroups : BTreeMap BlockNumber (List Nat)) (rows : List Row)
    (r : ReducerEngine) :
    loadGroups v st ids rows { r with blockGroups := blockGroups }
      = ({ (loadGroups v st ids rows r).1 with blockGroups := blockGroups },
          (loadGroups v st ids rows r).2) := by
  induction rows generalizing r with
  | nil => rfl
  | cons row rows ih =>
    have hid : groupId v { r with blockGroups := blockGroups } st (groupKey ids row)
        = (r.groupId v st (groupKey ids row)).map fun x =>
            ({ x.1 with blockGroups := blockGroups }, x.2) := by
      unfold groupId
      have hload : loadState v { r with blockGroups := blockGroups } st (groupKey ids row)
          = r.loadState v st (groupKey ids row) := rfl
      rw [hload]
      dsimp only
      cases r.ids[groupKey ids row]? with
      | some id => rfl
      | none => cases r.loadState v st (groupKey ids row) <;> rfl
    rw [loadGroups, loadGroups, hid]
    cases r.groupId v st (groupKey ids row) with
    | error e => rfl
    | ok x =>
      dsimp only [Except.map]
      rw [ih]
      rcases loadGroups v st ids rows x.1 with ⟨r₂, e | groups⟩ <;> rfl

variable (v) (st) (ids) in
theorem emitGrowth_loadGroups (rows : List Row) (r : ReducerEngine) :
    (loadGroups v st ids rows r).1.emitGrowth = r.emitGrowth := by
  induction rows generalizing r with
  | nil => rfl
  | cons row rows ih =>
    rw [loadGroups]
    cases hid : r.groupId v st (groupKey ids row) with
    | error e => rfl
    | ok x =>
      have hx : x.1.emitGrowth = r.emitGrowth := by
        unfold groupId at hid
        split at hid
        · cases hid
          rfl
        · split at hid
          · cases hid
          · cases hid
            rfl
      dsimp only
      rw [← hx, ← ih x.1]
      rcases loadGroups v st ids rows x.1 with ⟨r₂, e | groups⟩ <;> rfl

/-- The groups of the rows by their keys, once they are loaded. -/
def idOf (ids : List (Option Nat)) (r : ReducerEngine) (row : Row) : Nat :=
  r.ids[groupKey ids row]?.getD 0

/-- The rows of a block with their groups, in the order of the path. -/
def blockOrder (v : ReducerShape) (rows : List Row) (groups : List Nat) :
    List ((Row × Nat) × Nat) :=
  if v.runtime.batched then groupedRows (rows.zipIdx.zip groups) (firstUses groups)
  else rows.zipIdx.zip groups

/-- What a block emits, in the order of the path, once its groups are loaded. -/
def blockLog (v : ReducerShape) (r₁ : ReducerEngine) (rows : List Row) (groups : List Nat) :
    List (Nat × List (String × Value)) :=
  emissions v (idOf (groupByIds v rows) r₁) (valuesOf v r₁.all)
    ((blockOrder v rows groups).map Prod.fst)

/-- The groups after a block. -/
def blockEngine (v : ReducerShape) (block : BlockNumber) (r₁ : ReducerEngine) (rows : List Row)
    (groups : List Nat) : ReducerEngine :=
  (rows.zipIdx.zip groups).foldl (runOn v) (groups.foldl (fun r id => r.change block id)
    { r₁ with blockGroups := r₁.blockGroups.insertIfNew block [] })

/-- What `process_block` returns when its rows leave `emits`. -/
def endBlock (v : ReducerShape) (r final : ReducerEngine) (block : BlockNumber) (rows : List Row)
    (emits : Emits) : ReducerEngine × Except Error (List Row) :=
  ({ final with
      columns := emits.columns
      emitGrowth := if r.columns.length < emits.columns.length then
        final.emitGrowth.insertIfNew block r.columns.length else final.emitGrowth },
    .ok (takeOutput (groupByIds v rows) rows emits))

theorem item_idOf {r r₁ : ReducerEngine} {rows : List Row} {groups : List Nat} (hr : r.InRange)
    (hload : loadGroups v st ids rows r = (r₁, .ok groups)) :
    (∀ item ∈ rows.zipIdx.zip groups, item.2 = idOf ids r₁ item.1.1) ∧
    (∀ id ∈ groups, id < r₁.all.length) ∧ rows.length = groups.length := by
  obtain ⟨hr₁, -, -, hall⟩ := loadGroups_spec rows hr hload
  have hlen := hall.length_eq
  have hget : ∀ i (hi : i < rows.length) (hi' : i < groups.length),
      r₁.ids[groupKey ids (rows.get ⟨i, hi⟩)]? = some (groups.get ⟨i, hi'⟩) :=
    (List.forall₂_iff_get.mp hall).2
  refine ⟨?_, ?_, hlen⟩
  · intro item hitem
    obtain ⟨i, hi, heq⟩ := List.getElem_of_mem hitem
    have hi₁ : i < rows.length := by
      simp at hi
      omega
    have := hget i hi₁ (by omega)
    rw [← heq, idOf]
    simp only [List.getElem_zip, List.getElem_zipIdx]
    simp only [List.get_eq_getElem] at this
    rw [this]
    rfl
  · intro id hid
    obtain ⟨i, hi, heq⟩ := List.getElem_of_mem hid
    have := hget i (by omega) hi
    rw [← heq]
    exact hr₁ _ _ this

/-- A group that just loaded has no change. -/
theorem NotAbove.groupId {r r₁ : ReducerEngine} {k : List UInt8} {id : Nat}
    (h : NotAbove block r) (hid : r.groupId v st k = .ok (r₁, id)) : NotAbove block r₁ := by
  unfold ReducerEngine.groupId at hid
  split at hid
  · cases hid
    exact h
  · split at hid
    · cases hid
    · cases hid
      intro j g hg b hb
      dsimp only at hg
      rw [List.getElem?_append] at hg
      split at hg
      · exact h j g hg b hb
      · rw [List.getElem?_singleton] at hg
        split at hg
        · cases hg
          simp at hb
        · cases hg

theorem NotAbove.loadGroups {r r₁ : ReducerEngine} {rows : List Row} {groups : List Nat}
    (h : NotAbove block r) (hload : loadGroups v st ids rows r = (r₁, .ok groups)) :
    NotAbove block r₁ := by
  induction rows generalizing r r₁ groups with
  | nil =>
    rw [ReducerEngine.loadGroups] at hload
    cases hload
    exact h
  | cons row rows ih =>
    rw [ReducerEngine.loadGroups] at hload
    cases hid : r.groupId v st (groupKey ids row) with
    | error e =>
      rw [hid] at hload
      cases hload
    | ok x =>
      rw [hid] at hload
      dsimp only at hload
      rcases hrest : ReducerEngine.loadGroups v st ids rows x.1 with ⟨r₂, e | groups'⟩
      · rw [hrest] at hload
        cases hload
      · rw [hrest] at hload
        cases hload
        exact ih (h.groupId hid) hrest

variable (v) (st) in
/-- **A block on either path**, from any state whose groups have no change above it: when its
groups load, it ends with each group having run its own rows, or fails because the body or the
columns of the emits fail. -/
theorem processBlock_outcome {r r₁ : ReducerEngine} {rows : List Row} {groups : List Nat}
    (hr : r.InRange) (hna : NotAbove block r)
    (hload : loadGroups v st (groupByIds v rows) rows r = (r₁, .ok groups)) :
    (BodySucceeds v (idOf (groupByIds v rows) r₁) (valuesOf v r₁.all)
        ((blockOrder v rows groups).map Prod.fst) ∧
      (Emits.pushAll { columns := r.columns } (blockLog v r₁ rows groups)).overflow = none ∧
      r.processBlock v st block rows = endBlock v r (blockEngine v block r₁ rows groups) block rows
        (Emits.pushAll { columns := r.columns } (blockLog v r₁ rows groups))) ∨
    (¬ (BodySucceeds v (idOf (groupByIds v rows) r₁) (valuesOf v r₁.all)
        ((blockOrder v rows groups).map Prod.fst) ∧
      (Emits.pushAll { columns := r.columns } (blockLog v r₁ rows groups)).overflow = none) ∧
      ∃ r' e, r.processBlock v st block rows = (r', .error e) ∧ r'.columns = r.columns ∧
        r'.emitGrowth = r.emitGrowth) := by
  obtain ⟨hkey, hids, hlen⟩ := item_idOf hr hload
  obtain ⟨-, -, ⟨more, hmore⟩, -⟩ := loadGroups_spec rows hr hload
  have hload' := loadGroups_blockGroups v st (groupByIds v rows)
    (r.blockGroups.insertIfNew block []) rows r
  rw [hload] at hload'
  have hbg : r₁.blockGroups = r.blockGroups := by rw [hmore]
  dsimp only at hload'
  rw [← hbg] at hload'
  set loaded : ReducerEngine := { r₁ with blockGroups := r₁.blockGroups.insertIfNew block [] }
    with hloaded
  have hna₁ : NotAbove block r₁ := hna.loadGroups hload
  have hnal : NotAbove block loaded := hna₁
  have hidsl : ∀ id ∈ groups, id < loaded.all.length := hids
  have hitems : ∀ item ∈ rows.zipIdx.zip groups, item.2 ∈ groups :=
    fun item hitem => (List.of_mem_zip hitem).2
  have hout : Outcome { columns := r.columns }
      (BodySucceeds v (idOf (groupByIds v rows) r₁) (valuesOf v r₁.all)
        ((blockOrder v rows groups).map Prod.fst))
      (blockEngine v block r₁ rows groups) (blockLog v r₁ rows groups)
      (if v.runtime.batched then
        processBatched v st block rows (groupByIds v rows) r { columns := r.columns }
      else processPerRow v st block (groupByIds v rows) rows.zipIdx
        { r with blockGroups := r.blockGroups.insertIfNew block [] } { columns := r.columns }) := by
    rw [blockLog, blockOrder, blockEngine, ← hloaded]
    by_cases hb : v.runtime.batched
    · -- group by group
      rw [if_pos hb, if_pos hb, processBatched, hload]
      dsimp only
      rw [processGrouped_eq, ← hloaded, ← foldl_change_firstUses groups hidsl hnal]
      have hout := processItems_outcome (v := v) (idOf (groupByIds v rows) r₁)
        (groupedRows (rows.zipIdx.zip groups) (firstUses groups))
        (fun item hitem => by
          obtain ⟨id, -, hitem⟩ := List.mem_flatMap.mp hitem
          exact hkey item (List.mem_filter.mp hitem).1)
        (groups.foldl (fun r id => r.change block id) loaded) { columns := r.columns }
        (fun item hitem => by
          obtain ⟨id, -, hitem⟩ := List.mem_flatMap.mp hitem
          rw [length_foldl_change]
          exact hidsl _ (hitems item (List.mem_filter.mp hitem).1)) rfl
      rw [valuesOf_foldl_change, foldl_runItem_groupedRows hitems] at hout
      rw [foldl_runOn_eq]
      exact hout
    · -- row by row
      rw [if_neg hb, if_neg hb]
      have hfst : (rows.zipIdx.zip groups).map Prod.fst = rows.zipIdx :=
        List.map_fst_zip (by simp [hlen])
      have hsnd : (rows.zipIdx.zip groups).map Prod.snd = groups :=
        List.map_snd_zip (by simp [hlen])
      have hr' : InRange { r with blockGroups := r₁.blockGroups.insertIfNew block [] } := hr
      have hout := processPerRow_outcome v st block (groupByIds v rows) (idOf (groupByIds v rows) r₁) rows.zipIdx hr'
        (by rw [List.zipIdx_map_fst]; exact hload') hkey { columns := r.columns } rfl
      rw [foldl_runRow_eq _ (fun item hitem => hidsl _ (hitems item hitem)) hnal, hsnd] at hout
      rw [hfst, ← hbg]
      exact hout
  have hgrowth : (blockEngine v block r₁ rows groups).emitGrowth = r.emitGrowth := by
    rw [blockEngine, foldl_runOn_eq]
    dsimp only
    rw [emitGrowth_foldl_change, hmore]
  rw [processBlock]
  generalize (if v.runtime.batched = true then _ else _ :
    ReducerEngine × Emits × Except Error Unit) = processed at hout ⊢
  cases hout with
  | done hok hroom => exact .inl ⟨hok, hroom, rfl⟩
  | failed hnot hgrow => exact .inr ⟨hnot, _, _, rfl, rfl, hgrow.trans hgrowth⟩

variable (v) (st) (block) in
/-- A block whose groups do not load fails, on either path. -/
theorem processBlock_load_error {r r₁ : ReducerEngine} {rows : List Row} {e : Error}
    (hr : r.InRange) (hload : loadGroups v st (groupByIds v rows) rows r = (r₁, .error e)) :
    ∃ r' e', r.processBlock v st block rows = (r', .error e') ∧ r'.columns = r.columns ∧
      r'.emitGrowth = r.emitGrowth := by
  have hgrowth : r₁.emitGrowth = r.emitGrowth := by
    rw [← emitGrowth_loadGroups v st (groupByIds v rows) rows r, hload]
  rw [processBlock]
  by_cases hb : v.runtime.batched
  · rw [if_pos hb, processBatched, hload]
    exact ⟨_, _, rfl, rfl, hgrowth⟩
  · rw [if_neg hb]
    have hr' : InRange { r with blockGroups := r.blockGroups.insertIfNew block [] } := hr
    have hload' := loadGroups_blockGroups v st (groupByIds v rows)
      (r.blockGroups.insertIfNew block []) rows r
    rw [hload] at hload'
    obtain ⟨r', emits', e', heq, hg⟩ := processPerRow_load_error v st block
      (groupByIds v rows) rows.zipIdx hr'
      (by rw [List.zipIdx_map_fst]; exact hload') { columns := r.columns }
    rw [heq]
    exact ⟨_, _, rfl, rfl, hg⟩

end ReducerEngine

/-! ## The two paths agree -/

/-- The same reducer on the path group by group, or row by row. -/
def ReducerShape.withPath (v : ReducerShape) (batched : Bool) : ReducerShape :=
  { v with runtime := { v.runtime with batched := batched } }

namespace ReducerEngine

variable {v : ReducerShape} {st : Store} {block : BlockNumber} {ids : List (Option Nat)}

theorem loadMapEntries_withPath (batched : Bool) (entries : List (MapKey × Datum))
    (maps : StateMaps) :
    loadMapEntries (v.withPath batched) entries maps = loadMapEntries v entries maps := by
  induction entries generalizing maps with
  | nil => rfl
  | cons e entries ih =>
    obtain ⟨key, datum⟩ := e
    cases datum with
    | value value =>
      rw [loadMapEntries, loadMapEntries, ih]
      rfl
    | _ => rfl

theorem groupId_withPath (batched : Bool) (r : ReducerEngine) (k : List UInt8) :
    r.groupId (v.withPath batched) st k = r.groupId v st k := by
  have hload : r.loadState (v.withPath batched) st k = r.loadState v st k := by
    unfold loadState
    simp only [loadMapEntries_withPath]
    rfl
  rw [groupId, groupId, hload]

theorem loadGroups_withPath (batched : Bool) (rows : List Row) (r : ReducerEngine) :
    loadGroups (v.withPath batched) st ids rows r = loadGroups v st ids rows r := by
  induction rows generalizing r with
  | nil => rfl
  | cons row rows ih =>
    rw [loadGroups, loadGroups, groupId_withPath]
    simp only [ih]

theorem emissions_withPath (batched : Bool) (key : Row → Nat) (base : Nat → GroupValue)
    (rows : List (Row × Nat)) :
    emissions (v.withPath batched) key base rows = emissions v key base rows := by
  induction rows generalizing base with
  | nil => rfl
  | cons e rows ih =>
    obtain ⟨row, index⟩ := e
    rw [emissions, emissions, ih]
    rfl

theorem bodySucceeds_of_total
    (h : ∀ values maps row, (v.runtime.process values maps row).error = none) (key : Row → Nat)
    (base : Nat → GroupValue) (rows : List (Row × Nat)) : BodySucceeds v key base rows := by
  induction rows generalizing base with
  | nil => trivial
  | cons e rows ih => exact ⟨h _ _ _, ih _⟩

/-- The emits of the path row by row, and those of the path group by group in row order. -/
theorem blockLog_paths {r₁ : ReducerEngine} {rows : List Row} {groups : List Nat}
    (hkey : ∀ item ∈ rows.zipIdx.zip groups, item.2 = idOf (groupByIds v rows) r₁ item.1.1)
    (hids : ∀ id ∈ groups, id < r₁.all.length) (hlen : rows.length = groups.length)
    (batched : Bool) :
    (blockLog (v.withPath batched) r₁ rows groups).mergeSort (fun a b => a.1 ≤ b.1)
      = blockLog (v.withPath false) r₁ rows groups ∧
    ∀ entry ∈ blockLog (v.withPath batched) r₁ rows groups, entry.1 < rows.length := by
  set key := idOf (groupByIds v rows) r₁ with hkeydef
  have hfst : (rows.zipIdx.zip groups).map Prod.fst = rows.zipIdx :=
    List.map_fst_zip (by simp [hlen])
  have hall : List.Forall₂ (fun row id => (List.range r₁.all.length)[id]? = some (key row))
      rows groups := by
    refine List.forall₂_iff_get.mpr ⟨hlen, ?_⟩
    intro i h₁ h₂
    have hid := hids (groups.get ⟨i, h₂⟩) (List.get_mem ..)
    have hmem : ((rows.get ⟨i, h₁⟩, i), groups.get ⟨i, h₂⟩) ∈ rows.zipIdx.zip groups := by
      refine List.mem_iff_getElem?.mpr ⟨i, ?_⟩
      simp [h₁, h₂]
    have := hkey _ hmem
    dsimp only at this
    rw [List.getElem?_range hid, ← this]
  have hgrouped := (keepsGroups_groupedRows List.nodup_range hall).1
  have hkeeps : KeepsGroups key rows ((blockOrder (v.withPath batched) rows groups).map Prod.fst) := by
    rw [blockOrder]
    split
    · exact hgrouped
    · rw [hfst]
      exact ⟨fun _ h => h, fun _ => rfl⟩
  have hself : (blockOrder (v.withPath false) rows groups).map Prod.fst = rows.zipIdx := by
    rw [blockOrder, if_neg (by simp [ReducerShape.withPath])]
    exact hfst
  refine ⟨?_, ?_⟩
  · rw [blockLog, blockLog, hself, emissions_withPath, emissions_withPath]
    exact mergeSort_emissions hkeeps
  · intro entry hentry
    rw [blockLog, emissions_withPath] at hentry
    obtain ⟨e, he, heq⟩ := emissions_mem hentry
    have hrow := hkeeps.mem e he
    rw [List.mem_zipIdx_iff_getElem?] at hrow
    rw [← heq]
    exact (List.getElem?_eq_some_iff.mp hrow).1

/-- How many columns a log adds does not depend on its order. -/
theorem room_iff_of_perm (columns : List String) {log log' : List (Nat × List (String × Value))}
    (h : log.Perm log') :
    (addNames columns (logNames log)).Perm (addNames columns (logNames log')) ∧
    ((Emits.pushAll { columns := columns } log).overflow = none ↔
      (Emits.pushAll { columns := columns } log').overflow = none) := by
  have hperm : (addNames columns (logNames log)).Perm (addNames columns (logNames log')) := by
    refine addNames_perm ?_
    intro n
    exact (h.flatMap_right _).mem_iff
  refine ⟨hperm, ?_⟩
  have hself : ∀ names, addNames columns names = columns ↔
      (addNames columns names).length = columns.length := by
    intro names
    constructor
    · intro heq
      rw [heq]
    · intro heq
      exact ((prefix_addNames columns names).eq_of_length heq.symm).symm
  rw [(Emits.pushAll_overflow rfl log).1, (Emits.pushAll_overflow rfl log').1]
  dsimp only
  rw [hself, hself, hperm.length_eq]

/-- The output of a block that succeeds, by column name. -/
theorem takeOutput_blockLog {r r₁ : ReducerEngine} {rows : List Row} {groups : List Nat}
    (hcols : v.groupBy <+: r.columns)
    (hkey : ∀ item ∈ rows.zipIdx.zip groups, item.2 = idOf (groupByIds v rows) r₁ item.1.1)
    (hids : ∀ id ∈ groups, id < r₁.all.length) (hlen : rows.length = groups.length)
    (batched : Bool)
    (hroom : (Emits.pushAll { columns := r.columns }
      (blockLog (v.withPath batched) r₁ rows groups)).overflow = none) :
    (takeOutput (groupByIds v rows) rows (Emits.pushAll { columns := r.columns }
        (blockLog (v.withPath batched) r₁ rows groups))).map
        (fun row name => SourceRow.column row name)
      = (blockLog (v.withPath false) r₁ rows groups).map (emittedRow v rows) := by
  obtain ⟨hsort, hlt⟩ := blockLog_paths hkey hids hlen batched
  have hempty : EmitsRep { columns := r.columns } [] := .nil
  obtain ⟨hrep, hpre, -⟩ := Emits.pushAll_rep hempty _ hroom
  exact takeOutput_spec hrep (hcols.trans hpre) hlt hsort

end ReducerEngine

/-- **The two paths of a reducer agree.** For a body that never fails and any state of the engine
whose group-by columns come first and whose groups have no change above the block: one path
succeeds exactly when the other does, and then they leave the same groups with the same STATE
values, MAP entries and undo data, the same block-to-group index and the same columns but for
their order, and the same rows in the same order, by column name. -/
theorem paths_agree (v : ReducerShape)
    (hbody : ∀ values maps row, (v.runtime.process values maps row).error = none)
    (r : ReducerEngine) (st : Store) (block : BlockNumber) (rows : List Row) (hr : r.InRange)
    (hna : ReducerEngine.NotAbove block r) (hcols : v.groupBy <+: r.columns) :
    ((∃ out, (r.processBlock (v.withPath true) st block rows).2 = .ok out) ↔
      ∃ out, (r.processBlock (v.withPath false) st block rows).2 = .ok out) ∧
    ∀ out out', (r.processBlock (v.withPath true) st block rows).2 = .ok out →
      (r.processBlock (v.withPath false) st block rows).2 = .ok out' →
      { (r.processBlock (v.withPath true) st block rows).1 with
          columns := (r.processBlock (v.withPath false) st block rows).1.columns }
        = (r.processBlock (v.withPath false) st block rows).1 ∧
      (r.processBlock (v.withPath true) st block rows).1.columns.Perm
        (r.processBlock (v.withPath false) st block rows).1.columns ∧
      out.map (fun row name => SourceRow.column row name)
        = out'.map fun row name => SourceRow.column row name := by
  have hids : ∀ batched, ReducerEngine.groupByIds (v.withPath batched) rows
      = ReducerEngine.groupByIds v rows := fun _ => rfl
  rcases hload : ReducerEngine.loadGroups v st (ReducerEngine.groupByIds v rows) rows r with
    ⟨r₁, e | groups⟩
  · -- a group does not load: both fail
    have hfail : ∀ batched, ∃ r' e', r.processBlock (v.withPath batched) st block rows
        = (r', .error e') := by
      intro batched
      obtain ⟨r', e', heq, -⟩ := ReducerEngine.processBlock_load_error (v.withPath batched)
        st block hr (by rw [hids, ReducerEngine.loadGroups_withPath, hload])
      exact ⟨r', e', heq⟩
    obtain ⟨r', e', heq⟩ := hfail true
    obtain ⟨r'', e'', heq'⟩ := hfail false
    rw [heq, heq']
    simp
  · obtain ⟨hkey, hlt, hlen⟩ := ReducerEngine.item_idOf hr hload
    have hsucceeds : ∀ batched (key : Row → Nat) base order,
        BodySucceeds (v.withPath batched) key base order :=
      fun batched => ReducerEngine.bodySucceeds_of_total hbody
    have hcase : ∀ batched, _ := fun batched =>
      ReducerEngine.processBlock_outcome (v.withPath batched) st hr hna
        (by rw [hids, ReducerEngine.loadGroups_withPath, hload])
    have hperm : (ReducerEngine.blockLog (v.withPath true) r₁ rows groups).Perm
        (ReducerEngine.blockLog (v.withPath false) r₁ rows groups) := by
      rw [← (ReducerEngine.blockLog_paths hkey hlt hlen true).1]
      exact (List.mergeSort_perm _ _).symm
    obtain ⟨hcolsPerm, hroom⟩ := ReducerEngine.room_iff_of_perm r.columns hperm
    by_cases hok : (Emits.pushAll { columns := r.columns }
        (ReducerEngine.blockLog (v.withPath false) r₁ rows groups)).overflow = none
    · -- both succeed
      have hdone : ∀ batched, (Emits.pushAll { columns := r.columns }
            (ReducerEngine.blockLog (v.withPath batched) r₁ rows groups)).overflow = none →
          r.processBlock (v.withPath batched) st block rows
            = ReducerEngine.endBlock v r (ReducerEngine.blockEngine v block r₁ rows groups) block
                rows (Emits.pushAll { columns := r.columns }
                  (ReducerEngine.blockLog (v.withPath batched) r₁ rows groups)) := by
        intro batched hover
        rcases hcase batched with ⟨-, -, heq⟩ | ⟨hnot, -⟩
        · exact heq
        · exact absurd ⟨hsucceeds batched _ _ _, hover⟩ hnot
      have hover := hroom.mpr hok
      rw [hdone true hover, hdone false hok]
      have hcolumns : ∀ batched, (Emits.pushAll { columns := r.columns }
            (ReducerEngine.blockLog (v.withPath batched) r₁ rows groups)).overflow = none →
          (Emits.pushAll { columns := r.columns }
            (ReducerEngine.blockLog (v.withPath batched) r₁ rows groups)).columns
            = addNames r.columns
                (logNames (ReducerEngine.blockLog (v.withPath batched) r₁ rows groups)) :=
        fun batched => (Emits.pushAll_overflow rfl _).2
      refine ⟨⟨fun _ => ⟨_, rfl⟩, fun _ => ⟨_, rfl⟩⟩, ?_⟩
      intro out out' hout hout'
      cases hout
      cases hout'
      refine ⟨?_, ?_, ?_⟩
      · simp only [ReducerEngine.endBlock, hcolumns true hover, hcolumns false hok,
          hcolsPerm.length_eq]
      · show (Emits.columns _).Perm (Emits.columns _)
        rw [hcolumns true hover, hcolumns false hok]
        exact hcolsPerm
      · rw [ReducerEngine.takeOutput_blockLog hcols hkey hlt hlen true hover,
          ReducerEngine.takeOutput_blockLog hcols hkey hlt hlen false hok]
    · -- both fail
      have hfail : ∀ batched, (Emits.pushAll { columns := r.columns }
            (ReducerEngine.blockLog (v.withPath batched) r₁ rows groups)).overflow ≠ none →
          ∃ r' e', r.processBlock (v.withPath batched) st block rows = (r', .error e') := by
        intro batched hover
        rcases hcase batched with ⟨-, hnone, -⟩ | ⟨-, r', e', heq, -⟩
        · exact absurd hnone hover
        · exact ⟨r', e', heq⟩
      obtain ⟨r', e', heq⟩ := hfail true (mt hroom.mp hok)
      obtain ⟨r'', e'', heq'⟩ := hfail false hok
      rw [heq, heq']
      simp

/-! ### Rows of two groups in turn

A reducer that counts the rows of each user, and emits under the name of the user. -/

/-- The user of a row. -/
def userOf (row : Row) : String :=
  match SourceRow.column row "user" with
  | .string user => user
  | _ => ""

def countPerUser : ReducerShape where
  name := "counts"
  source := "trades"
  groupBy := ["user"]
  defaultState := [.uint64 0]
  mapFields := 0
  runtime :=
    { process := fun values _ row =>
        { values := values.map fun
            | .uint64 n => .uint64 (n + 1)
            | value => value
          maps := []
          emits := if userOf row = "bob" then [[(userOf row, .uint64 1)]] else []
          error := none }
      batched := false
      values_length := by simp
      maps_mem := by simp }

def userRow (user : String) : Row := ⟨⟨["user"]⟩, [.string user]⟩

/-- The rows of a new engine agree on both paths. -/
theorem paths_agree_new_engine :
    ∃ out out',
      ((ReducerEngine.new countPerUser {}).processBlock (countPerUser.withPath true) {} 1
        [userRow "alice", userRow "bob", userRow "alice"]).2 = .ok out ∧
      ((ReducerEngine.new countPerUser {}).processBlock (countPerUser.withPath false) {} 1
        [userRow "alice", userRow "bob", userRow "alice"]).2 = .ok out' ∧
      out.map (fun row name => SourceRow.column row name)
        = out'.map fun row name => SourceRow.column row name := by
  have hr : (ReducerEngine.new countPerUser {}).InRange := by
    intro k id hk
    simp [ReducerEngine.new] at hk
  have hna : ReducerEngine.NotAbove 1 (ReducerEngine.new countPerUser {}) := by
    intro id g hg
    simp [ReducerEngine.new] at hg
  obtain ⟨hiff, hsame⟩ := paths_agree countPerUser (fun _ _ _ => rfl)
    (ReducerEngine.new countPerUser {}) {} 1 [userRow "alice", userRow "bob", userRow "alice"] hr
    hna (List.prefix_refl _)
  have hok : ∃ out, ((ReducerEngine.new countPerUser {}).processBlock
      (countPerUser.withPath false) {} 1
      [userRow "alice", userRow "bob", userRow "alice"]).2 = .ok out := by
    have hisOk : ((ReducerEngine.new countPerUser {}).processBlock
        (countPerUser.withPath false) {} 1
        [userRow "alice", userRow "bob", userRow "alice"]).2.isOk = true := by decide +kernel
    rcases hres : ((ReducerEngine.new countPerUser {}).processBlock
      (countPerUser.withPath false) {} 1
      [userRow "alice", userRow "bob", userRow "alice"]).2 with e | out
    · rw [hres] at hisOk
      cases hisOk
    · exact ⟨out, rfl⟩
  obtain ⟨out', hout'⟩ := hok
  obtain ⟨out, hout⟩ := hiff.mpr ⟨out', hout'⟩
  exact ⟨out, out', hout, hout', (hsame out out' hout hout').2.2⟩

/-- An engine whose emits have used 1024 columns. -/
def fullColumns : ReducerEngine where
  readsStorage := false
  columns := ["user"] ++ (List.range 1023).map toString

/-- A block that fails for its columns leaves the two paths at different rows, until its ingest is
undone: row by row the error comes before the second row of the first group. -/
theorem failed_paths_differ :
    ¬ ∀ (v : ReducerShape), (∀ values maps row, (v.runtime.process values maps row).error = none) →
      ∀ (r : ReducerEngine) (st : Store) (block : BlockNumber) (rows : List Row), r.InRange →
        ReducerEngine.NotAbove block r → v.groupBy <+: r.columns →
        (r.processBlock (v.withPath true) st block rows).1.all.map ReducerGroup.state
          = (r.processBlock (v.withPath false) st block rows).1.all.map ReducerGroup.state := by
  intro hall
  have hr : fullColumns.InRange := by
    intro k id hk
    simp [fullColumns] at hk
  have hna : ReducerEngine.NotAbove 1 fullColumns := by
    intro id g hg
    simp [fullColumns] at hg
  have hsame := hall countPerUser (fun _ _ _ => rfl) fullColumns {} 1
    [userRow "alice", userRow "bob", userRow "alice"] hr hna (List.prefix_append _ _)
  have hdiffer : ¬ (fullColumns.processBlock (countPerUser.withPath true) {} 1
        [userRow "alice", userRow "bob", userRow "alice"]).1.all.map ReducerGroup.state
      = (fullColumns.processBlock (countPerUser.withPath false) {} 1
        [userRow "alice", userRow "bob", userRow "alice"]).1.all.map ReducerGroup.state := by
    decide +kernel
  exact hdiffer hsame

end Settle
