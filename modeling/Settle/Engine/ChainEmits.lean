import Settle.Engine.EmitColumns
import Settle.Engine.ReducerRuns

/-!
# The emits of a chain

What a block emits is a function of the chain below it: the fold of its groups, and the rows in
the order of the path (`chainLog`). So a block on a state of a run succeeds, and names its columns,
as the chain says (`Inv.processBlock`), and its output is a function of its log and the columns
that the block ends with (`takeOutput_congr`).
-/

namespace Settle

open Std

/-! ## Blocks by group key -/

/-- The distinct keys, in order of first use. -/
def firstKeys : List (List UInt8) → List (List UInt8)
  | [] => []
  | k :: rest => k :: (firstKeys rest).filter (· != k)

theorem map_firstUses {f : Nat → List UInt8} {groups : List Nat}
    (h : ∀ a ∈ groups, ∀ b ∈ groups, f a = f b → a = b) :
    (ReducerEngine.firstUses groups).map f = firstKeys (groups.map f) := by
  induction groups with
  | nil => rfl
  | cons id groups ih =>
    rw [ReducerEngine.firstUses, List.map_cons, List.map_cons, firstKeys,
      ← ih fun a ha b hb => h a (by simp [ha]) b (by simp [hb]), List.filter_map]
    congr 2
    apply List.filter_congr
    intro j hj
    have hmem := ReducerEngine.mem_firstUses.mp hj
    by_cases heq : j = id
    · simp [heq]
    · have hne : f j ≠ f id := fun hf => heq (h j (by simp [hmem]) id (by simp) hf)
      show (j != id) = (f j != f id)
      rw [bne_iff_ne.mpr heq, bne_iff_ne.mpr hne]

/-- Another name for the groups gives the same emits. -/
theorem emissions_rekey {v : ReducerShape} {κ κ' : Type} [DecidableEq κ] [DecidableEq κ']
    {key : Row → κ} {key' : Row → κ'} {base : κ → GroupValue} {base' : κ' → GroupValue}
    {rows : List (Row × Nat)} (hvalue : ∀ e ∈ rows, base (key e.1) = base' (key' e.1))
    (hkey : ∀ e ∈ rows, ∀ e' ∈ rows, key e.1 = key e'.1 ↔ key' e.1 = key' e'.1) :
    emissions v key base rows = emissions v key' base' rows ∧
    (BodySucceeds v key base rows ↔ BodySucceeds v key' base' rows) := by
  induction rows generalizing base base' with
  | nil => exact ⟨rfl, Iff.rfl⟩
  | cons e rows ih =>
    obtain ⟨row, index⟩ := e
    have hrow : base (key row) = base' (key' row) := hvalue (row, index) (by simp)
    have hrest := @ih (Function.update base (key row) (v.step (base (key row)) row))
      (Function.update base' (key' row) (v.step (base' (key' row)) row)) (by
        intro e he
        have hiff := hkey e (by simp [he]) (row, index) (by simp)
        dsimp only at hiff
        by_cases heq : key e.1 = key row
        · rw [heq, hiff.mp heq, Function.update_self, Function.update_self, hrow]
        · rw [Function.update_of_ne heq, Function.update_of_ne (mt hiff.mpr heq)]
          exact hvalue e (by simp [he]))
      (fun e he e' he' => hkey e (by simp [he]) e' (by simp [he']))
    rw [emissions, emissions, BodySucceeds, BodySucceeds, hrest.1, hrest.2, hrow]
    exact ⟨rfl, Iff.rfl⟩

namespace ReducerShape

variable (v : ReducerShape)

/-- The group of a row of a block. -/
def keyIn (rows : List Row) (row : Row) : List UInt8 :=
  ReducerEngine.groupKey (ReducerEngine.groupByIds v rows) row

/-- The rows of a block in the order of the path. -/
def pathOrder (rows : List Row) : List (Row × Nat) :=
  if v.runtime.batched then
    (firstKeys (rows.map (v.keyIn rows))).flatMap fun k =>
      rows.zipIdx.filter fun e => v.keyIn rows e.1 == k
  else rows.zipIdx

/-- What a block above a chain emits, in the order of the path. -/
def chainLog (blocks : Chain Row) (rows : List Row) : List (Nat × List (String × Value)) :=
  emissions v (v.keyIn rows) (v.fold blocks) (v.pathOrder rows)

/-- The body succeeds on a block above a chain. -/
def ChainSucceeds (blocks : Chain Row) (rows : List Row) : Prop :=
  BodySucceeds v (v.keyIn rows) (v.fold blocks) (v.pathOrder rows)

variable {v}

theorem pathOrder_mem {rows : List Row} {e : Row × Nat} (h : e ∈ v.pathOrder rows) :
    e.1 ∈ rows := by
  have hmem : e ∈ rows.zipIdx := by
    rw [pathOrder] at h
    split at h
    · obtain ⟨k, -, hk⟩ := List.mem_flatMap.mp h
      exact (List.mem_filter.mp hk).1
    · exact h
  rw [List.mem_zipIdx_iff_getElem?] at hmem
  exact List.mem_of_getElem? hmem

/-- The order of the path, by ids and by keys. -/
theorem map_fst_blockOrder {rows : List Row} {groups : List Nat} {keys : List (List UInt8)}
    (hkeys : keys.Nodup)
    (hall : List.Forall₂ (fun row id => keys[id]? = some (v.keyIn rows row)) rows groups) :
    (ReducerEngine.blockOrder v rows groups).map Prod.fst = v.pathOrder rows := by
  have hlen : rows.length = groups.length := hall.length_eq
  have hfst : (rows.zipIdx.zip groups).map Prod.fst = rows.zipIdx :=
    List.map_fst_zip (by simp [hlen])
  rw [ReducerEngine.blockOrder, pathOrder]
  split
  · have hid := (keepsGroups_groupedRows hkeys hall).2
    set f : Nat → List UInt8 := fun id => keys[id]?.getD [] with hf
    have hlt : ∀ id ∈ groups, id < keys.length := by
      intro id hmem
      obtain ⟨i, hi, rfl⟩ := List.getElem_of_mem hmem
      have := (List.forall₂_iff_get.mp hall).2 i (by omega) hi
      exact (List.getElem?_eq_some_iff.mp this).1
    have hinj : ∀ a ∈ groups, ∀ b ∈ groups, f a = f b → a = b := by
      intro a ha b hb heq
      have ha' := hlt a ha
      have hb' := hlt b hb
      rw [hf] at heq
      dsimp only at heq
      rw [List.getElem?_eq_getElem ha', List.getElem?_eq_getElem hb'] at heq
      exact (List.Nodup.getElem_inj_iff hkeys).mp heq
    have hmap : groups.map f = rows.map (v.keyIn rows) := by
      refine List.ext_getElem (by simp [hlen]) ?_
      intro i h₁ h₂
      simp only [List.length_map] at h₁ h₂
      have := (List.forall₂_iff_get.mp hall).2 i h₂ h₁
      simp only [List.get_eq_getElem] at this
      simp [hf, this]
    rw [← hmap, ← map_firstUses hinj, List.flatMap_map, ReducerEngine.groupedRows,
      List.map_flatMap]
    refine List.flatMap_congr ?_
    intro id hmem
    have hmem := ReducerEngine.mem_firstUses.mp hmem
    -- the rows of an id are those of its key
    have hfilter : (rows.zipIdx.zip groups).filter (fun e => e.2 == id)
        = (rows.zipIdx.zip groups).filter fun e => v.keyIn rows e.1.1 == f id := by
      apply List.filter_congr
      intro e he
      have hkey : f e.2 = v.keyIn rows e.1.1 := by
        rw [hf]
        dsimp only
        rw [hid e he]
        rfl
      rw [← hkey]
      by_cases heq : e.2 = id
      · simp [heq]
      · have hne : f e.2 ≠ f id := fun h => heq (hinj _ (List.of_mem_zip he).2 _ hmem h)
        simp [heq, hne]
    rw [hfilter]
    conv_rhs => rw [← hfst, List.filter_map]
    rfl
  · exact hfst

end ReducerShape

/-! ## A block on a state of a run -/

/-- The columns have room for the names. -/
def HasRoom (columns names : List String) : Prop :=
  addNames columns names = columns ∨ (addNames columns names).length ≤ maxEmitColumns

namespace ReducerWorld

variable {v : ReducerShape} {w : ReducerWorld}

theorem Inv.inRange (h : w.Inv v) : w.engine.InRange := by
  intro k id hk
  obtain ⟨g, hg, -⟩ := (h.engine.ids k id).mp hk
  exact (List.getElem?_eq_some_iff.mp hg).1

theorem Inv.notAbove (h : w.Inv v) {block : BlockNumber} (hnew : ∀ b ∈ w.blocks, b < block) :
    ReducerEngine.NotAbove block w.engine := by
  intro id g hg b hb
  have hwork := (((h.engine.groups id g hg).blocks b).mp hb).1
  exact UInt64.le_of_lt (hnew b (ReducerShape.mem_of_mem_works hwork))

/-- **The groups of a block load, and what the block emits is a function of the chain below it.** -/
theorem Inv.loadGroups (h : w.Inv v) {block : BlockNumber} (hnew : ∀ b ∈ w.blocks, b < block)
    (rows : List Row) :
    ∃ (r₁ : ReducerEngine) (groups : List Nat),
      ReducerEngine.loadGroups v w.store (ReducerEngine.groupByIds v rows) rows w.engine
        = (r₁, .ok groups) ∧
      ReducerEngine.blockLog v r₁ rows groups = v.chainLog w.blocks rows ∧
      (BodySucceeds v (ReducerEngine.idOf (ReducerEngine.groupByIds v rows) r₁)
        (ReducerEngine.valuesOf v r₁.all)
        ((ReducerEngine.blockOrder v rows groups).map Prod.fst) ↔
        v.ChainSucceeds w.blocks rows) := by
  obtain ⟨r₁, groups, hload, hmid, -, -, -, hall⟩ :=
    (h.start hnew).loadGroups (ReducerEngine.groupByIds v rows) rows
  have hload : ReducerEngine.loadGroups v w.store (ReducerEngine.groupByIds v rows) rows w.engine
      = (r₁, .ok groups) := hload
  have hinv := hmid.inv
  rw [addBlock_none] at hinv
  -- every row of the block has its group in memory
  have hrow : ∀ row ∈ rows, ∃ g : ReducerGroup,
      r₁.all[ReducerEngine.idOf (ReducerEngine.groupByIds v rows) r₁ row]? = some g ∧
        g.key = v.keyIn rows row := by
    intro row hmem
    obtain ⟨-, -, -, hids⟩ := ReducerEngine.loadGroups_spec rows h.inRange hload
    obtain ⟨i, hi, rfl⟩ := List.getElem_of_mem hmem
    have hid := (List.forall₂_iff_get.mp hids).2 i hi (by rw [← hids.length_eq]; exact hi)
    obtain ⟨g, hg, hkey⟩ := (hinv.ids _ _).mp hid
    simp only [List.get_eq_getElem] at hid hkey
    refine ⟨g, ?_, hkey⟩
    rw [ReducerEngine.idOf, hid]
    exact hg
  have horder := ReducerShape.map_fst_blockOrder hinv.nodup_keys hall
  have hrekey := @emissions_rekey v Nat (List UInt8) _ _
    (ReducerEngine.idOf (ReducerEngine.groupByIds v rows) r₁) (v.keyIn rows)
    (ReducerEngine.valuesOf v r₁.all) (v.fold w.blocks) (v.pathOrder rows) (by
      intro e he
      obtain ⟨g, hg, hkey⟩ := hrow e.1 (ReducerShape.pathOrder_mem he)
      obtain ⟨hstate, hmaps⟩ := (hinv.groups _ g hg).current
      rw [ReducerEngine.valuesOf, hg, ← hkey, ← ReducerShape.value_works]
      show g.value = v.value (v.works w.blocks g.key)
      rw [ReducerGroup.value, hstate, funext hmaps]) (by
      intro e he e' he'
      obtain ⟨g, hg, hkey⟩ := hrow e.1 (ReducerShape.pathOrder_mem he)
      obtain ⟨g', hg', hkey'⟩ := hrow e'.1 (ReducerShape.pathOrder_mem he')
      constructor
      · intro heq
        rw [heq, hg'] at hg
        rw [← hkey, ← hkey', Option.some.inj hg]
      · intro heq
        rw [← hkey, ← hkey'] at heq
        exact hinv.id_unique hg hg' heq)
  refine ⟨r₁, groups, hload, ?_, ?_⟩
  · rw [ReducerEngine.blockLog, horder]
    exact hrekey.1
  · rw [horder]
    exact hrekey.2

/-- **A block on a state of a run**: it succeeds when the body does and the columns have room. -/
theorem Inv.processBlock (h : w.Inv v) {block : BlockNumber} (hnew : ∀ b ∈ w.blocks, b < block)
    (rows : List Row) :
    (v.ChainSucceeds w.blocks rows ∧
      HasRoom w.engine.columns (logNames (v.chainLog w.blocks rows)) ∧
      ∃ r', w.engine.processBlock v w.store block rows = (r', .ok
          (ReducerEngine.takeOutput (ReducerEngine.groupByIds v rows) rows
            (Emits.pushAll { columns := w.engine.columns } (v.chainLog w.blocks rows)))) ∧
        r'.columns = addNames w.engine.columns (logNames (v.chainLog w.blocks rows)) ∧
        r'.emitGrowth = if w.engine.columns.length < r'.columns.length then
          w.engine.emitGrowth.insertIfNew block w.engine.columns.length
          else w.engine.emitGrowth) ∨
    (¬ (v.ChainSucceeds w.blocks rows ∧
        HasRoom w.engine.columns (logNames (v.chainLog w.blocks rows))) ∧
      ∃ r' e, w.engine.processBlock v w.store block rows = (r', .error e) ∧
        r'.columns = w.engine.columns ∧ r'.emitGrowth = w.engine.emitGrowth) := by
  obtain ⟨r₁, groups, hload, hlog, hbody⟩ := h.loadGroups hnew rows
  have hroom := (Emits.pushAll_overflow (e := { columns := w.engine.columns }) rfl
    (v.chainLog w.blocks rows)).1
  rcases ReducerEngine.processBlock_outcome v w.store h.inRange (h.notAbove hnew) hload with
    ⟨hok, hover, heq⟩ | ⟨hnot, r', e, heq, hcols, hgrowth⟩
  · rw [hlog] at hover heq
    obtain ⟨-, hcols, hgrowth⟩ := ReducerEngine.processBlock_columns h.inRange
      (h.notAbove hnew) heq
    rw [ReducerEngine.blockNames, hload] at hcols
    dsimp only at hcols
    rw [hlog] at hcols
    exact .inl ⟨hbody.mp hok, hroom.mp hover, _, heq, hcols, hgrowth⟩
  · refine .inr ⟨?_, r', e, heq, hcols, hgrowth⟩
    rw [hlog] at hnot
    rintro ⟨hok, hfits⟩
    exact hnot ⟨hbody.mpr hok, hroom.mpr hfits⟩

end ReducerWorld

/-! ## The names of a chain -/

namespace ReducerShape

variable (v : ReducerShape)

/-- The names that the emits of each block of a chain use. -/
def chainUses (blocks : Chain Row) : BTreeMap BlockNumber (List String) :=
  OrdMap.mapEntries blocks fun b rows =>
    some (logNames (v.chainLog (OrdMap.keep blocks (· < b)) rows))

/-- The body succeeds on every block of a chain. -/
def ChainRuns (blocks : Chain Row) : Prop :=
  ∀ (b : BlockNumber) (rows : List Row), blocks[b]? = some rows →
    v.ChainSucceeds (OrdMap.keep blocks (· < b)) rows

variable {v} {blocks : Chain Row} {b p : BlockNumber} {rows : List Row}

theorem mem_chainUses : b ∈ v.chainUses blocks ↔ b ∈ blocks := by
  rw [ExtTreeMap.mem_iff_isSome_getElem?, ExtTreeMap.mem_iff_isSome_getElem?, chainUses,
    OrdMap.getElem?_mapEntries]
  cases blocks[b]? <;> rfl

/-- The blocks below a block that stays. -/
theorem keep_keep_lt (hb : b ≤ p) :
    OrdMap.keep (OrdMap.keep blocks (· ≤ p)) (· < b) = OrdMap.keep blocks (· < b) := by
  rw [OrdMap.keep_keep]
  congr 1
  funext b'
  by_cases hlt : b' < b
  · have : b' ≤ p := UInt64.le_of_lt (UInt64.lt_of_lt_of_le hlt hb)
    simp [hlt, this]
  · simp [hlt]

theorem chainUses_keep :
    v.chainUses (OrdMap.keep blocks (· ≤ p)) = OrdMap.keep (v.chainUses blocks) (· ≤ p) := by
  refine ExtTreeMap.ext_getElem? ?_
  intro b
  rw [chainUses, OrdMap.getElem?_mapEntries, OrdMap.getElem?_keep, OrdMap.getElem?_keep, chainUses,
    OrdMap.getElem?_mapEntries]
  by_cases hb : b ≤ p
  · simp only [hb, decide_true, if_true, keep_keep_lt hb]
  · simp [hb]

/-- The blocks below a new block. -/
theorem keep_insert_lt (hnew : ∀ b' ∈ blocks, b' < b) :
    OrdMap.keep (blocks.insert b rows) (· < b) = blocks := by
  refine ExtTreeMap.ext_getElem? ?_
  intro b'
  rw [OrdMap.getElem?_keep, ExtTreeMap.getElem?_insert]
  by_cases hlt : b' < b
  · have hne : ¬ compare b b' = .eq := by
      intro heq
      have := Std.LawfulEqCmp.eq_of_compare heq
      grind
    simp [hlt, hne]
  · have : blocks[b']? = none :=
      ExtTreeMap.getElem?_eq_none fun hmem => hlt (hnew b' hmem)
    simp [hlt, this]

theorem keep_insert_of_mem (hnew : ∀ b' ∈ blocks, b' < b) {b' : BlockNumber} (hb' : b' ∈ blocks) :
    OrdMap.keep (blocks.insert b rows) (· < b') = OrdMap.keep blocks (· < b') := by
  have hlt := hnew b' hb'
  refine ExtTreeMap.ext_getElem? ?_
  intro c
  rw [OrdMap.getElem?_keep, OrdMap.getElem?_keep, ExtTreeMap.getElem?_insert]
  by_cases hc : c < b'
  · have hne : ¬ compare b c = .eq := by
      intro heq
      have := Std.LawfulEqCmp.eq_of_compare heq
      grind
    simp [hc, hne]
  · simp [hc]

theorem chainUses_insert (hnew : ∀ b' ∈ blocks, b' < b) :
    v.chainUses (blocks.insert b rows)
      = (v.chainUses blocks).insert b (logNames (v.chainLog blocks rows)) := by
  refine ExtTreeMap.ext_getElem? ?_
  intro c
  rw [chainUses, OrdMap.getElem?_mapEntries, ExtTreeMap.getElem?_insert,
    ExtTreeMap.getElem?_insert, chainUses, OrdMap.getElem?_mapEntries]
  by_cases heq : compare b c = .eq
  · obtain rfl := Std.LawfulEqCmp.eq_of_compare heq
    simp [keep_insert_lt hnew]
  · simp only [heq, if_false]
    cases hc : blocks[c]? with
    | none => rfl
    | some rows' =>
      have hmem : c ∈ blocks := OrdMap.mem_of_getElem?_eq hc
      simp [keep_insert_of_mem hnew hmem]

theorem ChainRuns.keep (h : v.ChainRuns blocks) (p : BlockNumber) :
    v.ChainRuns (OrdMap.keep blocks (· ≤ p)) := by
  intro b rows hb
  rw [OrdMap.getElem?_keep] at hb
  split at hb
  · next hle =>
    rw [keep_keep_lt (by simpa using hle)]
    exact h b rows hb
  · cases hb

theorem ChainRuns.insert (h : v.ChainRuns blocks) (hnew : ∀ b' ∈ blocks, b' < b)
    (hrows : v.ChainSucceeds blocks rows) : v.ChainRuns (blocks.insert b rows) := by
  intro c rows' hc
  rw [ExtTreeMap.getElem?_insert] at hc
  split at hc
  · next heq =>
    obtain rfl := Std.LawfulEqCmp.eq_of_compare heq
    obtain rfl := Option.some.inj hc
    rw [keep_insert_lt hnew]
    exact hrows
  · rw [keep_insert_of_mem hnew (OrdMap.mem_of_getElem?_eq hc)]
    exact h c rows' hc

end ReducerShape

/-! ## Room for names -/

theorem addNames_of_subset {columns names : List String} (h : ∀ n ∈ names, n ∈ columns) :
    addNames columns names = columns := by
  refine addNames_eq_self ?_
  obtain ⟨new, heq, -, hnot⟩ := addNames_eq_append columns names
  have hnil : new = [] := by
    rw [List.eq_nil_iff_forall_not_mem]
    intro n hn
    have hmem : n ∈ addNames columns names := by simp [heq, hn]
    rcases (mem_addNames columns names n).mp hmem with hc | hn'
    · exact hnot n hn hc
    · exact hnot n hn (h n hn')
  rw [heq, hnil]
  simp

/-- Fewer names need less room. -/
theorem HasRoom.subset {columns names names' : List String} (h : HasRoom columns names)
    (hsub : ∀ n ∈ names', n ∈ names) : HasRoom columns names' := by
  rcases h with heq | hlen
  · refine .inl (addNames_of_subset fun n hn => ?_)
    rw [← heq]
    exact (mem_addNames columns names n).mpr (.inr (hsub n hn))
  · right
    obtain ⟨new, hnew, -, -⟩ := addNames_eq_append columns names
    obtain ⟨new', hnew', hnodup, hnot⟩ := addNames_eq_append columns names'
    have hnames : ∀ n ∈ new', n ∈ new := by
      intro n hn
      have hmem : n ∈ addNames columns names' := by simp [hnew', hn]
      have hmem' : n ∈ addNames columns names := by
        rcases (mem_addNames columns names' n).mp hmem with hc | hn'
        · exact absurd hc (hnot n hn)
        · exact (mem_addNames columns names n).mpr (.inr (hsub n hn'))
      rw [hnew] at hmem'
      rcases List.mem_append.mp hmem' with hc | hn'
      · exact absurd hc (hnot n hn)
      · exact hn'
    have hle := (List.subperm_of_subset hnodup hnames).length_le
    rw [hnew, List.length_append] at hlen
    rw [hnew', List.length_append]
    omega

/-- Room for the names of a chain is room for those of each block, one after the other. -/
theorem hasRoom_append {columns names more : List String} :
    HasRoom columns (names ++ more) ↔
      HasRoom columns names ∧ HasRoom (addNames columns names) more := by
  have happend : addNames columns (names ++ more) = addNames (addNames columns names) more :=
    addNames_append columns names more
  constructor
  · intro h
    refine ⟨h.subset fun n hn => List.mem_append_left _ hn, ?_⟩
    rw [HasRoom, ← happend]
    rcases h with heq | hlen
    · left
      have hlen := (prefix_addNames columns names).length_le
      have hlen' := (prefix_addNames (addNames columns names) more).length_le
      rw [← happend, heq] at hlen'
      rw [heq]
      exact (prefix_addNames columns names).eq_of_length (by omega)
    · exact .inr hlen
  · rintro ⟨hnames, hmore⟩
    rw [HasRoom, happend]
    rcases hmore with heq | hlen
    · rw [heq]
      exact hnames
    · exact .inr hlen

/-! ## The output by its final columns -/

namespace Emits

/-- The values of an emit, at the positions of its names in the final columns. -/
def valuesAt (columns : List String) (fields : List (String × Value)) (values : List Value) :
    List Value :=
  fields.foldl (fun values field => match (ColumnRegistry.mk columns).getId field.1 with
    | some id => setAt values id field.2
    | none => values) values

/-- A column keeps its position when more columns come. -/
theorem getId_of_prefix {columns more : List String} (h : columns <+: more) {name : String}
    {id : Nat} (hid : (ColumnRegistry.mk columns).getId name = some id) :
    (ColumnRegistry.mk more).getId name = some id := by
  obtain ⟨rest, rfl⟩ := h
  rw [ColumnRegistry.getId_append, hid]
  rfl

theorem setFields_values (fields : List (String × Value)) (e : Emits) (values : List Value)
    {columns : List String} (h : (setFields fields (e, values)).1.overflow = none)
    (hlen : values.length ≤ e.columns.length)
    (hcols : (setFields fields (e, values)).1.columns <+: columns) :
    (setFields fields (e, values)).2 = valuesAt columns fields values := by
  induction fields generalizing e values with
  | nil => rfl
  | cons field fields ih =>
    obtain ⟨name, value⟩ := field
    rw [setFields] at h hcols ⊢
    have hover : (e.column name).1.overflow = none := by
      rcases hcol : e.column name with ⟨e', _ | id⟩
      · rw [hcol] at h
        by_contra hne
        rw [setFields_columns] at h
        exact overflow_useColumns hne _ h
      · rw [hcol] at h
        by_contra hne
        rw [setFields_columns] at h
        exact overflow_useColumns hne _ h
    obtain ⟨-, -, hpre, id, hsome, hid⟩ := e.column_spec name hover
    rcases hcol : e.column name with ⟨e', found⟩
    rw [hcol] at hover hpre hsome hid h hcols
    dsimp only at hsome hid hpre hover
    subst hsome
    dsimp only at h hcols ⊢
    have hlt := ColumnRegistry.getId_lt hid
    have hlen' : (setAt values id value).length ≤ e'.columns.length := by
      rw [length_setAt]
      have := hpre.length_le
      omega
    have hafter := (setFields_spec fields e' (setAt values id value) h hlen').2.2.1
    rw [ih e' (setAt values id value) h hlen' hcols, valuesAt, valuesAt, List.foldl_cons,
      getId_of_prefix (hafter.trans hcols) hid]

/-- The rows of a log of emits, by its final columns. -/
theorem pushAll_rows (log : List (Nat × List (String × Value))) {e : Emits}
    {columns : List String} (h : (e.pushAll log).overflow = none)
    (hcols : (e.pushAll log).columns <+: columns) :
    (e.pushAll log).rows = e.rows ++ log.map fun entry => (entry.1, valuesAt columns entry.2 []) := by
  induction log generalizing e with
  | nil => exact (List.append_nil _).symm
  | cons entry log ih =>
    have hpush : e.pushAll (entry :: log) = (e.pushNamed entry.1 entry.2).pushAll log := rfl
    rw [hpush] at h hcols ⊢
    obtain ⟨hcolumns, hroom⟩ := pushAll_columns (e.pushNamed entry.1 entry.2) log
    have hover : (setFields entry.2 (e, [])).1.overflow = none := by
      by_contra hne
      rw [hroom] at h
      exact overflow_useColumns (e := e.pushNamed entry.1 entry.2) hne _ h
    have hstep : (setFields entry.2 (e, [])).1.columns <+: columns := by
      have hpre := prefix_addNames (e.pushNamed entry.1 entry.2).columns (logNames log)
      rw [← (pushAll_overflow (e := e.pushNamed entry.1 entry.2) hover log).2 h] at hpre
      exact hpre.trans hcols
    have hrows := (setFields_spec entry.2 e [] hover (Nat.zero_le _)).2.1
    rw [ih h hcols, pushNamed]
    dsimp only
    rw [hrows, setFields_values entry.2 e [] hover (Nat.zero_le _) hstep, List.append_assoc]
    rfl

end Emits

/-- **The output of a block is a function of its log and its final columns.** -/
theorem takeOutput_congr {ids : List (Option Nat)} {rows : List Row} {columns columns' : List String}
    {log : List (Nat × List (String × Value))} (h : HasRoom columns (logNames log))
    (h' : HasRoom columns' (logNames log))
    (heq : addNames columns (logNames log) = addNames columns' (logNames log)) :
    ReducerEngine.takeOutput ids rows (Emits.pushAll { columns := columns' } log)
      = ReducerEngine.takeOutput ids rows (Emits.pushAll { columns := columns } log) := by
  have hfinal : ∀ {cols : List String}, HasRoom cols (logNames log) →
      (Emits.pushAll { columns := cols } log).columns = addNames cols (logNames log) ∧
      (Emits.pushAll { columns := cols } log).rows = log.map fun entry =>
        (entry.1, Emits.valuesAt (addNames cols (logNames log)) entry.2 []) := by
    intro cols hroom
    obtain ⟨hover, hcols⟩ := Emits.pushAll_overflow (e := { columns := cols }) rfl log
    have hnone := hover.mpr hroom
    refine ⟨hcols hnone, ?_⟩
    exact Emits.pushAll_rows log hnone (by rw [hcols hnone])
  rw [ReducerEngine.takeOutput, ReducerEngine.takeOutput, Emits.take, Emits.take, (hfinal h).1,
    (hfinal h).2, (hfinal h').1, (hfinal h').2, heq]

/-- Rows in the output have the final columns. -/
theorem columns_of_takeOutput_eq {ids : List (Option Nat)} {rows : List Row}
    {columns columns' : List String} {log : List (Nat × List (String × Value))}
    (h : HasRoom columns (logNames log)) (h' : HasRoom columns' (logNames log)) (hlog : log ≠ [])
    (heq : ReducerEngine.takeOutput ids rows (Emits.pushAll { columns := columns' } log)
      = ReducerEngine.takeOutput ids rows (Emits.pushAll { columns := columns } log)) :
    addNames columns (logNames log) = addNames columns' (logNames log) := by
  obtain ⟨hover, hcols⟩ := Emits.pushAll_overflow (e := { columns := columns }) rfl log
  obtain ⟨hover', hcols'⟩ := Emits.pushAll_overflow (e := { columns := columns' }) rfl log
  rw [← hcols (hover.mpr h), ← hcols' (hover'.mpr h')]
  -- each row carries the columns of the block
  have hnames : ∀ e : Emits, ∀ row ∈ ReducerEngine.takeOutput ids rows e,
      row.registry.names = e.columns := by
    intro e row hrow
    obtain ⟨emitted, -, rfl⟩ := List.mem_map.mp hrow
    rfl
  have hlen : (ReducerEngine.takeOutput ids rows (Emits.pushAll { columns := columns } log)).length
      = log.length := by
    rw [ReducerEngine.takeOutput, List.length_map, List.length_mergeSort, Emits.take,
      List.length_map, Emits.pushAll_rows log (hover.mpr h) (List.prefix_refl _)]
    simp
  obtain ⟨row, hrow⟩ := List.exists_mem_of_length_pos
    (by rw [hlen]; exact List.length_pos_iff.mpr hlog)
  rw [← hnames _ row hrow]
  exact hnames _ row (by rw [heq]; exact hrow)

end Settle
