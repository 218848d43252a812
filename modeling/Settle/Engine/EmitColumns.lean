import Settle.Engine.ReducerPaths

/-!
# The emit columns along a run

The columns of the emits of a reducer are learned from the rows that it emits: the names of a
block join the columns on their first use, and a rollback drops those that only the blocks above
it used. Over every run of `process_block`, failed blocks that are undone, `rollback` and
`advance_finality` from the open of the engine, the columns are the GROUP BY columns and the names
of the surviving blocks in order of first use (`emit_columns_run`), whatever the storage holds.

`Tracked` is what a run keeps of the groups: each change of a block that a group can undo is in
the index of that block, so that a rollback finds it.
-/

namespace Settle

open Std

namespace ReducerEngine

variable {v : ReducerShape} {st : Store} {block : BlockNumber}

/-! ## What a block keeps -/

section Keeps

variable {P : ReducerEngine → Prop} (v) (st) (block)
  (hload : ∀ {r r₁ : ReducerEngine} {k : List UInt8} {id : Nat}, P r →
    r.groupId v st k = .ok (r₁, id) → P r₁)
  (hchange : ∀ {r : ReducerEngine} (id : Nat), P r → P (r.change block id))
  (hrun : ∀ {r : ReducerEngine} (item : (Row × Nat) × Nat), P r → P (runOn v r item))

include hrun in
theorem processRow_keeps {r : ReducerEngine} (h : P r) (emits : Emits) (id index : Nat)
    (row : Row) : P (r.processRow v emits id index row).1 := by
  unfold processRow
  split
  · exact h
  · dsimp only
    have := hrun ((row, index), id) h
    split <;> exact this

include hrun in
theorem processItems_keeps (items : List ((Row × Nat) × Nat)) {r : ReducerEngine} (h : P r)
    (emits : Emits) : P (processItems v items r emits).1 := by
  induction items generalizing r emits with
  | nil => exact h
  | cons item items ih =>
    obtain ⟨⟨row, index⟩, id⟩ := item
    have hrow := processRow_keeps v hrun h emits id index row
    rw [processItems]
    rcases hres : r.processRow v emits id index row with ⟨r', emits', e | u⟩
    · rw [hres] at hrow
      exact hrow
    · rw [hres] at hrow
      exact ih hrow emits'

include hload hchange hrun in
theorem processPerRow_keeps (ids : List (Option Nat)) (rows : List (Row × Nat))
    {r : ReducerEngine} (h : P r) (emits : Emits) :
    P (processPerRow v st block ids rows r emits).1 := by
  induction rows generalizing r emits with
  | nil => exact h
  | cons e rows ih =>
    obtain ⟨row, index⟩ := e
    rw [processPerRow]
    cases hid : r.groupId v st (groupKey ids row) with
    | error e => exact h
    | ok x =>
      have hrow := processRow_keeps v hrun (hchange x.2 (hload h hid)) emits x.2 index row
      dsimp only
      rcases hres : (x.1.change block x.2).processRow v emits x.2 index row with ⟨r', emits', e | u⟩
      · rw [hres] at hrow
        exact hrow
      · rw [hres] at hrow
        exact ih hrow emits'

include hload in
theorem loadGroups_keeps (ids : List (Option Nat)) (rows : List Row) {r : ReducerEngine}
    (h : P r) : P (loadGroups v st ids rows r).1 := by
  induction rows generalizing r with
  | nil => exact h
  | cons row rows ih =>
    rw [loadGroups]
    cases hid : r.groupId v st (groupKey ids row) with
    | error e => exact h
    | ok x =>
      have hrest := ih (hload h hid)
      dsimp only
      rcases hres : loadGroups v st ids rows x.1 with ⟨r', e | groups⟩
      · rw [hres] at hrest
        exact hrest
      · rw [hres] at hrest
        exact hrest

include hload hchange hrun in
/-- **What a block keeps**, whether it succeeds or fails at any row: what loading a group, the
first change of a group and the body of a row keep. -/
theorem processBlock_keeps
    (hopen : ∀ {r : ReducerEngine}, P r →
      P { r with blockGroups := r.blockGroups.insertIfNew block [] })
    (hcols : ∀ {r : ReducerEngine} (columns : List String) (growth : BTreeMap BlockNumber Nat),
      P r → P { r with columns := columns, emitGrowth := growth })
    {r : ReducerEngine} (h : P r) (rows : List Row) : P (r.processBlock v st block rows).1 := by
  have hprocessed : P (if v.runtime.batched then
        processBatched v st block rows (groupByIds v rows) r { columns := r.columns }
      else processPerRow v st block (groupByIds v rows) rows.zipIdx
        { r with blockGroups := r.blockGroups.insertIfNew block [] }
        { columns := r.columns }).1 := by
    split
    · have hloaded := loadGroups_keeps v st hload (groupByIds v rows) rows h
      rw [processBatched]
      rcases hres : loadGroups v st (groupByIds v rows) rows r with ⟨r₁, e | groups⟩
      · rw [hres] at hloaded
        exact hloaded
      · rw [hres] at hloaded
        dsimp only
        rw [processGrouped_eq]
        apply processItems_keeps v hrun
        -- the first changes
        have hall : ∀ (ids : List Nat) (r : ReducerEngine), P r →
            P (ids.foldl (fun r id => r.change block id) r) := by
          intro ids
          induction ids with
          | nil => exact fun r h => h
          | cons id ids ih => exact fun r h => ih _ (hchange id h)
        exact hall _ _ (hopen hloaded)
    · exact processPerRow_keeps v st block hload hchange hrun _ _ (hopen h) _
  rw [processBlock]
  generalize (if v.runtime.batched = true then _ else _ :
    ReducerEngine × Emits × Except Error Unit) = processed at hprocessed ⊢
  obtain ⟨r', emits, e | u⟩ := processed
  · exact hcols r.columns r'.emitGrowth hprocessed
  · exact hcols _ _ hprocessed

end Keeps

/-! ## The index of the blocks -/

/-- Each change that a group can undo is in the index of its block, and the index knows only the
blocks `known`. -/
structure Tracked (known : BlockNumber → Prop) (r : ReducerEngine) : Prop where
  range : r.InRange
  undo : ∀ (id : Nat) (g : ReducerGroup), r.all[id]? = some g → ∀ b ∈ g.undo.toMap,
    ∃ ids, r.blockGroups[b]? = some ids ∧ id ∈ ids
  known : ∀ b ∈ r.blockGroups, known b

variable {known : BlockNumber → Prop}

theorem Tracked.mono {known' : BlockNumber → Prop} {r : ReducerEngine} (h : Tracked known r)
    (hle : ∀ b, known b → known' b) : Tracked known' r :=
  ⟨h.range, h.undo, fun b hb => hle b (h.known b hb)⟩

theorem Tracked.notAbove {r : ReducerEngine} (h : Tracked known r)
    (hlt : ∀ b, known b → b ≤ block) : NotAbove block r := by
  intro id g hg b hb
  obtain ⟨ids, hids, -⟩ := h.undo id g hg b hb
  exact hlt b (h.known b (OrdMap.mem_of_getElem?_eq hids))

theorem Tracked.groupId {r r₁ : ReducerEngine} {k : List UInt8} {id : Nat}
    (h : Tracked known r) (hid : r.groupId v st k = .ok (r₁, id)) : Tracked known r₁ := by
  obtain ⟨hrange, -, -, more, hmore⟩ := groupId_spec h.range hid
  refine ⟨hrange, ?_, by rw [hmore]; exact h.known⟩
  intro j g hg b hb
  rw [hmore]
  unfold ReducerEngine.groupId at hid
  split at hid
  · cases hid
    exact h.undo j g hg b hb
  · split at hid
    · cases hid
    · cases hid
      dsimp only at hg
      rw [List.getElem?_append] at hg
      split at hg
      · exact h.undo j g hg b hb
      · rw [List.getElem?_singleton] at hg
        split at hg
        · cases hg
          simp at hb
        · cases hg

theorem Tracked.change {r : ReducerEngine} (h : Tracked known r) (hb : known block) (id : Nat) :
    Tracked known (r.change block id) := by
  cases hg : r.all[id]? with
  | none =>
    rw [ReducerEngine.change, hg]
    exact h
  | some g₀ =>
    by_cases hlast : g₀.undo.lastBlock = some block
    · rw [Changed.change_eq ⟨g₀, hg, hlast⟩]
      exact h
    have hindex : (r.change block id).blockGroups
        = r.blockGroups.insert block (r.blockGroups[block]?.getD [] ++ [id]) := by
      rw [ReducerEngine.change, hg]
      dsimp only
      rw [if_neg hlast]
    refine ⟨inRange_change h.range id, ?_, ?_⟩
    · intro j g hgj b hbg
      rw [hindex, ExtTreeMap.getElem?_insert]
      rw [getElem?_change] at hgj
      by_cases heq : block = b
      · -- the index of this block has the group, or had it
        subst heq
        simp only [compare_self, ↓reduceIte, Option.some.injEq, exists_eq_left',
          List.mem_append, List.mem_singleton]
        split at hgj
        · next heq => exact .inr heq.symm
        · obtain ⟨ids, hids, hj⟩ := h.undo j g hgj block hbg
          rw [hids]
          exact .inl hj
      · rw [if_neg (by rwa [Std.compare_eq_iff_eq])]
        split at hgj
        · obtain ⟨g₁, hg₁, rfl⟩ := Option.map_eq_some_iff.mp hgj
          unfold changeGroup at hbg
          split at hbg
          · exact h.undo j g₁ hg₁ b hbg
          · dsimp only at hbg
            rw [Blocks.toMap_insert] at hbg
            exact h.undo j g₁ hg₁ b (by grind)
        · exact h.undo j g hgj b hbg
    · intro b hbg
      rw [hindex, ExtTreeMap.mem_insert] at hbg
      rcases hbg with heq | hbg
      · rw [← Std.compare_eq_iff_eq.mp heq]
        exact hb
      · exact h.known b hbg

theorem Tracked.runOn {r : ReducerEngine} (h : Tracked known r) (item : (Row × Nat) × Nat) :
    Tracked known (runOn v r item) := by
  refine ⟨?_, ?_, h.known⟩
  · intro k id hk
    have := h.range k id hk
    simpa [ReducerEngine.runOn, runItem] using this
  · intro j g hg b hb
    rw [getElem?_runOn] at hg
    split at hg
    · obtain ⟨g₁, hg₁, rfl⟩ := Option.map_eq_some_iff.mp hg
      exact h.undo j g₁ hg₁ b hb
    · exact h.undo j g hg b hb

variable (v) (st) (block) in
/-- A block keeps the index, and adds itself. -/
theorem Tracked.processBlock {r : ReducerEngine} (h : Tracked known r) (rows : List Row) :
    Tracked (fun b => known b ∨ b = block) (r.processBlock v st block rows).1 := by
  have hstart : Tracked (fun b => known b ∨ b = block) r := h.mono fun b hb => .inl hb
  refine processBlock_keeps v st block (P := Tracked fun b => known b ∨ b = block)
    (fun hr hid => hr.groupId hid) (fun id hr => hr.change (.inr rfl) id)
    (fun item hr => hr.runOn item) ?_ ?_ hstart rows
  · intro r hr
    refine ⟨hr.range, ?_, ?_⟩
    · intro id g hg b hb
      obtain ⟨ids, hids, hid⟩ := hr.undo id g hg b hb
      refine ⟨ids, ?_, hid⟩
      rw [ExtTreeMap.getElem?_insertIfNew, if_neg]
      · exact hids
      · rintro ⟨heq, hnot⟩
        rw [Std.compare_eq_iff_eq.mp heq] at hnot
        exact hnot (OrdMap.mem_of_getElem?_eq hids)
    · intro b hb
      rw [ExtTreeMap.mem_insertIfNew] at hb
      rcases hb with heq | hb
      · exact .inr (Std.compare_eq_iff_eq.mp heq).symm
      · exact hr.known b hb
  · intro r columns growth hr
    exact ⟨hr.range, hr.undo, hr.known⟩

/-- The groups after a change of those at `ids`: each was there with at least its changes, and
those at `ids` have what the change gives. -/
theorem foldl_modify_spec {f : ReducerGroup → ReducerGroup} {Q : ReducerGroup → Prop}
    (hf : ∀ g, Q (f g) ∧ ∀ b ∈ (f g).undo.toMap, b ∈ g.undo.toMap) (ids : List Nat)
    {all : List ReducerGroup} {j : Nat} {g' : ReducerGroup}
    (h : (ids.foldl (fun all id => all.modify id f) all)[j]? = some g') :
    (∃ g, all[j]? = some g ∧ ∀ b ∈ g'.undo.toMap, b ∈ g.undo.toMap) ∧ (j ∈ ids → Q g') ∧
    (j ∉ ids → all[j]? = some g') := by
  induction ids generalizing all with
  | nil => exact ⟨⟨g', h, fun _ hb => hb⟩, by simp, fun _ => h⟩
  | cons id ids ih =>
    obtain ⟨⟨g₁, hg₁, hsub₁⟩, hin, hout⟩ := ih h
    rw [List.getElem?_modify] at hg₁
    by_cases hj : id = j
    · subst hj
      simp only [↓reduceIte, Option.map_eq_map] at hg₁
      obtain ⟨g, hg, rfl⟩ := Option.map_eq_some_iff.mp hg₁
      refine ⟨⟨g, hg, fun b hb => (hf g).2 b (hsub₁ b hb)⟩, ?_, by simp⟩
      intro _
      by_cases hmem : id ∈ ids
      · exact hin hmem
      · have := hout hmem
        rw [List.getElem?_modify, hg] at this
        simp only [↓reduceIte, Option.map_eq_map, Option.map_some, Option.some.injEq] at this
        rw [← this]
        exact (hf g).1
    · simp only [hj, ↓reduceIte, Option.map_eq_map, Option.map_id_fun', id_eq] at hg₁
      refine ⟨⟨g₁, hg₁, hsub₁⟩, ?_, ?_⟩
      · intro hmem
        exact hin ((List.mem_cons.mp hmem).resolve_left (Ne.symm hj))
      · intro hmem
        have := hout fun hm => hmem (List.mem_cons_of_mem _ hm)
        rw [List.getElem?_modify] at this
        simpa [hj] using this

theorem length_foldl_modify (f : ReducerGroup → ReducerGroup) (ids : List Nat)
    (all : List ReducerGroup) :
    (ids.foldl (fun all id => all.modify id f) all).length = all.length := by
  induction ids generalizing all with
  | nil => rfl
  | cons id ids ih => rw [List.foldl_cons, ih, List.length_modify]

/-- A rollback finds every change above it. -/
theorem Tracked.rollback {r : ReducerEngine} (h : Tracked known r) (p : BlockNumber) :
    Tracked (fun b => known b ∧ b ≤ p) (r.rollback p) := by
  rw [ReducerEngine.rollback]
  split
  · next hmax => exact h.mono fun b hb => ⟨hb, hmax ▸ BlockNumber.le_max b⟩
  dsimp only
  refine ⟨?_, ?_, ?_⟩
  · intro k id hk
    have := h.range k id hk
    simpa [length_foldl_modify] using this
  · intro j g' hg' b hb
    have hspec := foldl_modify_spec (f := rollbackGroup p)
      (Q := fun g => ∀ b ∈ g.undo.toMap, b ≤ p) (fun g => by
        simp only [rollbackGroup, Blocks.toMap_removeAbove]
        exact ⟨fun b hb => by grind, fun b hb => by grind⟩) _ hg'
    obtain ⟨⟨g, hg, hsub⟩, hin, -⟩ := hspec
    obtain ⟨ids, hids, hj⟩ := h.undo j g hg b (hsub b hb)
    refine ⟨ids, ?_, hj⟩
    have hbp : b ≤ p := by
      by_contra hnot
      have hmem : j ∈ (OrdMap.keep r.blockGroups (p < ·)).toList.flatMap Prod.snd := by
        refine List.mem_flatMap.mpr ⟨(b, ids), ?_, hj⟩
        rw [ExtTreeMap.mem_toList_iff_getElem?_eq_some]
        grind
      exact hnot (hin hmem b hb)
    grind
  · intro b hb
    exact ⟨h.known b (by grind), by grind⟩

/-- What finality does to the groups with some ids. -/
theorem foldl_finalizeGroup (f : BlockNumber) (ids : List Nat) (r : ReducerEngine) :
    ∃ pending, ids.foldl (fun r id =>
      match r.all[id]? with
      | none => r
      | some g => { r with
          all := r.all.modify id (finalizeGroup f)
          pendingDurable := if g.pendingDurable then r.pendingDurable
            else r.pendingDurable ++ [id] }) r
      = { r with
          all := ids.foldl (fun all id => all.modify id (finalizeGroup f)) r.all
          pendingDurable := pending } := by
  induction ids generalizing r with
  | nil => exact ⟨r.pendingDurable, rfl⟩
  | cons id ids ih =>
    rw [List.foldl_cons, List.foldl_cons]
    cases hg : r.all[id]? with
    | none =>
      obtain ⟨pending, hp⟩ := ih r
      refine ⟨pending, ?_⟩
      rw [List.modify_eq_self (by simpa using hg)]
      exact hp
    | some g => exact ih _

/-- What finality does to the engine. -/
theorem advanceFinality_eq (r : ReducerEngine) (f : BlockNumber) :
    ∃ pending, r.advanceFinality f = { r with
      all := ((OrdMap.keep r.blockGroups (· < f + 1)).toList.flatMap Prod.snd).foldl
        (fun all id => all.modify id (finalizeGroup f)) r.all
      blockGroups := OrdMap.keep r.blockGroups (f + 1 ≤ ·)
      pendingDurable := pending } := by
  exact foldl_finalizeGroup f _ _

/-- Finality takes from the groups what it takes from the index. -/
theorem Tracked.advanceFinality {r : ReducerEngine} (h : Tracked known r) (f : BlockNumber) :
    Tracked known (r.advanceFinality f) := by
  obtain ⟨pending, heq⟩ := advanceFinality_eq r f
  rw [heq]
  refine ⟨?_, ?_, ?_⟩
  · intro k id hk
    have := h.range k id hk
    simpa [length_foldl_modify] using this
  · intro j g' hg' b hb
    have hspec := foldl_modify_spec (f := finalizeGroup f)
      (Q := fun g => ∀ b ∈ g.undo.toMap, f < b) (fun g => by
        simp only [finalizeGroup, Blocks.toMap_drainUpTo]
        exact ⟨fun b hb => by grind, fun b hb => by grind⟩) _ hg'
    obtain ⟨⟨g, hg, hsub⟩, hin, -⟩ := hspec
    obtain ⟨ids, hids, hj⟩ := h.undo j g hg b (hsub b hb)
    refine ⟨ids, ?_, hj⟩
    have hle : f + 1 ≤ b := by
      by_contra hnot
      have hlt : b < f + 1 := UInt64.not_le.mp hnot
      have hmem : j ∈ (OrdMap.keep r.blockGroups (· < f + 1)).toList.flatMap Prod.snd := by
        refine List.mem_flatMap.mpr ⟨(b, ids), ?_, hj⟩
        rw [ExtTreeMap.mem_toList_iff_getElem?_eq_some]
        grind
      have habove := UInt64.lt_iff_toNat_lt.mp (hin hmem b hb)
      have hbelow := UInt64.lt_iff_toNat_lt.mp hlt
      rw [UInt64.toNat_add] at hbelow
      have hone : (1 : UInt64).toNat = 1 := rfl
      omega
    grind
  · intro b hb
    exact h.known b (by grind)

end ReducerEngine

/-! ## Columns of surviving blocks -/

/-- The names of blocks, in order. -/
def usedNames (uses : List (BlockNumber × List String)) : List String := uses.flatMap Prod.snd

/-- The width before each block that adds columns. -/
def growthOf : List String → List (BlockNumber × List String) → List (BlockNumber × Nat)
  | _, [] => []
  | columns, (b, names) :: rest =>
    if columns.length < (addNames columns names).length then
      (b, columns.length) :: growthOf (addNames columns names) rest
    else growthOf (addNames columns names) rest

theorem addNames_eq_self {columns names : List String}
    (h : ¬ columns.length < (addNames columns names).length) : addNames columns names = columns :=
  ((prefix_addNames columns names).eq_of_length_le (by omega)).symm

theorem growthOf_append (columns : List String) (uses more : List (BlockNumber × List String)) :
    growthOf columns (uses ++ more)
      = growthOf columns uses ++ growthOf (addNames columns (usedNames uses)) more := by
  induction uses generalizing columns with
  | nil => rfl
  | cons e uses ih =>
    obtain ⟨b, names⟩ := e
    have hnames : addNames columns (usedNames ((b, names) :: uses))
        = addNames (addNames columns names) (usedNames uses) := by
      rw [usedNames, List.flatMap_cons]
      exact addNames_append _ _ _
    rw [List.cons_append, growthOf, growthOf, ih, hnames]
    split <;> rfl

theorem growthOf_mem {columns : List String} {uses : List (BlockNumber × List String)}
    {e : BlockNumber × Nat} (h : e ∈ growthOf columns uses) : ∃ u ∈ uses, u.1 = e.1 := by
  induction uses generalizing columns with
  | nil => simp [growthOf] at h
  | cons u uses ih =>
    obtain ⟨b, names⟩ := u
    rw [growthOf] at h
    split at h
    · rcases List.mem_cons.mp h with rfl | h
      · exact ⟨(b, names), by simp, rfl⟩
      · obtain ⟨u, hu, heq⟩ := ih h
        exact ⟨u, List.mem_cons_of_mem _ hu, heq⟩
    · obtain ⟨u, hu, heq⟩ := ih h
      exact ⟨u, List.mem_cons_of_mem _ hu, heq⟩

/-- The first growth is at the width that there was, and without one no name is new. -/
theorem growthOf_head (columns : List String) (uses : List (BlockNumber × List String)) :
    match (growthOf columns uses).head? with
    | some e => e.2 = columns.length
    | none => addNames columns (usedNames uses) = columns := by
  induction uses generalizing columns with
  | nil => rfl
  | cons u uses ih =>
    obtain ⟨b, names⟩ := u
    rw [growthOf]
    by_cases hgrew : columns.length < (addNames columns names).length
    · rw [if_pos hgrew]
      rfl
    · rw [if_neg hgrew]
      have hself := addNames_eq_self hgrew
      have hnames : addNames columns (usedNames ((b, names) :: uses))
          = addNames columns (usedNames uses) := by
        rw [usedNames, List.flatMap_cons, addNames_append, hself]
        rfl
      rw [hself, hnames]
      exact ih columns

/-! ## Runs -/

namespace ReducerEngine

variable {v : ReducerShape}

/-- The columns and their growth are those of the blocks in `uses`. -/
structure ColumnsOf (v : ReducerShape) (uses : BTreeMap BlockNumber (List String))
    (r : ReducerEngine) : Prop where
  columns : r.columns = addNames v.groupBy (usedNames uses.toList)
  growth : r.emitGrowth.toList = growthOf v.groupBy uses.toList

/-- **A rollback leaves the columns of the blocks that stay.** -/
theorem ColumnsOf.rollback {uses : BTreeMap BlockNumber (List String)} {r : ReducerEngine}
    (h : ColumnsOf v uses r) (p : BlockNumber) :
    ColumnsOf v (OrdMap.keep uses (· ≤ p)) (r.rollback p) := by
  rw [ReducerEngine.rollback]
  split
  · next hmax =>
    have hall : OrdMap.keep uses (· ≤ p) = uses := by
      refine OrdMap.keep_eq_self uses ?_
      intro b _
      rw [hmax]
      simpa using BlockNumber.le_max b
    rw [hall]
    exact h
  · dsimp only
    -- the blocks that stay come first
    have hsplit := toList_split_at uses p
    set stay := (OrdMap.keep uses (· ≤ p)).toList with hstay
    set gone := (OrdMap.keep uses (p < ·)).toList with hgone
    have hstayle : ∀ e ∈ growthOf v.groupBy stay, e.1 ≤ p := by
      intro e he
      obtain ⟨u, hu, heq⟩ := growthOf_mem he
      rw [hstay, OrdMap.toList_keep, List.mem_filter] at hu
      rw [← heq]
      simpa using hu.2
    have hgonelt : ∀ e ∈ growthOf (addNames v.groupBy (usedNames stay)) gone, p < e.1 := by
      intro e he
      obtain ⟨u, hu, heq⟩ := growthOf_mem he
      rw [hgone, OrdMap.toList_keep, List.mem_filter] at hu
      rw [← heq]
      simpa using hu.2
    have hgrown : (OrdMap.keep r.emitGrowth (p < ·)).toList
        = growthOf (addNames v.groupBy (usedNames stay)) gone := by
      rw [OrdMap.toList_keep, h.growth, hsplit, growthOf_append, List.filter_append,
        List.filter_eq_nil_iff.mpr, List.filter_eq_self.mpr, List.nil_append]
      · intro e he
        simpa using hgonelt e he
      · intro e he
        have := hstayle e he
        simp only [decide_eq_true_eq]
        grind
    have hcolumns : r.columns
        = addNames (addNames v.groupBy (usedNames stay)) (usedNames gone) := by
      rw [h.columns, hsplit, usedNames, List.flatMap_append, addNames_append]
      rfl
    refine ⟨?_, ?_⟩
    · rw [hgrown, List.head?_map]
      have hhead := growthOf_head (addNames v.groupBy (usedNames stay)) gone
      cases hfirst : (growthOf (addNames v.groupBy (usedNames stay)) gone).head? with
      | some e =>
        rw [hfirst] at hhead
        dsimp only [Option.map_some] at hhead ⊢
        rw [hhead, hcolumns]
        exact (List.prefix_iff_eq_take.mp (prefix_addNames _ _)).symm
      | none =>
        rw [hfirst] at hhead
        dsimp only [Option.map_none] at hhead ⊢
        rw [hcolumns, hhead]
    · show (OrdMap.keep r.emitGrowth (· ≤ p)).toList = growthOf v.groupBy stay
      rw [OrdMap.toList_keep, h.growth, hsplit, growthOf_append, List.filter_append,
        List.filter_eq_self.mpr, List.filter_eq_nil_iff.mpr, List.append_nil]
      · intro e he
        have := hgonelt e he
        simp only [decide_eq_true_eq]
        grind
      · intro e he
        simpa using hstayle e he

/-- The names that the emits of a block use, in order. -/
def blockNames (v : ReducerShape) (r : ReducerEngine) (st : Store) (rows : List Row) :
    List String :=
  match loadGroups v st (groupByIds v rows) rows r with
  | (r₁, .ok groups) => logNames (blockLog v r₁ rows groups)
  | (_, .error _) => []

/-- What a block that succeeds leaves: the columns with its names, and its growth. -/
theorem processBlock_columns {st : Store} {block : BlockNumber} {r r' : ReducerEngine}
    {rows : List Row} {out : List Row} (hr : r.InRange) (hna : NotAbove block r)
    (hok : r.processBlock v st block rows = (r', .ok out)) :
    (addNames r.columns (blockNames v r st rows) = r.columns ∨
      (addNames r.columns (blockNames v r st rows)).length ≤ maxEmitColumns) ∧
    r'.columns = addNames r.columns (blockNames v r st rows) ∧
    r'.emitGrowth = if r.columns.length < r'.columns.length then
      r.emitGrowth.insertIfNew block r.columns.length else r.emitGrowth := by
  rw [blockNames]
  rcases hload : loadGroups v st (groupByIds v rows) rows r with ⟨r₁, e | groups⟩
  · obtain ⟨r'', e', herr, -⟩ := processBlock_load_error v st block hr hload
    rw [hok] at herr
    cases herr
  · rcases processBlock_outcome v st hr hna hload with ⟨-, hroom, heq⟩ | ⟨-, r'', e, herr, -⟩
    · obtain ⟨hiff, hcols⟩ := Emits.pushAll_overflow (e := { columns := r.columns }) rfl
        (blockLog v r₁ rows groups)
      have hgrowth : (blockEngine v block r₁ rows groups).emitGrowth = r.emitGrowth := by
        obtain ⟨-, -, ⟨more, hmore⟩, -⟩ := loadGroups_spec rows hr hload
        rw [blockEngine, foldl_runOn_eq]
        dsimp only
        rw [emitGrowth_foldl_change, hmore]
      rw [hok] at heq
      obtain ⟨rfl, -⟩ := Prod.mk.inj heq
      refine ⟨hiff.mp hroom, hcols hroom, ?_⟩
      dsimp only
      rw [hgrowth]
    · rw [hok] at herr
      cases herr

/-- A block that fails leaves the columns. -/
theorem processBlock_error_columns {st : Store} {block : BlockNumber} {r r' : ReducerEngine}
    {rows : List Row} {e : Error} (hr : r.InRange) (hna : NotAbove block r)
    (herr : r.processBlock v st block rows = (r', .error e)) :
    r'.columns = r.columns ∧ r'.emitGrowth = r.emitGrowth := by
  rcases hload : loadGroups v st (groupByIds v rows) rows r with ⟨r₁, e' | groups⟩
  · obtain ⟨r'', e'', heq, hcols⟩ := processBlock_load_error v st block hr hload
    rw [herr] at heq
    cases heq
    exact hcols
  · rcases processBlock_outcome v st hr hna hload with ⟨-, -, heq⟩ | ⟨-, r'', e'', heq, hcols⟩
    · rw [herr] at heq
      cases heq
    · rw [herr] at heq
      cases heq
      exact hcols

/-- **A block adds its names.** -/
theorem ColumnsOf.processBlock {uses : BTreeMap BlockNumber (List String)}
    {block : BlockNumber} {r r' : ReducerEngine} {names : List String} (h : ColumnsOf v uses r)
    (hnew : ∀ b ∈ uses, b < block) (hcols : r'.columns = addNames r.columns names)
    (hgrowth : r'.emitGrowth = if r.columns.length < r'.columns.length then
      r.emitGrowth.insertIfNew block r.columns.length else r.emitGrowth) :
    ColumnsOf v (uses.insert block names) r' := by
  have hlist := OrdMap.toList_insert_of_lt (v := names) hnew
  have hgrown : ∀ b ∈ r.emitGrowth, b < block := by
    intro b hb
    obtain ⟨width, hw⟩ := OrdMap.exists_getElem?_of_mem hb
    rw [← ExtTreeMap.mem_toList_iff_getElem?_eq_some, h.growth] at hw
    obtain ⟨u, hu, heq⟩ := growthOf_mem hw
    have hmem : u.1 ∈ uses := OrdMap.mem_of_getElem?_eq
      (ExtTreeMap.mem_toList_iff_getElem?_eq_some.mp (show (u.1, u.2) ∈ uses.toList from hu))
    have hlt := hnew _ hmem
    rwa [heq] at hlt
  refine ⟨?_, ?_⟩
  · rw [hcols, h.columns, hlist, usedNames, usedNames, List.flatMap_append, addNames_append]
    simp
  · rw [hlist, growthOf_append, ← h.columns, ← h.growth, growthOf, growthOf, ← hcols, hgrowth]
    split
    · have hinsert : r.emitGrowth.insertIfNew block r.columns.length
          = r.emitGrowth.insert block r.columns.length := by
        ext b width
        rw [ExtTreeMap.getElem?_insertIfNew, ExtTreeMap.getElem?_insert]
        have hnot : block ∉ r.emitGrowth := by
          intro hmem
          have := hgrown block hmem
          grind
        by_cases heq : compare block b = .eq
        · simp [heq, hnot]
        · simp [heq]
      rw [hinsert, OrdMap.toList_insert_of_lt hgrown]
    · simp

end ReducerEngine

/-- One call on a reducer, with the names that the emits of each surviving block used. A block
that fails is undone at once, together with the blocks of its ingest before it. -/
inductive EmitStep (v : ReducerShape) :
    ReducerEngine × BTreeMap BlockNumber (List String) →
      ReducerEngine × BTreeMap BlockNumber (List String) → Prop
  | processBlock {r uses} (st : Store) (block : BlockNumber) (rows : List Row)
      (r' : ReducerEngine) (out : List Row) (hnew : ∀ b ∈ uses, b < block)
      (hok : r.processBlock v st block rows = (r', .ok out)) :
      EmitStep v (r, uses) (r', uses.insert block (r.blockNames v st rows))
  | failedBlock {r uses} (st : Store) (block : BlockNumber) (rows : List Row)
      (r' : ReducerEngine) (e : Error) (p : BlockNumber) (hnew : ∀ b ∈ uses, b < block)
      (herr : r.processBlock v st block rows = (r', .error e)) (hp : p < block) :
      EmitStep v (r, uses) (r'.rollback p, OrdMap.keep uses (· ≤ p))
  | rollback {r uses} (p : BlockNumber) :
      EmitStep v (r, uses) (r.rollback p, OrdMap.keep uses (· ≤ p))
  | advanceFinality {r uses} (f : BlockNumber) :
      EmitStep v (r, uses) (r.advanceFinality f, uses)

/-- The states of a run from the open of the engine, on any storage. -/
def EmitRun (v : ReducerShape) (r : ReducerEngine) (uses : BTreeMap BlockNumber (List String)) :
    Prop :=
  ∃ st : Store, Relation.ReflTransGen (EmitStep v) (ReducerEngine.new v st, ∅) (r, uses)

/-- What holds along every run. -/
structure EmitInv (v : ReducerShape) (r : ReducerEngine)
    (uses : BTreeMap BlockNumber (List String)) : Prop where
  tracked : ReducerEngine.Tracked (· ∈ uses) r
  columns : ReducerEngine.ColumnsOf v uses r
  limit : v.groupBy.length ≤ maxEmitColumns → r.columns.length ≤ maxEmitColumns

variable {v : ReducerShape} {r : ReducerEngine} {uses : BTreeMap BlockNumber (List String)}

theorem EmitInv.notAbove (h : EmitInv v r uses) {block : BlockNumber}
    (hnew : ∀ b ∈ uses, b < block) : ReducerEngine.NotAbove block r :=
  h.tracked.notAbove fun b hb => UInt64.le_of_lt (hnew b hb)

/-- A rollback shortens the columns. -/
theorem length_rollback_columns (r : ReducerEngine) (p : BlockNumber) :
    (r.rollback p).columns.length ≤ r.columns.length := by
  rw [ReducerEngine.rollback]
  split
  · exact Nat.le_refl _
  · dsimp only
    split
    · exact List.length_take_le' _ _
    · exact Nat.le_refl _

theorem EmitInv.rollback (h : EmitInv v r uses) (p : BlockNumber) :
    EmitInv v (r.rollback p) (OrdMap.keep uses (· ≤ p)) := by
  refine ⟨?_, h.columns.rollback p, ?_⟩
  · refine (h.tracked.rollback p).mono ?_
    intro b hb
    rw [OrdMap.mem_keep]
    simpa using hb
  · intro hle
    exact (length_rollback_columns r p).trans (h.limit hle)

/-- **Every call keeps the invariant.** -/
theorem EmitInv.step {r' : ReducerEngine} {uses' : BTreeMap BlockNumber (List String)}
    (h : EmitInv v r uses) (hs : EmitStep v (r, uses) (r', uses')) : EmitInv v r' uses' := by
  cases hs with
  | processBlock st block rows _ out hnew hok =>
    have hna := h.notAbove hnew
    obtain ⟨hroom, hcols, hgrowth⟩ :=
      ReducerEngine.processBlock_columns h.tracked.range hna hok
    have htracked := h.tracked.processBlock v st block rows
    rw [hok] at htracked
    refine ⟨htracked.mono ?_, h.columns.processBlock hnew hcols hgrowth, ?_⟩
    · intro b hb
      rw [ExtTreeMap.mem_insert]
      rcases hb with hb | rfl
      · exact .inr hb
      · exact .inl (by simp)
    · intro hle
      rw [hcols]
      rcases hroom with heq | hroom
      · rw [heq]
        exact h.limit hle
      · exact hroom
  | failedBlock st block rows r₁ e p hnew herr hp =>
    obtain ⟨hcols, hgrowth⟩ :=
      ReducerEngine.processBlock_error_columns h.tracked.range (h.notAbove hnew) herr
    have htracked := h.tracked.processBlock v st block rows
    rw [herr] at htracked
    have hcolumns : ReducerEngine.ColumnsOf v uses r₁ := by
      refine ⟨?_, ?_⟩
      · rw [hcols]
        exact h.columns.columns
      · rw [hgrowth]
        exact h.columns.growth
    refine ⟨?_, hcolumns.rollback p, ?_⟩
    · refine (htracked.rollback p).mono ?_
      rintro b ⟨hb | rfl, hbp⟩
      · rw [OrdMap.mem_keep]
        exact ⟨hb, by simpa using hbp⟩
      · exact absurd hbp (UInt64.not_le.mpr hp)
    · intro hle
      refine (length_rollback_columns r₁ p).trans ?_
      rw [hcols]
      exact h.limit hle
  | rollback p => exact h.rollback p
  | advanceFinality f =>
    obtain ⟨pending, heq⟩ := ReducerEngine.advanceFinality_eq r f
    refine ⟨h.tracked.advanceFinality f, ?_, ?_⟩
    · rw [heq]
      exact ⟨h.columns.columns, h.columns.growth⟩
    · rw [heq]
      exact h.limit

theorem EmitRun.inv (hr : EmitRun v r uses) : EmitInv v r uses := by
  obtain ⟨st, hsteps⟩ := hr
  have hinit : EmitInv v (ReducerEngine.new v st) ∅ := by
    refine ⟨⟨?_, ?_, ?_⟩, ⟨?_, ?_⟩, fun hle => hle⟩
    · intro k id hk
      simp [ReducerEngine.new] at hk
    · intro id g hg
      simp [ReducerEngine.new] at hg
    · intro b hb
      simp [ReducerEngine.new] at hb
    · rw [ExtTreeMap.toList_eq_nil_iff.mpr rfl]
      rfl
    · have hgrowth : (ReducerEngine.new v st).emitGrowth = ∅ := rfl
      rw [hgrowth, ExtTreeMap.toList_eq_nil_iff.mpr rfl, ExtTreeMap.toList_eq_nil_iff.mpr rfl]
      rfl
  have hall : ∀ s : ReducerEngine × BTreeMap BlockNumber (List String),
      Relation.ReflTransGen (EmitStep v) (ReducerEngine.new v st, ∅) s → EmitInv v s.1 s.2 := by
    intro s hs
    induction hs with
    | refl => exact hinit
    | tail _ hstep ih => exact ih.step hstep
  exact hall (r, uses) hsteps

/-- The rows of a block that succeeds: each has the columns of the engine, with a value for each
of them. -/
theorem takeOutput_row {rows : List Row} {columns : List String}
    {log : List (Nat × List (String × Value))}
    (hroom : (Emits.pushAll { columns := columns } log).overflow = none) {row : Row}
    (hrow : row ∈ ReducerEngine.takeOutput (ReducerEngine.groupByIds v rows) rows
      (Emits.pushAll { columns := columns } log)) :
    row.registry.names = (Emits.pushAll { columns := columns } log).columns ∧
    row.values.length = (Emits.pushAll { columns := columns } log).columns.length := by
  have hempty : EmitsRep { columns := columns } [] := .nil
  obtain ⟨hrep, -, -⟩ := Emits.pushAll_rep hempty _ hroom
  obtain ⟨emitted, hemitted, rfl⟩ := List.mem_map.mp hrow
  refine ⟨rfl, ?_⟩
  have hmem := (List.mergeSort_perm _ _).mem_iff.mp hemitted
  obtain ⟨pushed, hpushed, rfl⟩ := List.mem_map.mp hmem
  have hlen : pushed.2.length ≤ (Emits.pushAll { columns := columns } log).columns.length := by
    obtain ⟨i, hi, rfl⟩ := List.getElem_of_mem hpushed
    exact ((List.forall₂_iff_get.mp hrep).2 i hi (by
      have := hrep.length_eq
      omega)).2.1
  simp only [ReducerEngine.outputRow, List.length_map, List.length_zipIdx, List.length_append,
    List.length_replicate]
  omega

/-- **Emit columns follow the surviving blocks.** In every state of every run: the columns are the
GROUP BY columns and then the other names in order of their first use by the surviving blocks; with
at most 1024 GROUP BY columns there are never more than 1024; a block whose groups load and whose
body succeeds fails exactly when it would have more; and each row of a block that succeeds has a
value for each column: the one that the emit set, unless that is Null, else the value of the input
row for a GROUP BY column, else Null. -/
theorem emit_columns_run (hr : EmitRun v r uses) :
    r.columns = addNames v.groupBy (usedNames uses.toList) ∧
    (v.groupBy.length ≤ maxEmitColumns → r.columns.length ≤ maxEmitColumns) ∧
    ∀ (st : Store) (block : BlockNumber) (rows : List Row) (r₁ : ReducerEngine)
      (groups : List Nat), (∀ b ∈ uses, b < block) →
      ReducerEngine.loadGroups v st (ReducerEngine.groupByIds v rows) rows r
        = (r₁, .ok groups) →
      (v.groupBy.length ≤ maxEmitColumns →
        BodySucceeds v (ReducerEngine.idOf (ReducerEngine.groupByIds v rows) r₁)
          (ReducerEngine.valuesOf v r₁.all)
          ((ReducerEngine.blockOrder v rows groups).map Prod.fst) →
        ((∃ r' e, r.processBlock v st block rows = (r', .error e)) ↔
          maxEmitColumns < (addNames r.columns (r.blockNames v st rows)).length)) ∧
      ∀ r' out, r.processBlock v st block rows = (r', .ok out) →
        (∀ row ∈ out, row.registry.names = r'.columns ∧
          row.values.length = r'.columns.length) ∧
        out.map (fun row name => SourceRow.column row name)
          = (ReducerEngine.blockLog (v.withPath false) r₁ rows groups).map (emittedRow v rows) := by
  have hi := hr.inv
  refine ⟨hi.columns.columns, hi.limit, ?_⟩
  intro st block rows r₁ groups hnew hload
  have houtcome := ReducerEngine.processBlock_outcome v st hi.tracked.range (hi.notAbove hnew) hload
  obtain ⟨hroom, hcols⟩ := Emits.pushAll_overflow (e := { columns := r.columns }) rfl
    (ReducerEngine.blockLog v r₁ rows groups)
  have hnames : r.blockNames v st rows
      = logNames (ReducerEngine.blockLog v r₁ rows groups) := by
    rw [ReducerEngine.blockNames, hload]
  refine ⟨?_, ?_⟩
  · intro hle hbody
    have hlimit := hi.limit hle
    rw [hnames]
    have hover : (Emits.pushAll { columns := r.columns }
          (ReducerEngine.blockLog v r₁ rows groups)).overflow ≠ none ↔
        maxEmitColumns < (addNames r.columns
          (logNames (ReducerEngine.blockLog v r₁ rows groups))).length := by
      rw [Ne, hroom]
      dsimp only
      constructor
      · intro hnot
        by_contra hge
        exact hnot (.inr (by omega))
      · rintro hlt (heq | hge)
        · rw [heq] at hlt
          omega
        · omega
    rw [← hover]
    rcases houtcome with ⟨-, hnone, heq⟩ | ⟨hnot, r', e, heq, -⟩
    · constructor
      · rintro ⟨r', e, herr⟩
        rw [heq] at herr
        cases herr
      · intro hne
        exact absurd hnone hne
    · constructor
      · intro _ hnone
        exact hnot ⟨hbody, hnone⟩
      · intro _
        exact ⟨r', e, heq⟩
  · intro r' out hok
    rcases houtcome with ⟨-, hnone, heq⟩ | ⟨-, r'', e, herr, -⟩
    · rw [hok] at heq
      obtain ⟨rfl, hout⟩ := Prod.mk.inj heq
      cases hout
      obtain ⟨hkey, hlt, hlen⟩ := ReducerEngine.item_idOf hi.tracked.range hload
      refine ⟨fun row hrow => takeOutput_row hnone hrow, ?_⟩
      have hprefix : v.groupBy <+: r.columns := by
        rw [hi.columns.columns]
        exact prefix_addNames _ _
      exact ReducerEngine.takeOutput_blockLog hprefix hkey hlt hlen v.runtime.batched hnone
    · rw [hok] at herr
      cases herr

/-! ### One block -/

/-- The engine after a row of bob in block 1. -/
def afterBob : ReducerEngine :=
  ((ReducerEngine.new countPerUser {}).processBlock countPerUser {} 1 [userRow "bob"]).1

/-- The emit of bob adds a column after the GROUP BY column. -/
theorem emit_columns_run_bob :
    EmitRun countPerUser afterBob ((∅ : BTreeMap BlockNumber (List String)).insert 1 ["bob"]) ∧
    afterBob.columns = ["user", "bob"] := by
  have hok : ∃ out, (ReducerEngine.new countPerUser {}).processBlock countPerUser {} 1
      [userRow "bob"] = (afterBob, .ok out) := by
    have hisOk : ((ReducerEngine.new countPerUser {}).processBlock countPerUser {} 1
        [userRow "bob"]).2.isOk = true := by decide +kernel
    rcases hres : (ReducerEngine.new countPerUser {}).processBlock countPerUser {} 1
      [userRow "bob"] with ⟨r, e | out⟩
    · rw [hres] at hisOk
      cases hisOk
    · exact ⟨out, by rw [afterBob, hres]⟩
  obtain ⟨out, hok⟩ := hok
  have hnames : (ReducerEngine.new countPerUser {}).blockNames countPerUser {} [userRow "bob"]
      = ["bob"] := by decide +kernel
  have hstep : EmitStep countPerUser (ReducerEngine.new countPerUser {}, ∅)
      (afterBob, (∅ : BTreeMap BlockNumber (List String)).insert 1 ["bob"]) := by
    have := @EmitStep.processBlock countPerUser _ ∅ {} 1 [userRow "bob"] afterBob out (by simp) hok
    rwa [hnames] at this
  have hrun : EmitRun countPerUser afterBob
      ((∅ : BTreeMap BlockNumber (List String)).insert 1 ["bob"]) := ⟨{}, .tail .refl hstep⟩
  refine ⟨hrun, ?_⟩
  rw [(emit_columns_run hrun).1]
  decide +kernel

/-- A reducer that emits a Null user. -/
def nullUser : ReducerShape where
  name := "nulls"
  source := "trades"
  groupBy := ["user"]
  defaultState := []
  mapFields := 0
  runtime :=
    { process := fun values _ _ =>
        { values := values, maps := [], emits := [[("user", .null)]], error := none }
      batched := false
      values_length := Runtime.length_same
      maps_mem := Runtime.mem_nil }

/-- A GROUP BY column that an emit sets to Null takes the value of the input row, as one that it
did not set. -/
theorem null_group_by_column_is_filled :
    ¬ ∀ (v : ReducerShape) (r : ReducerEngine) (uses : BTreeMap BlockNumber (List String)),
      EmitRun v r uses → ∀ (st : Store) (block : BlockNumber) (rows : List Row)
        (r₁ : ReducerEngine) (groups : List Nat), (∀ b ∈ uses, b < block) →
        ReducerEngine.loadGroups v st (ReducerEngine.groupByIds v rows) rows r
          = (r₁, .ok groups) →
        ∀ r' out, r.processBlock v st block rows = (r', .ok out) →
          ∀ (i : Nat) (entry : Nat × List (String × Value)) (row : Row) (name : String),
            (ReducerEngine.blockLog (v.withPath false) r₁ rows groups)[i]? = some entry →
            out[i]? = some row → name ∈ entry.2.map Prod.fst →
            SourceRow.column row name = fieldValue entry.2 name := by
  intro hall
  have hrun : EmitRun nullUser (ReducerEngine.new nullUser {}) ∅ := ⟨{}, .refl⟩
  rcases hload : ReducerEngine.loadGroups nullUser {}
    (ReducerEngine.groupByIds nullUser [userRow "alice"]) [userRow "alice"]
    (ReducerEngine.new nullUser {}) with ⟨r₁, e | groups⟩
  · have : (ReducerEngine.loadGroups nullUser {}
        (ReducerEngine.groupByIds nullUser [userRow "alice"]) [userRow "alice"]
        (ReducerEngine.new nullUser {})).2.isOk = true := by decide +kernel
    rw [hload] at this
    cases this
  rcases hok : (ReducerEngine.new nullUser {}).processBlock nullUser {} 1 [userRow "alice"] with
    ⟨r', e | out⟩
  · have : ((ReducerEngine.new nullUser {}).processBlock nullUser {} 1
        [userRow "alice"]).2.isOk = true := by decide +kernel
    rw [hok] at this
    cases this
  have hout : out.map (SourceRow.column · "user") = [.string "alice"] := by
    have : ((ReducerEngine.new nullUser {}).processBlock nullUser {} 1 [userRow "alice"]).2.toOption.map
        (fun out => out.map (SourceRow.column · "user")) = some [.string "alice"] := by
      decide +kernel
    rw [hok] at this
    simpa [Except.toOption] using this
  have hlog : ReducerEngine.blockLog (nullUser.withPath false) r₁ [userRow "alice"] groups
      = [(0, [("user", .null)])] := by
    have : (ReducerEngine.loadGroups nullUser {}
        (ReducerEngine.groupByIds nullUser [userRow "alice"]) [userRow "alice"]
        (ReducerEngine.new nullUser {})).2.toOption = some [0] := by decide +kernel
    rw [hload] at this
    obtain rfl : groups = [0] := by simpa [Except.toOption] using this
    rfl
  obtain ⟨row, rfl, hcol⟩ : ∃ row, out = [row] ∧ SourceRow.column row "user" = .string "alice" := by
    obtain ⟨row, hrow⟩ := List.length_eq_one_iff.mp (by
      have := congrArg List.length hout
      simpa using this : out.length = 1)
    refine ⟨row, hrow, ?_⟩
    rw [hrow] at hout
    simpa using hout
  have := hall nullUser _ ∅ hrun {} 1 [userRow "alice"] r₁ groups (by simp) hload r' [row] hok 0
    (0, [("user", .null)]) row "user" (by rw [hlog]; rfl) rfl (by simp)
  rw [hcol] at this
  cases this

end Settle
