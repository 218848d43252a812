import Settle.Engine.AggregationFold
import Settle.Engine.View

/-!
# View state as a from-scratch fold

A view stands for the *chain* of its source: the rows of the blocks that were applied and
not rolled back. `ViewRep` relates the engine of a non-sliding view to a chain `A`, the
part `fin` of it that is merged into finalized state, and the part `dur` of that which
storage holds. Each operation of the engine keeps the relation
(`ViewRep.applyRowsLoop`, `ViewRep.rollback`, `ViewRep.advanceFinality`, …), so in every
run the aggregates of every group are the two-level folds of the chain.
-/

namespace Settle

open Std

/-! ## Chains -/

/-- The rows of each block, in row order. -/
abbrev Chain (R : Type) := BTreeMap BlockNumber (List R)

namespace Chain

variable {R : Type}

/-- One more row of block `b`. -/
def push (ch : Chain R) (b : BlockNumber) (row : R) : Chain R :=
  ch.insert b (ch[b]?.getD [] ++ [row])

/-- The blocks of `ch` that `fin` does not hold. -/
def minus (ch fin : Chain R) : Chain R := OrdMap.keep ch fun b => !fin.contains b

/-- `fin` is the lower part of `ch`. -/
structure Below (fin ch : Chain R) : Prop where
  sub : ∀ (b : BlockNumber) rows, fin[b]? = some rows → ch[b]? = some rows
  lt : ∀ b ∈ fin, ∀ b' ∈ ch, b' ∉ fin → b < b'

@[grind =]
theorem getElem?_minus (ch fin : Chain R) (b : BlockNumber) :
    (ch.minus fin)[b]? = if b ∈ fin then none else ch[b]? := by
  rw [minus, OrdMap.getElem?_keep]
  by_cases h : b ∈ fin <;> simp [h]

@[grind =]
theorem getElem?_push (ch : Chain R) (b : BlockNumber) (row : R) (b' : BlockNumber) :
    (ch.push b row)[b']? = if b = b' then some (ch[b]?.getD [] ++ [row]) else ch[b']? := by
  rw [push, ExtTreeMap.getElem?_insert]
  simp

theorem minus_push (ch fin : Chain R) {b : BlockNumber} (h : b ∉ fin) (row : R) :
    (ch.push b row).minus fin = (ch.minus fin).push b row := by
  ext b' rows
  grind

/-- A chain lists the blocks of its lower part first. -/
theorem Below.toList {fin ch : Chain R} (h : Below fin ch) :
    ch.toList = fin.toList ++ (ch.minus fin).toList := by
  refine OrdMap.toList_eq_append ?_ ?_
  · intro b hb b' hb'
    have : b' ∈ ch ∧ b' ∉ fin := by
      obtain ⟨rows, hr⟩ := OrdMap.exists_getElem?_of_mem hb'
      grind
    exact h.lt b hb b' this.1 this.2
  · intro b rows
    have := h.sub b
    by_cases hb : b ∈ fin
    · obtain ⟨rows', hr⟩ := OrdMap.exists_getElem?_of_mem hb
      grind
    · grind

end Chain

/-! ## The folds of a chain -/

namespace MVShape

variable {R : Type} [SourceRow R] (v : MVShape)

/-- The values that the rows of the group `key` feed to an aggregation column: the column that it
reads, and 1 for a column that reads none. -/
def valuesOf (key : GroupKey) (f : AggFeed) (rows : List R) : List Value :=
  (rows.filter fun r => v.computeGroupKey r = key).map fun r =>
    match f.sourceCol with
    | some col => SourceRow.column r col
    | none => .uint64 1

/-- The values that each block feeds to an aggregation column of the group `key`. -/
def column (key : GroupKey) (f : AggFeed) (ch : Chain R) : BTreeMap BlockNumber (List Value) :=
  OrdMap.mapEntries ch fun _ rows => some (v.valuesOf key f rows)

/-- The data that the blocks hold for an aggregation column of the group `key`. -/
def data (key : GroupKey) (f : AggFeed) (ch : Chain R) : BTreeMap BlockNumber BlockData :=
  OrdMap.mapEntries ch fun _ rows => f.func.blockData f.columnType (v.valuesOf key f rows)

/-- The values that the blocks feed to an aggregation column, in block order. -/
def columnList (key : GroupKey) (f : AggFeed) (ch : Chain R) : List (List Value) :=
  ch.toList.map fun e => v.valuesOf key f e.2

/-- **The output of a group, from scratch**: for each aggregation column the two-level fold
of what the blocks of the chain fed it. -/
def foldGroup (ch : Chain R) (key : GroupKey) : List Value :=
  v.feeds.map fun f => f.func.fold f.columnType (v.columnList key f ch)

/-- Whether the chain holds data for some aggregation column of the group. -/
def foldHasData (ch : Chain R) (key : GroupKey) : Bool :=
  v.feeds.any fun f => f.func.hasData f.columnType (v.columnList key f ch)

/-- The chain holds no data for the group. -/
def NoData (key : GroupKey) (ch : Chain R) : Prop := ∀ f ∈ v.feeds, v.data key f ch = ∅

@[grind =]
theorem getElem?_column (key : GroupKey) (f : AggFeed) (ch : Chain R) (b : BlockNumber) :
    (v.column key f ch)[b]? = ch[b]?.map (v.valuesOf key f) := by
  rw [column, OrdMap.getElem?_mapEntries]
  cases ch[b]? <;> rfl

@[grind =]
theorem getElem?_data (key : GroupKey) (f : AggFeed) (ch : Chain R) (b : BlockNumber) :
    (v.data key f ch)[b]?
      = ch[b]?.bind fun rows => f.func.blockData f.columnType (v.valuesOf key f rows) := by
  rw [data, OrdMap.getElem?_mapEntries]

theorem column_values (key : GroupKey) (f : AggFeed) (ch : Chain R) :
    (v.column key f ch).toList.map Prod.snd = v.columnList key f ch := by
  rw [column, columnList, OrdMap.toList_mapEntries]
  simp [Function.comp_def]

/-- The data of the blocks, in block order. -/
theorem data_values (key : GroupKey) (f : AggFeed) (ch : Chain R) :
    (v.data key f ch).toList.map Prod.snd
      = (v.columnList key f ch).filterMap (f.func.blockData f.columnType) := by
  rw [data, columnList, OrdMap.toList_mapEntries, List.map_filterMap, List.filterMap_map]
  congr 1
  ext e
  simp

theorem valuesOf_append_self {key : GroupKey} {row : R} (h : v.computeGroupKey row = key)
    (f : AggFeed) (rows : List R) :
    v.valuesOf key f (rows ++ [row]) = v.valuesOf key f rows ++ [feedValue row f] := by
  simp only [valuesOf, List.filter_append, List.map_append, List.filter_singleton, h, decide_true]
  rfl

theorem valuesOf_append_other {key : GroupKey} {row : R} (h : v.computeGroupKey row ≠ key)
    (f : AggFeed) (rows : List R) :
    v.valuesOf key f (rows ++ [row]) = v.valuesOf key f rows := by
  simp [valuesOf, h]

theorem valuesOf_eq_nil {key : GroupKey} {rows : List R}
    (h : ∀ r ∈ rows, v.computeGroupKey r ≠ key) (f : AggFeed) : v.valuesOf key f rows = [] := by
  simp only [valuesOf, List.map_eq_nil_iff, List.filter_eq_nil_iff, decide_eq_true_eq]
  exact h

theorem column_push_self {key : GroupKey} {row : R} (h : v.computeGroupKey row = key)
    (f : AggFeed) (ch : Chain R) (b : BlockNumber) :
    v.column key f (ch.push b row) = feed (v.column key f ch) b (feedValue row f) := by
  refine ExtTreeMap.ext_getElem? fun b' => ?_
  have hd : (v.column key f ch)[b]?.getD [] = v.valuesOf key f (ch[b]?.getD []) := by
    rw [getElem?_column]
    cases ch[b]? <;> rfl
  rw [feed, hd, getElem?_column, Chain.getElem?_push, ExtTreeMap.getElem?_insert]
  by_cases hb : b = b'
  · subst hb
    simp [v.valuesOf_append_self h]
  · simp [hb, getElem?_column]

theorem data_push_other {key : GroupKey} {row : R} (h : v.computeGroupKey row ≠ key)
    (f : AggFeed) (ch : Chain R) (b : BlockNumber) :
    v.data key f (ch.push b row) = v.data key f ch := by
  refine ExtTreeMap.ext_getElem? fun b' => ?_
  rw [getElem?_data, getElem?_data, Chain.getElem?_push]
  by_cases hb : b = b'
  · subst hb
    simp only [↓reduceIte, Option.bind_some, v.valuesOf_append_other h]
    cases ch[b]? with
    | none => exact AggFunc.blockData_nil _ _
    | some rows => rfl
  · simp [hb]

/-- Two chains with the same rows of the group hold the same data of it. -/
theorem data_congr {key : GroupKey} {ch ch' : Chain R} (f : AggFeed)
    (h : ∀ b : BlockNumber, v.valuesOf key f (ch[b]?.getD []) = v.valuesOf key f (ch'[b]?.getD [])) :
    v.data key f ch = v.data key f ch' := by
  have hget : ∀ (ch : Chain R) (b : BlockNumber), (v.data key f ch)[b]?
      = f.func.blockData f.columnType (v.valuesOf key f (ch[b]?.getD [])) := by
    intro ch b
    rw [getElem?_data]
    cases ch[b]? with
    | none => exact (AggFunc.blockData_nil _ _).symm
    | some rows => rfl
  refine ExtTreeMap.ext_getElem? fun b => ?_
  rw [hget, hget, h b]

theorem hasData_iff (key : GroupKey) (f : AggFeed) (ch : Chain R) :
    f.func.hasData f.columnType (v.columnList key f ch) = !(v.data key f ch).toList.isEmpty := by
  have hmap : ∀ l : List (BlockNumber × BlockData), l.isEmpty = (l.map Prod.snd).isEmpty := by simp
  rw [hmap, data_values, AggFunc.hasData]
  generalize v.columnList key f ch = l
  induction l with
  | nil => rfl
  | cons vs rest ih => cases hb : f.func.blockData f.columnType vs <;> simp_all

theorem foldHasData_eq_false_iff (key : GroupKey) (ch : Chain R) :
    v.foldHasData ch key = false ↔ v.NoData key ch := by
  simp only [foldHasData, List.any_eq_false, hasData_iff, NoData]
  constructor
  · intro h f hf
    have := h f hf
    simp only [Bool.not_eq_true', Bool.not_eq_false, List.isEmpty_iff] at this
    exact ExtTreeMap.toList_eq_nil_iff.mp this
  · intro h f hf
    rw [h f hf]
    simp

end MVShape

/-! ## Groups -/

section GroupRep

variable {R : Type} [SourceRow R] (v : MVShape)

/-- `aggs` are the aggregates of the group `key` over the final chain `fin` and the
unfinal chain `unf`. -/
def GroupRep (aggs : List Agg) (key : GroupKey) (fin unf : Chain R) : Prop :=
  List.Forall₂ (fun a f => a.Rep f.func f.columnType (v.columnList key f fin) (v.column key f unf))
    aggs v.feeds

variable {v} {aggs : List Agg} {key : GroupKey} {fin unf : Chain R}

/-- Only the data of the chains counts. -/
theorem GroupRep.congr (h : GroupRep v aggs key fin unf) {fin' unf' : Chain R}
    (hfin : ∀ f ∈ v.feeds, v.data key f fin = v.data key f fin')
    (hunf : ∀ f ∈ v.feeds, v.data key f unf = v.data key f unf') :
    GroupRep v aggs key fin' unf' := by
  have hbind : ∀ (ch : Chain R) (f : AggFeed) (b : BlockNumber),
      (v.column key f ch)[b]?.bind (f.func.blockData f.columnType) = (v.data key f ch)[b]? := by
    intro ch f b
    rw [MVShape.getElem?_column, MVShape.getElem?_data]
    cases ch[b]? <;> rfl
  refine (List.forall₂_iff_get.mpr ?_)
  obtain ⟨hlen, hget⟩ := List.forall₂_iff_get.mp h
  refine ⟨hlen, fun i hi hi' => ?_⟩
  have hf : v.feeds.get ⟨i, hi'⟩ ∈ v.feeds := List.get_mem _ _
  refine (hget i hi hi').congr ?_ ?_
  · rw [← MVShape.data_values, ← MVShape.data_values, hfin _ hf]
  · intro b
    rw [hbind, hbind, hunf _ hf]

theorem groupRep_fresh (hfin : v.NoData key fin) (hunf : v.NoData key unf) :
    GroupRep v v.createAggVec key fin unf := by
  have hempty : GroupRep v v.createAggVec key (∅ : Chain R) ∅ := by
    rw [GroupRep, MVShape.createAggVec, List.forall₂_map_left_iff, List.forall₂_same]
    intro f _
    have hl : v.columnList key f (∅ : Chain R) = [] := by simp [MVShape.columnList]
    have hc : v.column key f (∅ : Chain R) = ∅ := OrdMap.mapEntries_empty _
    rw [hl, hc]
    exact Agg.rep_create _ _
  have hdata : ∀ f, v.data key f (∅ : Chain R) = ∅ := fun f => OrdMap.mapEntries_empty _
  exact hempty.congr (fun f hf => by rw [hdata, hfin f hf]) (fun f hf => by rw [hdata, hunf f hf])

private theorem forall₂_zipWith {α β : Type} {P Q : α → β → Prop} {g : α → β → α}
    (h : ∀ a b, P a b → Q (g a b) b) {l₁ : List α} {l₂ : List β} (hl : List.Forall₂ P l₁ l₂) :
    List.Forall₂ Q (List.zipWith g l₁ l₂) l₂ := by
  induction hl with
  | nil => exact .nil
  | cons hp _ ih => exact .cons (h _ _ hp) ih

private theorem forall₂_map_left {α β : Type} {P Q : α → β → Prop} {g : α → α}
    (h : ∀ a b, P a b → Q (g a) b) {l₁ : List α} {l₂ : List β} (hl : List.Forall₂ P l₁ l₂) :
    List.Forall₂ Q (l₁.map g) l₂ := by
  induction hl with
  | nil => exact .nil
  | cons hp _ ih => exact .cons (h _ _ hp) ih

theorem map_eq_map_of_forall₂ {α β γ : Type} {f : α → γ} {g : β → γ} {l₁ : List α}
    {l₂ : List β} (hl : List.Forall₂ (fun a b => f a = g b) l₁ l₂) : l₁.map f = l₂.map g := by
  induction hl with
  | nil => rfl
  | cons hp _ ih => rw [List.map_cons, List.map_cons, hp, ih]

/-- Feeding a row of the group is one more row of its unfinal chain. -/
theorem GroupRep.feedRow (h : GroupRep v aggs key fin unf) {row : R}
    (hkey : v.computeGroupKey row = key) (b : BlockNumber) :
    GroupRep v (aggs.zipWith (fun a f => a.addBlock b [MVShape.feedValue row f]) v.feeds) key fin
      (unf.push b row) := by
  refine forall₂_zipWith ?_ h
  intro a f ha
  rw [v.column_push_self hkey]
  exact ha.addBlock b _

theorem GroupRep.removeBlocksAfter (h : GroupRep v aggs key fin unf) (p : BlockNumber) :
    GroupRep v (aggs.map (·.removeBlocksAfter p)) key fin (OrdMap.keep unf (· ≤ p)) := by
  refine forall₂_map_left ?_ h
  intro a f ha
  rw [MVShape.column, OrdMap.mapEntries_keep]
  exact ha.removeBlocksAfter p

/-- The value and the presence of data of each aggregate are those of the whole chain. -/
theorem GroupRep.folds {ch : Chain R} (h : GroupRep v aggs key fin (ch.minus fin))
    (hb : Chain.Below fin ch) :
    aggs.map Agg.currentValue = v.foldGroup ch key ∧
    aggs.map Agg.hasData = v.feeds.map fun f => f.func.hasData f.columnType (v.columnList key f ch) := by
  have hlist : ∀ f, v.columnList key f fin ++ (v.column key f (ch.minus fin)).toList.map Prod.snd
      = v.columnList key f ch := by
    intro f
    rw [v.column_values, MVShape.columnList, MVShape.columnList, ← List.map_append, ← hb.toList,
      MVShape.columnList]
  have hval : List.Forall₂ (fun (a : Agg) (f : AggFeed) =>
      a.currentValue = f.func.fold f.columnType (v.columnList key f ch) ∧
      a.hasData = f.func.hasData f.columnType (v.columnList key f ch)) aggs v.feeds := by
    refine List.Forall₂.imp ?_ h
    intro a f ha
    rw [ha.currentValue, ha.hasData, hlist]
    exact ⟨rfl, rfl⟩
  exact ⟨map_eq_map_of_forall₂ (hval.imp fun _ _ h => h.1),
    map_eq_map_of_forall₂ (hval.imp fun _ _ h => h.2)⟩

end GroupRep

/-! ## Views -/

namespace MVEngine

/-- What a row of the group `key` finds: the group in memory, else what storage holds. -/
def findGroup (v : MVShape) (m : MVEngine) (st : MvReads) (key : GroupKey) :
    Except Error (Option Group) :=
  match m.groups[key]? with
  | some group => .ok (some group)
  | none => loadGroup v m st key

/-- The group that a row found, fed with the row. -/
def fedGroup {R : Type} [SourceRow R] (v : MVShape) (b : BlockNumber) (row : R)
    (found : Option Group) : Group :=
  let group := found.getD (Group.new v.createAggVec)
  { group with
    aggs := group.aggs.zipWith (fun a f => a.addBlock b [MVShape.feedValue row f]) v.feeds }

/-- The state after a row of the group `key`, when the row found `found`. -/
def withRow {R : Type} [SourceRow R] (v : MVShape) (b : BlockNumber) (row : R) (m : MVEngine)
    (found : Option Group) : MVEngine :=
  { m with
    groups := m.groups.insert (v.computeGroupKey row) (fedGroup v b row found)
    blockGroups := m.blockGroups.alter b fun keys =>
      some ((keys.getD ∅).insert (v.computeGroupKey row)) }

variable {R : Type} [SourceRow R] {v : MVShape} {st : MvReads} {m m' : MVEngine}

/-- **What one row does.** -/
theorem applyRow_ok {b : BlockNumber} {row : R} {t t' : Touched}
    (h : applyRow v st b row (m, t) = .ok (m', t')) :
    ∃ found, findGroup v m st (v.computeGroupKey row) = .ok found ∧
      m' = withRow v b row m found := by
  unfold applyRow at h
  dsimp only at h
  split at h
  · cases h
  · next found hf =>
    refine ⟨found, hf, ?_⟩
    cases found with
    | none => cases h; rfl
    | some group =>
      cases h
      -- the group that was found is written twice
      have hins : (m.groups.insert (v.computeGroupKey row) group).insert (v.computeGroupKey row)
          (fedGroup v b row (some group))
          = m.groups.insert (v.computeGroupKey row) (fedGroup v b row (some group)) := by
        ext k g
        grind
      rw [withRow, ← hins]
      rfl

/-- A view that reads no storage fails no row. -/
theorem applyRowsLoop_ok (hr : m.readsStorage = false) (b : BlockNumber) (rows : List R)
    (t : Touched) :
    (applyRowsLoop v st b rows (m, t)).2 = .ok () ∧
    (applyRowsLoop v st b rows (m, t)).1.1.readsStorage = false ∧
    (applyRowsLoop v st b rows (m, t)).1.1.pendingDurable = m.pendingDurable := by
  induction rows generalizing m t with
  | nil => exact ⟨rfl, hr, rfl⟩
  | cons row rest ih =>
    have hfind : ∃ found, findGroup v m st (v.computeGroupKey row) = .ok found := by
      rw [findGroup]
      cases m.groups[v.computeGroupKey row]? with
      | some g => exact ⟨_, rfl⟩
      | none => exact ⟨none, by simp [loadGroup, hr]⟩
    rw [applyRowsLoop]
    cases hrow : applyRow v st b row (m, t) with
    | error e =>
      obtain ⟨found, hf⟩ := hfind
      unfold applyRow at hrow
      dsimp only at hrow
      split at hrow
      · next e' hf' => cases hf.symm.trans hf'
      · cases hrow
    | ok s =>
      obtain ⟨m', t'⟩ := s
      obtain ⟨found, _, rfl⟩ := applyRow_ok hrow
      exact ih (m := withRow v b row m found) hr t'

end MVEngine

section ViewRep

variable {R : Type} [SourceRow R]

/-- The engine `m` of a non-sliding view holds the chain `A`: the blocks `fin` of it merged
into finalized state, the others tracked block by block. Storage holds `dur`. -/
structure ViewRep (v : MVShape) (st : MvReads) (m : MVEngine) (A fin dur : Chain R) : Prop where
  below : Chain.Below fin A
  durable : ∀ (b : BlockNumber) rows, dur[b]? = some rows → fin[b]? = some rows
  groups : ∀ key g, m.groups[key]? = some g → GroupRep v g.aggs key fin (A.minus fin)
  /-- a group that is not in memory has only the data that storage holds -/
  absent : ∀ key, m.groups[key]? = none → ∀ f ∈ v.feeds, v.data key f A = v.data key f dur
  /-- a block is tracked for groups that it has rows of, and for all that it has data of -/
  tracked : ∀ (b : BlockNumber) key, key ∈ m.blockGroups[b]?.getD ∅ →
    ∃ r ∈ (A.minus fin)[b]?.getD [], v.computeGroupKey r = key
  tracks : ∀ (b : BlockNumber) key, key ∉ m.blockGroups[b]?.getD ∅ →
    ∀ f ∈ v.feeds, (v.data key f (A.minus fin))[b]? = none
  stored : ∀ key found, MVEngine.loadGroup v m st key = .ok found →
    GroupRep v (found.getD (Group.new v.createAggVec)).aggs key dur ∅

variable {v : MVShape} {st : MvReads} {m m' : MVEngine} {A fin dur : Chain R}

/-- What a row finds are the aggregates of its group over the chain. -/
theorem ViewRep.find (h : ViewRep v st m A fin dur) {key : GroupKey} {found : Option Group}
    (hf : m.findGroup v st key = .ok found) :
    GroupRep v (found.getD (Group.new v.createAggVec)).aggs key fin (A.minus fin) := by
  rw [MVEngine.findGroup] at hf
  cases hg : m.groups[key]? with
  | some g =>
    rw [hg] at hf
    cases hf
    exact h.groups key g hg
  | none =>
    rw [hg] at hf
    refine (h.stored key found hf).congr ?_ ?_
    · intro f hfeed
      refine ExtTreeMap.ext_getElem? fun b => ?_
      have habs := congrArg (·[b]?) (h.absent key hg f hfeed)
      have hd := h.durable b
      have hs := h.below.sub b
      simp only [MVShape.getElem?_data] at habs ⊢
      cases hfb : fin[b]? with
      | none =>
        cases hdb : dur[b]? with
        | none => rfl
        | some rows => rw [hd rows hdb] at hfb; cases hfb
      | some rows => rw [← habs, hs rows hfb]
    · intro f hfeed
      refine ExtTreeMap.ext_getElem? fun b => ?_
      have habs := congrArg (·[b]?) (h.absent key hg f hfeed)
      have hd := h.durable b
      simp only [MVShape.getElem?_data, Chain.getElem?_minus] at habs ⊢
      by_cases hb : b ∈ fin
      · simp [hb]
      · have hnone : dur[b]? = none := by
          cases hdb : dur[b]? with
          | none => rfl
          | some rows => exact absurd (OrdMap.mem_of_getElem?_eq (hd rows hdb)) hb
        simp [hb, habs, hnone]

/-- A row of the newest block is one more row of the chain. -/
theorem ViewRep.applyRow (h : ViewRep v st m A fin dur) {b : BlockNumber} (hb : b ∉ fin)
    (hlt : ∀ b' ∈ fin, b' < b) {row : R} {t t' : Touched}
    (hr : MVEngine.applyRow v st b row (m, t) = .ok (m', t')) :
    ViewRep v st m' (A.push b row) fin dur := by
  obtain ⟨found, hfound, rfl⟩ := MVEngine.applyRow_ok hr
  have hrep := h.find hfound
  refine ⟨⟨?_, ?_⟩, h.durable, ?_, ?_, ?_, ?_, h.stored⟩
  · intro b' rows hb'
    have := h.below.sub b' rows hb'
    have : b ≠ b' := by
      rintro rfl
      exact hb (OrdMap.mem_of_getElem?_eq hb')
    rw [Chain.getElem?_push, if_neg this]
    assumption
  · intro b₁ h₁ b₂ h₂ hn
    by_cases hbb : b = b₂
    · subst hbb
      exact hlt b₁ h₁
    · refine h.below.lt b₁ h₁ b₂ ?_ hn
      obtain ⟨rows, hr⟩ := OrdMap.exists_getElem?_of_mem h₂
      rw [Chain.getElem?_push, if_neg hbb] at hr
      exact OrdMap.mem_of_getElem?_eq hr
  · intro key g hg
    rw [Chain.minus_push A fin hb]
    simp only [MVEngine.withRow, ExtTreeMap.getElem?_insert] at hg
    by_cases hkey : v.computeGroupKey row = key
    · subst hkey
      simp only [compare_self, ↓reduceIte, Option.some.injEq] at hg
      subst hg
      exact hrep.feedRow rfl b
    · simp only [Std.compare_eq_iff_eq, hkey, ↓reduceIte] at hg
      refine (h.groups key g hg).congr (fun _ _ => rfl) ?_
      intro f _
      rw [v.data_push_other hkey]
  · intro key hg f hf
    simp only [MVEngine.withRow, ExtTreeMap.getElem?_insert] at hg
    by_cases hkey : v.computeGroupKey row = key
    · simp [hkey] at hg
    · simp only [Std.compare_eq_iff_eq, hkey, ↓reduceIte] at hg
      rw [v.data_push_other hkey]
      exact h.absent key hg f hf
  · intro b' key
    rw [Chain.minus_push A fin hb, Chain.getElem?_push]
    simp only [MVEngine.withRow, ExtTreeMap.getElem?_alter, Std.compare_eq_iff_eq]
    by_cases hbb : b = b'
    · subst hbb
      simp only [↓reduceIte, Option.getD_some, ExtTreeSet.mem_insert, Std.compare_eq_iff_eq,
        List.mem_append, List.mem_singleton]
      rintro (hk | hk)
      · exact ⟨row, Or.inr rfl, hk⟩
      · obtain ⟨r, hr, hrk⟩ := h.tracked b key hk
        exact ⟨r, Or.inl hr, hrk⟩
    · simp only [hbb, ↓reduceIte]
      exact h.tracked b' key
  · intro b' key hk f hf
    rw [Chain.minus_push A fin hb]
    simp only [MVEngine.withRow, ExtTreeMap.getElem?_alter, Std.compare_eq_iff_eq] at hk
    have hold : key ∉ m.blockGroups[b']?.getD ∅ := by
      split at hk
      · next hbb =>
        subst hbb
        intro hm
        exact hk (by simp [hm])
      · exact hk
    by_cases hkey : v.computeGroupKey row = key
    · -- the row itself tracks its block
      have hbb : b ≠ b' := by
        rintro rfl
        simp [hkey] at hk
      rw [MVShape.getElem?_data, Chain.getElem?_push, if_neg hbb, ← MVShape.getElem?_data]
      exact h.tracks b' key hold f hf
    · rw [v.data_push_other hkey]
      exact h.tracks b' key hold f hf

/-- The relation reads the groups, the tracked blocks and whether storage is read. -/
theorem ViewRep.of_eq (h : ViewRep v st m A fin dur) (hg : m'.groups = m.groups)
    (hb : m'.blockGroups = m.blockGroups) (hs : m'.readsStorage = m.readsStorage) :
    ViewRep v st m' A fin dur := by
  refine ⟨h.below, h.durable, ?_, ?_, ?_, ?_, ?_⟩
  · rw [hg]; exact h.groups
  · rw [hg]; exact h.absent
  · rw [hb]; exact h.tracked
  · rw [hb]; exact h.tracks
  · intro key found hl
    refine h.stored key found ?_
    rw [MVEngine.loadGroup, ← hs]
    exact hl

/-- A view that reads no storage does not depend on it. -/
theorem ViewRep.change_reads (h : ViewRep v st m A fin dur) (hr : m.readsStorage = false)
    (st' : MvReads) : ViewRep v st' m A fin dur := by
  refine ⟨h.below, h.durable, h.groups, h.absent, h.tracked, h.tracks, ?_⟩
  intro key found hl
  refine h.stored key found ?_
  rw [MVEngine.loadGroup, hr] at hl ⊢
  exact hl

/-- A block without rows is no news. -/
theorem ViewRep.insert_nil (h : ViewRep v st m A fin dur) {b : BlockNumber} (hb : b ∉ A)
    (hlt : ∀ b' ∈ fin, b' < b) : ViewRep v st m (A.insert b []) fin dur := by
  have hbf : b ∉ fin := by
    intro hm
    obtain ⟨rows, hr⟩ := OrdMap.exists_getElem?_of_mem hm
    exact hb (OrdMap.mem_of_getElem?_eq (h.below.sub b rows hr))
  have hnone : A[b]? = none := by grind
  have hdata : ∀ key f, v.data key f (A.insert b []) = v.data key f A := by
    intro key f
    refine v.data_congr f fun b' => ?_
    rw [ExtTreeMap.getElem?_insert]
    by_cases hbb : b = b'
    · subst hbb; simp [hnone]
    · simp [hbb]
  have hget : ∀ b' : BlockNumber, ((Chain.minus (A.insert b []) fin))[b']?.getD []
      = (A.minus fin)[b']?.getD [] := by
    intro b'
    grind
  refine ⟨⟨?_, ?_⟩, h.durable, ?_, ?_, ?_, ?_, h.stored⟩
  · intro b' rows hr
    have := h.below.sub b' rows hr
    grind
  · intro b₁ h₁ b₂ h₂ hn
    by_cases hbb : b = b₂
    · subst hbb; exact hlt b₁ h₁
    · exact h.below.lt b₁ h₁ b₂ (by grind) hn
  · intro key g hg
    refine (h.groups key g hg).congr (fun _ _ => rfl) ?_
    intro f _
    exact v.data_congr f fun b' => by rw [hget]
  · intro key hg f hf
    rw [hdata]
    exact h.absent key hg f hf
  · intro b' key
    rw [hget]
    exact h.tracked b' key
  · intro b' key hk f hf
    have heq : v.data key f (Chain.minus (A.insert b []) fin) = v.data key f (A.minus fin) :=
      v.data_congr f fun b' => by rw [hget]
    rw [heq]
    exact h.tracks b' key hk f hf

/-- The rows of the newest block, up to the first whose group fails to load. -/
theorem ViewRep.applyRowsLoop {b : BlockNumber} {before : List R} (hb : b ∉ fin)
    (hlt : ∀ b' ∈ fin, b' < b) (rows : List R) (t : Touched)
    (h : ViewRep v st m (A.insert b before) fin dur) :
    ∃ done, done <+: rows ∧
      ((MVEngine.applyRowsLoop v st b rows (m, t)).2 = .ok () → done = rows) ∧
      ViewRep v st (MVEngine.applyRowsLoop v st b rows (m, t)).1.1 (A.insert b (before ++ done))
        fin dur := by
  induction rows generalizing m t before with
  | nil =>
    refine ⟨[], List.nil_prefix, fun _ => rfl, ?_⟩
    rw [List.append_nil]
    exact h
  | cons row rest ih =>
    rw [MVEngine.applyRowsLoop]
    cases hr : MVEngine.applyRow v st b row (m, t) with
    | error e =>
      refine ⟨[], List.nil_prefix, fun hok => ?_, ?_⟩
      · simp at hok
      · rw [List.append_nil]
        exact h
    | ok s =>
      obtain ⟨m', t'⟩ := s
      have hstep := h.applyRow hb hlt hr
      have hpush : Chain.push (A.insert b before) b row = A.insert b (before ++ [row]) := by
        ext b' rows'
        rw [Chain.getElem?_push]
        grind
      rw [hpush] at hstep
      obtain ⟨done, hpre, hall, hrep⟩ := ih t' hstep
      refine ⟨row :: done, List.prefix_cons_inj row |>.mpr hpre, ?_, ?_⟩
      · exact fun hok => by rw [hall hok]
      · rw [List.append_assoc] at hrep
        exact hrep

/-! ### Emitting changes -/

theorem MVEngine.groupHasData_eq {key : GroupKey} {g : Group} (h : ViewRep v st m A fin dur)
    (hg : m.groups[key]? = some g) : m.groupHasData key = v.foldHasData A key := by
  have hf := ((h.groups key g hg).folds h.below).2
  rw [MVEngine.groupHasData, hg, MVShape.foldHasData]
  dsimp only
  have hany : ∀ {α : Type} (l : List α) (p : α → Bool), l.any p = (l.map p).any id := by
    intro α l p; simp
  rw [hany, hf, ← hany]

/-- A group without data may leave memory. -/
theorem ViewRep.erase (h : ViewRep v st m A fin dur) {key : GroupKey}
    (hd : m.groupHasData key = false) (hg : m'.groups = m.groups.erase key)
    (hb : m'.blockGroups = m.blockGroups) (hs : m'.readsStorage = m.readsStorage) :
    ViewRep v st m' A fin dur := by
  refine ⟨h.below, h.durable, ?_, ?_, ?_, ?_, ?_⟩
  · intro key' g hg'
    rw [hg] at hg'
    exact h.groups key' g (by grind)
  · intro key' hg' f hf
    by_cases hk : key = key'
    · subst hk
      cases hkg : m.groups[key]? with
      | none => exact h.absent key hkg f hf
      | some g =>
        -- no data in the chain, hence none in the part that storage holds
        rw [MVEngine.groupHasData_eq h hkg, v.foldHasData_eq_false_iff] at hd
        rw [hd f hf]
        refine ExtTreeMap.ext_getElem? fun b => ?_
        have hnone := congrArg (·[b]?) (hd f hf)
        have hsub := h.below.sub b
        have hdur := h.durable b
        simp only [MVShape.getElem?_data, ExtTreeMap.getElem?_empty] at hnone ⊢
        cases hdb : dur[b]? with
        | none => rfl
        | some rows => rw [hsub rows (hdur rows hdb)] at hnone; exact hnone.symm
    · rw [hg] at hg'
      exact h.absent key' (by grind) f hf
  · rw [hb]; exact h.tracked
  · rw [hb]; exact h.tracks
  · intro key' found hl
    refine h.stored key' found ?_
    rw [MVEngine.loadGroup, ← hs]
    exact hl

theorem ViewRep.emitChange (h : ViewRep v st m A fin dur) (key : GroupKey)
    (prev : Option (List Value)) : ViewRep v st (MVEngine.emitChange v m key prev).1 A fin dur := by
  unfold MVEngine.emitChange
  dsimp only
  split
  · exact h
  · split <;> exact h
  · next hd => exact h.erase hd rfl rfl rfl
  · next hd => exact h.erase hd rfl rfl rfl

theorem ViewRep.emitChanges (touched : List (GroupKey × Option (List Value)))
    (h : ViewRep v st m A fin dur) :
    ViewRep v st (MVEngine.emitChanges v m touched).1 A fin dur := by
  induction touched generalizing m with
  | nil => exact h
  | cons e rest ih =>
    rw [MVEngine.emitChanges]
    exact ih (h.emitChange e.1 e.2)

theorem ViewRep.dropEmptyGroups (touched : List (GroupKey × Option (List Value)))
    (h : ViewRep v st m A fin dur) :
    ViewRep v st (MVEngine.dropEmptyGroups m touched) A fin dur := by
  induction touched generalizing m with
  | nil => exact h
  | cons e rest ih =>
    rw [MVEngine.dropEmptyGroups]
    refine ih ?_
    split
    · exact h
    · next hd => exact h.erase (by simpa using hd) rfl rfl rfl

namespace MVEngine

/-- Emitting changes touches the groups and the groups to delete. -/
theorem emitChanges_frame (touched : List (GroupKey × Option (List Value))) (m : MVEngine) :
    (emitChanges v m touched).1
      = { m with
          groups := (emitChanges v m touched).1.groups
          removedGroups := (emitChanges v m touched).1.removedGroups } := by
  induction touched generalizing m with
  | nil => rfl
  | cons e rest ih =>
    have hone : (emitChange v m e.1 e.2).1
        = { m with
            groups := (emitChange v m e.1 e.2).1.groups
            removedGroups := (emitChange v m e.1 e.2).1.removedGroups } := by
      unfold emitChange
      dsimp only
      split
      · rfl
      · split <;> rfl
      · rfl
      · rfl
    rw [emitChanges]
    dsimp only
    rw [ih (emitChange v m e.1 e.2).1, hone]

theorem dropEmptyGroups_frame (touched : List (GroupKey × Option (List Value))) (m : MVEngine) :
    dropEmptyGroups m touched
      = { m with
          groups := (dropEmptyGroups m touched).groups
          removedGroups := (dropEmptyGroups m touched).removedGroups } := by
  induction touched generalizing m with
  | nil => rfl
  | cons e rest ih =>
    rw [dropEmptyGroups]
    split
    · exact ih m
    · rw [ih]

end MVEngine

/-! ### Rollback -/

namespace MVEngine

/-- The touched groups after a loop of snapshots: each key once. -/
theorem foldl_snapshot_keys (m : MVEngine) (keys : List GroupKey) (t : Touched)
    (ht : (t.groups.map Prod.fst).Nodup) :
    ((keys.foldl (snapshot m) t).groups.map Prod.fst).Nodup ∧
    ∀ key, key ∈ (keys.foldl (snapshot m) t).groups.map Prod.fst
      ↔ key ∈ keys ∨ key ∈ t.groups.map Prod.fst := by
  induction keys generalizing t with
  | nil => exact ⟨ht, by simp⟩
  | cons k ks ih =>
    have hsnap : ∀ key, key ∈ (snapshot m t k).groups.map Prod.fst
        ↔ key = k ∨ key ∈ t.groups.map Prod.fst := by
      intro key
      rw [snapshot]
      split
      · next hany =>
        obtain ⟨e, he, hk⟩ := List.any_eq_true.mp hany
        have hmem : k ∈ t.groups.map Prod.fst :=
          List.mem_map.mpr ⟨e, he, by simpa using hk⟩
        constructor
        · exact Or.inr
        · rintro (rfl | h)
          · exact hmem
          · exact h
      · simp only [List.map_append, List.map_cons, List.map_nil, List.mem_append,
          List.mem_singleton]
        exact or_comm
    have hnd : ((snapshot m t k).groups.map Prod.fst).Nodup := by
      rw [snapshot]
      split
      · exact ht
      · next hany =>
        simp only [List.map_append, List.map_cons, List.map_nil]
        refine List.nodup_append.mpr ⟨ht, List.nodup_singleton k, ?_⟩
        intro x hx y hy hxy
        obtain rfl := List.mem_singleton.mp hy
        subst hxy
        obtain ⟨e, he, rfl⟩ := List.mem_map.mp hx
        exact hany (List.any_eq_true.mpr ⟨e, he, by simp⟩)
    obtain ⟨h₁, h₂⟩ := ih (snapshot m t k) hnd
    refine ⟨h₁, fun key => ?_⟩
    rw [List.foldl_cons, h₂, hsnap, List.mem_cons]
    constructor
    · rintro (h | h | h)
      · exact Or.inl (Or.inr h)
      · exact Or.inl (Or.inl h)
      · exact Or.inr h
    · rintro ((h | h) | h)
      · exact Or.inr (Or.inl h)
      · exact Or.inl h
      · exact Or.inr (Or.inr h)

/-- The groups of the blocks from `p` up. -/
theorem mem_rolledBack {m : MVEngine} {p b : BlockNumber} {key : GroupKey} (hb : p ≤ b)
    (hk : key ∈ m.blockGroups[b]?.getD ∅) :
    key ∈ (OrdMap.keep m.blockGroups (p ≤ ·)).toList.flatMap
      fun (e : BlockNumber × FxHashSet GroupKey) => e.2.toList := by
  cases hks : m.blockGroups[b]? with
  | none => simp [hks] at hk
  | some ks =>
    rw [hks, Option.getD_some] at hk
    refine List.mem_flatMap.mpr ⟨(b, ks), ?_, ExtTreeSet.mem_toList.mpr hk⟩
    rw [ExtTreeMap.mem_toList_iff_getElem?_eq_some, OrdMap.getElem?_keep]
    simp [hb, hks]

end MVEngine

omit [SourceRow R] in
theorem Chain.minus_keep (A fin : Chain R) (p : BlockNumber → Bool) :
    Chain.minus (OrdMap.keep A p) fin = OrdMap.keep (A.minus fin) p := by
  ext b rows
  grind

/-- A rollback to `p`: `m'` holds the groups of `m` without the blocks above `p`. -/
theorem ViewRep.dropAbove (h : ViewRep v st m A fin dur) {p : BlockNumber}
    (hp : ∀ b ∈ fin, b ≤ p) {keys : List GroupKey} (hnd : keys.Nodup)
    (hkeys : ∀ key, (∃ (b : BlockNumber), p < b ∧ key ∈ m.blockGroups[b]?.getD ∅) → key ∈ keys)
    (hg : m'.groups = MVEngine.removeBlocksAfter p keys m.groups)
    (hb : m'.blockGroups = OrdMap.keep m.blockGroups (· ≤ p))
    (hs : m'.readsStorage = m.readsStorage) :
    ViewRep v st m' (OrdMap.keep A (· ≤ p)) fin dur := by
  have hgroup : ∀ key, m'.groups[key]? = if key ∈ keys then
      m.groups[key]?.map fun g => { g with aggs := g.aggs.map (·.removeBlocksAfter p) }
      else m.groups[key]? := by
    intro key
    rw [hg, MVEngine.removeBlocksAfter, OrdMap.getElem?_foldl_modify _ hnd]
    congr
  -- a group that no block above `p` tracks has no data there
  have hdata : ∀ key, key ∉ keys → ∀ f ∈ v.feeds,
      v.data key f (A.minus fin) = v.data key f (OrdMap.keep (A.minus fin) (· ≤ p)) := by
    intro key hk f hf
    refine ExtTreeMap.ext_getElem? fun b => ?_
    by_cases hbp : b ≤ p
    · simp [MVShape.getElem?_data, hbp]
    · have hnone := h.tracks b key (fun hm => hk (hkeys key ⟨b, by grind, hm⟩)) f hf
      rw [hnone]
      simp [MVShape.getElem?_data, hbp]
  refine ⟨⟨?_, ?_⟩, h.durable, ?_, ?_, ?_, ?_, ?_⟩
  · intro b rows hr
    have := h.below.sub b rows hr
    have := hp b (OrdMap.mem_of_getElem?_eq hr)
    grind
  · intro b₁ h₁ b₂ h₂ hn
    exact h.below.lt b₁ h₁ b₂ (by grind) hn
  · intro key g hg'
    rw [Chain.minus_keep]
    rw [hgroup] at hg'
    split at hg'
    · next hk =>
      obtain ⟨g₀, hg₀, rfl⟩ := Option.map_eq_some_iff.mp hg'
      exact (h.groups key g₀ hg₀).removeBlocksAfter p
    · next hk =>
      exact (h.groups key g hg').congr (fun _ _ => rfl) fun f hf => hdata key hk f hf
  · intro key hg' f hf
    have hnone : m.groups[key]? = none := by
      rw [hgroup] at hg'
      split at hg'
      · exact Option.map_eq_none_iff.mp hg'
      · exact hg'
    have habs := h.absent key hnone f hf
    -- what storage holds is at or below `p`
    rw [← habs]
    refine ExtTreeMap.ext_getElem? fun b => ?_
    have hbb := congrArg (·[b]?) habs
    have hdur := h.durable b
    simp only [MVShape.getElem?_data, OrdMap.getElem?_keep] at hbb ⊢
    by_cases hbp : b ≤ p
    · simp [hbp]
    · have : dur[b]? = none := by
        cases hdb : dur[b]? with
        | none => rfl
        | some rows => exact absurd (hp b (OrdMap.mem_of_getElem?_eq (hdur rows hdb))) hbp
      simp [hbp, hbb, this]
  · intro b key
    rw [Chain.minus_keep, hb, OrdMap.getElem?_keep, OrdMap.getElem?_keep]
    by_cases hbp : b ≤ p
    · simpa [hbp] using h.tracked b key
    · simp [hbp]
  · intro b key hk f hf
    rw [hb, OrdMap.getElem?_keep] at hk
    rw [Chain.minus_keep, MVShape.getElem?_data, OrdMap.getElem?_keep]
    by_cases hbp : b ≤ p
    · simp only [hbp, decide_true, ↓reduceIte] at hk ⊢
      rw [← MVShape.getElem?_data]
      exact h.tracks b key hk f hf
    · simp [hbp]
  · intro key found hl
    refine h.stored key found ?_
    rw [MVEngine.loadGroup, ← hs]
    exact hl

/-- **A rollback drops the blocks above the fork point**, which is at or above every final
block. -/
theorem ViewRep.rollback (h : ViewRep v st m A fin dur) (hv : v.slidingWindow = none)
    {p : BlockNumber} (hp : ∀ b ∈ fin, b ≤ p) :
    ViewRep v st (MVEngine.rollback v m p).1 (OrdMap.keep A (· ≤ p)) fin dur := by
  unfold MVEngine.rollback
  split
  · next hmax =>
    have hall : OrdMap.keep A (· ≤ p) = A := by
      refine OrdMap.keep_eq_self A ?_
      intro b _
      rw [hmax, BlockNumber.max]
      grind
    rw [hall]
    exact h
  · next hmax =>
    have hlt : ∀ b : BlockNumber, (b < p + 1) ↔ b ≤ p := fun b => BlockNumber.lt_succ_iff hmax
    have hle : ∀ b : BlockNumber, (p + 1 ≤ b) ↔ p < b := by
      intro b
      have := hlt b
      grind
    have hkeep : OrdMap.keep m.blockGroups (· < p + 1) = OrdMap.keep m.blockGroups (· ≤ p) := by
      ext b ks
      simp [hlt]
    have hrolled : ∀ key, (∃ (b : BlockNumber), p < b ∧ key ∈ m.blockGroups[b]?.getD ∅) →
        key ∈ (OrdMap.keep m.blockGroups (p + 1 ≤ ·)).toList.flatMap
          fun (e : BlockNumber × FxHashSet GroupKey) => e.2.toList := by
      rintro key ⟨b, hb, hk⟩
      exact MVEngine.mem_rolledBack ((hle b).mpr hb) hk
    dsimp only
    split
    · next hempty =>
      -- no block above `p` holds rows
      have hnil : (OrdMap.keep m.blockGroups (p + 1 ≤ ·)) = ∅ := by
        simp only [Bool.and_eq_true] at hempty
        exact ExtTreeMap.isEmpty_iff.mp hempty.1.1
      refine h.dropAbove hp List.nodup_nil ?_ rfl hkeep rfl
      intro key hk
      have := hrolled key hk
      simp [hnil] at this
    · rw [if_neg (by simp [hv])]
      obtain ⟨hnd, hmem⟩ := MVEngine.foldl_snapshot_keys
        { m with
          blockGroups := OrdMap.keep m.blockGroups (· < p + 1)
          expired := OrdMap.keep m.expired (· < p + 1)
          blockTimes := (m.blockTimes.splitOff (p + 1)).2
          unstored := m.unstored.filter (· < p + 1) }
        ((OrdMap.keep m.blockGroups (p + 1 ≤ ·)).toList.flatMap
          fun (e : BlockNumber × FxHashSet GroupKey) => e.2.toList) {} List.nodup_nil
      refine ViewRep.emitChanges _ ?_
      refine h.dropAbove hp hnd ?_ rfl hkeep rfl
      intro key hk
      exact (hmem key).mpr (Or.inl (hrolled key hk))

/-! ### Finality -/

omit [SourceRow R] in
theorem Chain.below_keep {A fin : Chain R} (hb : Chain.Below fin A) {p : BlockNumber}
    (hp : ∀ b ∈ fin, b ≤ p) : Chain.Below fin (OrdMap.keep A (· ≤ p)) := by
  refine ⟨?_, ?_⟩
  · intro b rows hr
    have := hb.sub b rows hr
    have := hp b (OrdMap.mem_of_getElem?_eq hr)
    grind
  · intro b₁ h₁ b₂ h₂ hn
    exact hb.lt b₁ h₁ b₂ (by grind) hn

omit [SourceRow R] in
/-- The part of a chain at or below a block is its lower part. -/
theorem Chain.keep_below (A : Chain R) (p : BlockNumber) :
    Chain.Below (OrdMap.keep A (· ≤ p)) A := by
  refine ⟨?_, ?_⟩
  · intro b rows hr
    grind
  · intro b₁ h₁ b₂ h₂ hn
    grind

omit [SourceRow R] in
theorem Chain.minus_keep_le {A fin : Chain R} {p : BlockNumber} (hp : ∀ b ∈ fin, b ≤ p) :
    A.minus (OrdMap.keep A (· ≤ p)) = OrdMap.keep (A.minus fin) (p < ·) := by
  ext b rows
  have := hp b
  grind

theorem GroupRep.finalizeUpTo {aggs : List Agg} {key : GroupKey}
    (h : GroupRep v aggs key fin (A.minus fin)) (hb : Chain.Below fin A) {p : BlockNumber}
    (hp : ∀ b ∈ fin, b ≤ p) :
    GroupRep v (aggs.map (·.finalizeUpTo p)) key (OrdMap.keep A (· ≤ p))
      (A.minus (OrdMap.keep A (· ≤ p))) := by
  refine forall₂_map_left ?_ h
  intro a f ha
  have hfin : v.columnList key f (OrdMap.keep A (· ≤ p)) = v.columnList key f fin
      ++ (OrdMap.keep (v.column key f (A.minus fin)) (· ≤ p)).toList.map Prod.snd := by
    rw [MVShape.columnList, (Chain.below_keep hb hp).toList, List.map_append, Chain.minus_keep]
    congr 1
    rw [MVShape.column, ← OrdMap.mapEntries_keep]
    exact (v.column_values key f _).symm
  have hunf : v.column key f (A.minus (OrdMap.keep A (· ≤ p)))
      = OrdMap.keep (v.column key f (A.minus fin)) (p < ·) := by
    rw [Chain.minus_keep_le hp, MVShape.column, OrdMap.mapEntries_keep]
    rfl
  rw [hfin, hunf]
  exact ha.finalizeUpTo p

/-- The keys of the blocks at or below `p` that the view still tracks. -/
theorem MVEngine.mem_finalizeBlocksUpTo {p : BlockNumber} (hmax : p ≠ BlockNumber.max)
    (key : GroupKey) : key ∈ (MVEngine.finalizeBlocksUpTo m p).2
      ↔ ∃ b : BlockNumber, b ≤ p ∧ key ∈ m.blockGroups[b]?.getD ∅ := by
  unfold MVEngine.finalizeBlocksUpTo
  rw [OrdMap.mem_foldl_insert, List.mem_flatMap]
  simp only [Prod.exists, ExtTreeMap.mem_toList_iff_getElem?_eq_some, OrdMap.getElem?_keep,
    ExtTreeSet.mem_toList, ExtTreeSet.not_mem_empty, or_false,
    decide_eq_true_eq, BlockNumber.lt_succ_iff hmax]
  constructor
  · rintro ⟨b, ks, hks, hk⟩
    split at hks
    · next hb => exact ⟨b, hb, by rw [hks]; exact hk⟩
    · cases hks
  · rintro ⟨b, hb, hk⟩
    cases hks : m.blockGroups[b]? with
    | none => simp [hks] at hk
    | some ks => exact ⟨b, ks, by simp [hb, hks], by simpa [hks] using hk⟩

/-- **An advance of finality merges the blocks at or below it.** -/
theorem ViewRep.advanceFinality (h : ViewRep v st m A fin dur) (hv : v.slidingWindow = none)
    {p : BlockNumber} (hmax : p ≠ BlockNumber.max) (hp : ∀ b ∈ fin, b ≤ p) :
    ViewRep v st (MVEngine.advanceFinality v m p) A (OrdMap.keep A (· ≤ p)) dur := by
  have hbg : (MVEngine.advanceFinality v m p).blockGroups = OrdMap.keep m.blockGroups (p < ·) := by
    have hle : ∀ b : BlockNumber, (p + 1 ≤ b) ↔ p < b := by
      intro b
      have := @BlockNumber.lt_succ_iff b p hmax
      grind
    simp only [MVEngine.advanceFinality, hv, Option.isSome_none, Bool.false_eq_true, ↓reduceIte,
      MVEngine.finalizeBlocksUpTo, hle]
  have hgroup : ∀ key, (MVEngine.advanceFinality v m p).groups[key]?
      = if key ∈ (MVEngine.finalizeBlocksUpTo m p).2.toList then
          m.groups[key]?.map fun g => { g with aggs := g.aggs.map (·.finalizeUpTo p) }
        else m.groups[key]? := by
    intro key
    simp only [MVEngine.advanceFinality, hv, Option.isSome_none, Bool.false_eq_true, ↓reduceIte]
    rw [MVEngine.finalizeBlocksUpTo]
    dsimp only
    rw [OrdMap.getElem?_foldl_modify _ (OrdMap.nodup_toList _)]
    congr
  -- a group that no block at or below `p` tracks has no data to merge
  have hnone : ∀ key, key ∉ (MVEngine.finalizeBlocksUpTo m p).2.toList → ∀ f ∈ v.feeds,
      ∀ b : BlockNumber, b ≤ p → (v.data key f (A.minus fin))[b]? = none := by
    intro key hk f hf b hbp
    refine h.tracks b key ?_ f hf
    intro hm
    refine hk (ExtTreeSet.mem_toList.mpr ((MVEngine.mem_finalizeBlocksUpTo hmax key).mpr ?_))
    exact ⟨b, hbp, hm⟩
  refine ⟨Chain.keep_below A p, ?_, ?_, ?_, ?_, ?_, ?_⟩
  · intro b rows hr
    have hf := h.durable b rows hr
    have := h.below.sub b rows hf
    have := hp b (OrdMap.mem_of_getElem?_eq hf)
    grind
  · intro key g hg
    rw [hgroup] at hg
    split at hg
    · obtain ⟨g₀, hg₀, rfl⟩ := Option.map_eq_some_iff.mp hg
      exact (h.groups key g₀ hg₀).finalizeUpTo h.below hp
    · next hk =>
      refine (h.groups key g hg).congr ?_ ?_
      · intro f hf
        refine ExtTreeMap.ext_getElem? fun b => ?_
        have hnb := hnone key hk f hf b
        rw [MVShape.getElem?_data] at hnb ⊢
        rw [MVShape.getElem?_data, OrdMap.getElem?_keep]
        by_cases hbf : b ∈ fin
        · obtain ⟨rows, hr⟩ := OrdMap.exists_getElem?_of_mem hbf
          have hbp := hp b hbf
          simp [hr, hbp, h.below.sub b rows hr]
        · have hfb : fin[b]? = none := by grind
          by_cases hbp : b ≤ p
          · rw [Chain.getElem?_minus, if_neg hbf] at hnb
            simp [hfb, hbp, hnb hbp]
          · simp [hbp, hfb]
      · intro f hf
        rw [Chain.minus_keep_le hp]
        refine ExtTreeMap.ext_getElem? fun b => ?_
        by_cases hbp : p < b
        · simp [MVShape.getElem?_data, hbp]
        · rw [hnone key hk f hf b (by grind)]
          simp [MVShape.getElem?_data, hbp]
  · intro key hg f hf
    refine h.absent key ?_ f hf
    rw [hgroup] at hg
    split at hg
    · exact Option.map_eq_none_iff.mp hg
    · exact hg
  · intro b key
    rw [hbg, Chain.minus_keep_le hp, OrdMap.getElem?_keep, OrdMap.getElem?_keep]
    by_cases hbp : p < b
    · simpa [hbp] using h.tracked b key
    · simp [hbp]
  · intro b key hk f hf
    rw [hbg, OrdMap.getElem?_keep] at hk
    rw [Chain.minus_keep_le hp, MVShape.getElem?_data, OrdMap.getElem?_keep]
    by_cases hbp : p < b
    · simp only [hbp, decide_true, ↓reduceIte] at hk ⊢
      rw [← MVShape.getElem?_data]
      exact h.tracks b key hk f hf
    · simp [hbp]
  · intro key found hl
    refine h.stored key found ?_
    rw [MVEngine.loadGroup]
    rw [MVEngine.loadGroup] at hl
    simpa only [MVEngine.advanceFinality, hv, Option.isSome_none, Bool.false_eq_true, ↓reduceIte,
      MVEngine.finalizeBlocksUpTo] using hl

end ViewRep

end Settle
