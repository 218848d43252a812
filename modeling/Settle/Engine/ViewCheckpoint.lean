import Settle.Engine.ViewFold

/-!
# What a view stores

`write_checkpoint` stores the finalized part of the groups whose finalized state changed.
The stored part of a group, read back, is the group over the final chain alone
(`GroupRep.restoreGroup`), so in every run of a non-sliding view a checkpoint stores the
two-level folds of the final blocks (`view_run_is_fold`).
-/

namespace Settle

open Std

/-! ## Reading a group back -/

theorem countKind_block_isSome {vs : List Value} (h : vs ≠ []) :
    (countKind.block vs).isSome = true := by
  rcases List.eq_nil_or_concat vs with rfl | ⟨init, v, rfl⟩
  · exact absurd rfl h
  · rw [List.concat_eq_append, countKind.block_append]
    rfl

section Restore

variable {R : Type} [SourceRow R] {v : MVShape}

/-- The chain holds a row of the group. -/
def MVShape.HasRow (v : MVShape) (key : GroupKey) (ch : Chain R) : Prop :=
  ∃ (b : BlockNumber) (rows : List R), ch[b]? = some rows ∧ ∃ r ∈ rows, v.computeGroupKey r = key

/-- Each row of a group reaches each of its aggregates, and a count counts every row. -/
theorem MVShape.count_hasData {key : GroupKey} {ch : Chain R} {b : BlockNumber} {rows : List R}
    {r : R} (hb : ch[b]? = some rows) (hr : r ∈ rows) (hk : v.computeGroupKey r = key)
    (f : AggFeed) (hf : f.func = .count) :
    f.func.hasData f.columnType (v.columnList key f ch) = true := by
  rw [AggFunc.hasData, List.any_eq_true]
  refine ⟨v.valuesOf key f rows, ?_, ?_⟩
  · exact List.mem_map.mpr ⟨(b, rows), ExtTreeMap.mem_toList_iff_getElem?_eq_some.mpr hb, rfl⟩
  · have hne : v.valuesOf key f rows ≠ [] := by
      simp only [MVShape.valuesOf, ne_eq, List.map_eq_nil_iff, List.filter_eq_nil_iff,
        decide_eq_true_eq, not_forall, not_not]
      exact ⟨r, hr, hk⟩
    rw [hf, AggFunc.blockData, Option.isSome_map]
    exact countKind_block_isSome hne

private theorem mapM_restore {P : Agg → AggFeed → Prop} {aggs : List Agg} {feeds : List AggFeed}
    (h : List.Forall₂ (fun a f => ∃ a', restoreAgg f.func a.writeFinalized = some a' ∧ P a' f)
      aggs feeds) :
    ∃ aggs', ((feeds.zip (aggs.map Agg.writeFinalized)).mapM
        fun (e : AggFeed × StoredAgg) => restoreAgg e.1.func e.2) = some aggs' ∧
      List.Forall₂ P aggs' feeds := by
  induction h with
  | nil => exact ⟨[], rfl, .nil⟩
  | cons hp _ ih =>
    obtain ⟨a', ha, hP⟩ := hp
    obtain ⟨as', has, hPs⟩ := ih
    refine ⟨a' :: as', ?_, .cons hP hPs⟩
    rw [List.map_cons, List.zip_cons_cons, List.mapM_cons, ha, has]
    rfl

/-- **The stored part of a group, read back, is the group over the final chain.** -/
theorem GroupRep.restoreGroup {aggs : List Agg} {key : GroupKey} {fin unf : Chain R}
    (h : GroupRep v aggs key fin unf)
    (hrow : v.HasRow key fin) :
    ∃ aggs', v.restoreGroup (aggs.map Agg.writeFinalized) = some aggs' ∧
      GroupRep v aggs' key fin ∅ := by
  obtain ⟨b, rows, hb, r, hr, hk⟩ := hrow
  have hlen : aggs.length = v.feeds.length := h.length_eq
  have hall : List.Forall₂ (fun (a : Agg) (f : AggFeed) =>
      ∃ a', restoreAgg f.func a.writeFinalized = some a' ∧
        a'.Rep f.func f.columnType (v.columnList key f fin) (v.column key f (∅ : Chain R)))
      aggs v.feeds := by
    refine h.imp ?_
    intro a f ha
    obtain ⟨a', ha', hrep⟩ := ha.restoreAgg fun hc => MVShape.count_hasData hb hr hk f hc
    refine ⟨a', ha', ?_⟩
    have hempty : v.column key f (∅ : Chain R) = ∅ := OrdMap.mapEntries_empty _
    rwa [hempty]
  obtain ⟨aggs', hmap, hrep⟩ := mapM_restore hall
  refine ⟨aggs', ?_, hrep⟩
  rw [MVShape.restoreGroup, if_neg (by simp [hlen])]
  exact hmap

theorem GroupRep.folds_final {aggs : List Agg} {key : GroupKey} {fin : Chain R}
    (h : GroupRep v aggs key fin ∅) :
    aggs.map Agg.currentValue = v.foldGroup fin key ∧
    aggs.map Agg.hasData
      = v.feeds.map fun f => f.func.hasData f.columnType (v.columnList key f fin) := by
  have hb : Chain.Below fin fin := ⟨fun _ _ h => h, fun _ _ _ h hn => absurd h hn⟩
  have hm : fin.minus fin = ∅ := by
    ext b rows
    grind
  exact GroupRep.folds (by rw [hm]; exact h) hb

end Restore

/-! ## The writes of a checkpoint -/

namespace MVEngine

variable {v : MVShape}

/-- What `writePending` does: it writes the finalized part of the groups in memory, and
marks them. -/
theorem writePending_spec (n : Nat) (keys : List GroupKey) (m : MVEngine) (hnd : keys.Nodup) :
    (∀ w ∈ (writePending n m keys).2, ∃ key g, key ∈ keys ∧ m.groups[key]? = some g ∧
      w = .putGroup key (g.aggs.map Agg.writeFinalized)) ∧
    (∀ key ∈ keys, ∀ g, m.groups[key]? = some g →
      .putGroup key (g.aggs.map Agg.writeFinalized) ∈ (writePending n m keys).2) ∧
    (∀ key, (writePending n m keys).1.groups[key]?
      = m.groups[key]?.map fun g => if key ∈ keys then { g with written := n } else g) ∧
    (writePending n m keys).1 = { m with groups := (writePending n m keys).1.groups } := by
  induction keys generalizing m with
  | nil => simp [writePending]
  | cons k ks ih =>
    obtain ⟨hk, hks⟩ := List.nodup_cons.mp hnd
    rw [writePending]
    cases hg : m.groups[k]? with
    | none =>
      obtain ⟨h₁, h₂, h₃, h₄⟩ := ih m hks
      refine ⟨?_, ?_, ?_, h₄⟩
      · intro w hw
        obtain ⟨key, g, hkey, hgk, rfl⟩ := h₁ w hw
        exact ⟨key, g, List.mem_cons_of_mem _ hkey, hgk, rfl⟩
      · intro key hkey g hgk
        rcases List.mem_cons.mp hkey with rfl | hkey
        · rw [hg] at hgk; cases hgk
        · exact h₂ key hkey g hgk
      · intro key
        rw [h₃]
        by_cases hkk : key = k
        · subst hkk; simp [hg]
        · simp [hkk]
    | some g =>
      obtain ⟨h₁, h₂, h₃, h₄⟩ :=
        ih { m with groups := m.groups.insert k { g with written := n } } hks
      have hother : ∀ key ∈ ks, (m.groups.insert k { g with written := n })[key]?
          = m.groups[key]? := by
        intro key hkey
        have : k ≠ key := by rintro rfl; exact hk hkey
        grind
      dsimp only
      refine ⟨?_, ?_, ?_, ?_⟩
      · intro w hw
        rcases List.mem_cons.mp hw with rfl | hw
        · exact ⟨k, g, List.mem_cons_self, hg, rfl⟩
        · obtain ⟨key, g', hkey, hgk, rfl⟩ := h₁ w hw
          rw [hother key hkey] at hgk
          exact ⟨key, g', List.mem_cons_of_mem _ hkey, hgk, rfl⟩
      · intro key hkey g' hgk
        rcases List.mem_cons.mp hkey with rfl | hkey
        · rw [hg] at hgk; cases hgk
          exact List.mem_cons_self
        · exact List.mem_cons_of_mem _ (h₂ key hkey g' (by rw [hother key hkey]; exact hgk))
      · intro key
        rw [h₃]
        by_cases hkk : k = key
        · subst hkk
          simp [hg, hk]
        · have hne : key ≠ k := Ne.symm hkk
          have : (m.groups.insert k { g with written := n })[key]? = m.groups[key]? := by grind
          simp [this, hne]
      · rw [h₄]

/-- The groups after a checkpoint: the same aggregates. -/
theorem writeCheckpoint_groups (hv : v.slidingWindow = none) (m : MVEngine) (n : Nat)
    (key : GroupKey) : (writeCheckpoint v m n).1.groups[key]?
      = m.groups[key]?.map fun g =>
          if key ∈ m.pendingDurable.toList then { g with written := n } else g := by
  obtain ⟨-, -, h₃, -⟩ := writePending_spec n m.pendingDurable.toList
    { m with pendingDurable := ∅ } (OrdMap.nodup_toList _)
  simp only [writeCheckpoint, hv, Option.isSome_none, Bool.false_eq_true, ↓reduceIte]
  exact h₃ key

theorem writeCheckpoint_rest (hv : v.slidingWindow = none) (m : MVEngine) (n : Nat) :
    (writeCheckpoint v m n).1
      = { m with
          groups := (writeCheckpoint v m n).1.groups, pendingDurable := ∅, removedGroups := [] } := by
  obtain ⟨-, -, -, h₄⟩ := writePending_spec n m.pendingDurable.toList
    { m with pendingDurable := ∅ } (OrdMap.nodup_toList _)
  simp only [writeCheckpoint, hv, Option.isSome_none, Bool.false_eq_true, ↓reduceIte]
  rw [h₄]

/-- The stored groups are the waiting groups in memory. -/
theorem mem_writeCheckpoint_putGroup (hv : v.slidingWindow = none) {m : MVEngine} {n : Nat}
    {key : GroupKey} {state : List StoredAgg} :
    .putGroup key state ∈ (writeCheckpoint v m n).2 ↔
      key ∈ m.pendingDurable ∧ ∃ g, m.groups[key]? = some g ∧
        state = g.aggs.map Agg.writeFinalized := by
  obtain ⟨h₁, h₂, -, -⟩ := writePending_spec n m.pendingDurable.toList
    { m with pendingDurable := ∅ } (OrdMap.nodup_toList _)
  simp only [writeCheckpoint, hv, Option.isSome_none, Bool.false_eq_true, ↓reduceIte,
    List.mem_append, List.mem_map, reduceCtorEq, and_false, exists_false, or_false]
  constructor
  · intro hw
    obtain ⟨key', g, hkey, hg, heq⟩ := h₁ _ hw
    cases heq
    exact ⟨ExtTreeSet.mem_toList.mp hkey, g, hg, rfl⟩
  · rintro ⟨hkey, g, hg, rfl⟩
    exact h₂ key (ExtTreeSet.mem_toList.mpr hkey) g hg

end MVEngine

section ViewRep

variable {R : Type} [SourceRow R] {v : MVShape} {st : MvReads} {m : MVEngine}
  {A fin dur : Chain R}

theorem ViewRep.writeCheckpoint (h : ViewRep v st m A fin dur) (hv : v.slidingWindow = none)
    (n : Nat) : ViewRep v st (MVEngine.writeCheckpoint v m n).1 A fin dur := by
  have hrest := MVEngine.writeCheckpoint_rest hv m n
  have hgroups := MVEngine.writeCheckpoint_groups hv m n
  refine ⟨h.below, h.durable, ?_, ?_, ?_, ?_, ?_⟩
  · intro key g hg
    rw [hgroups] at hg
    obtain ⟨g₀, hg₀, rfl⟩ := Option.map_eq_some_iff.mp hg
    split <;> exact h.groups key g₀ hg₀
  · intro key hg f hf
    rw [hgroups] at hg
    exact h.absent key (Option.map_eq_none_iff.mp hg) f hf
  · rw [hrest]; exact h.tracked
  · rw [hrest]; exact h.tracks
  · intro key found hl
    rw [hrest] at hl
    exact h.stored key found hl

/-- A waiting group has a row in a final block. -/
def PendingRows (v : MVShape) (m : MVEngine) (fin : Chain R) : Prop :=
  ∀ key ∈ m.pendingDurable, v.HasRow key fin

theorem PendingRows.advanceFinality (hp : PendingRows v m fin) (h : ViewRep v st m A fin dur)
    (hv : v.slidingWindow = none) {p : BlockNumber} (hmax : p ≠ BlockNumber.max)
    (hle : ∀ b ∈ fin, b ≤ p) :
    PendingRows v (MVEngine.advanceFinality v m p) (OrdMap.keep A (· ≤ p)) := by
  intro key hkey
  simp only [MVEngine.advanceFinality, hv, Option.isSome_none, Bool.false_eq_true, ↓reduceIte,
    OrdMap.mem_foldl_insert] at hkey
  rcases hkey with hkey | hkey
  · -- finalized just now
    obtain ⟨b, hb, hk⟩ :=
      (MVEngine.mem_finalizeBlocksUpTo hmax key).mp (ExtTreeSet.mem_toList.mp hkey)
    obtain ⟨r, hr, hrk⟩ := h.tracked b key hk
    cases hrows : (A.minus fin)[b]? with
    | none => simp [hrows] at hr
    | some rows =>
      rw [hrows] at hr
      refine ⟨b, rows, ?_, r, hr, hrk⟩
      grind
  · have hkey' : key ∈ m.pendingDurable := hkey
    obtain ⟨b, rows, hb, hrow⟩ := hp key hkey'
    have := h.below.sub b rows hb
    have := hle b (OrdMap.mem_of_getElem?_eq hb)
    exact ⟨b, rows, by grind, hrow⟩

/-- **What a checkpoint stores of a group reads back as the group over the final blocks.** -/
theorem ViewRep.stored_folds (h : ViewRep v st m A fin dur) (hp : PendingRows v m fin)
    (hv : v.slidingWindow = none) {n : Nat} {key : GroupKey} {state : List StoredAgg}
    (hw : .putGroup key state ∈ (MVEngine.writeCheckpoint v m n).2) :
    ∃ aggs, v.restoreGroup state = some aggs ∧ GroupRep v aggs key fin ∅ := by
  obtain ⟨hkey, g, hg, rfl⟩ := (MVEngine.mem_writeCheckpoint_putGroup hv).mp hw
  exact GroupRep.restoreGroup (h.groups key g hg) (hp key hkey)

end ViewRep

end Settle
