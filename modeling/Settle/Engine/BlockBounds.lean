import Settle.Engine.Reducer
import Settle.Engine.View

/-!
# The block bounds of the nodes

`finalizeThrough` and `rollbackAbove` are what `advance_finality` and `rollback` of a reducer and of
a view are meant to do: the blocks up to a block become final, the blocks above it go. They compare
with the block itself.

The source compares with `block + 1`, a `u64`. `rollback` returns early at `u64::MAX`, where the sum
wraps, and a sliding window does not add. The finality of a reducer and of a view without a window
adds without a guard: at `u64::MAX` no block becomes final.
-/

namespace Settle

open Std

/-! ## Bounds -/

namespace BlockNumber

theorem not_max_lt (b : BlockNumber) : ¬ max < b := UInt64.not_lt.mpr (le_max b)

theorem ne_max_of_lt {a b : BlockNumber} (h : a < b) : a ≠ max :=
  fun hmax => not_max_lt b (hmax ▸ h)

/-- Below `u64::MAX` the successor of a block is the first block above it. -/
theorem succ_le_iff {a b : BlockNumber} (ha : a ≠ max) : a + 1 ≤ b ↔ a < b := by
  rw [← UInt64.not_lt, lt_succ_iff ha, UInt64.not_le]

theorem max_add_one : max + 1 = 0 := by decide

variable {β : Type} (m : BTreeMap BlockNumber β)

/-- Below `u64::MAX` the entries before the successor of a block are those up to the block. -/
theorem keep_before_succ {b : BlockNumber} (hb : b ≠ max) :
    OrdMap.keep m (· < b + 1) = OrdMap.keep m (· ≤ b) := by
  congr 1
  funext k
  exact decide_eq_decide.mpr (lt_succ_iff hb)

theorem keep_from_succ {b : BlockNumber} (hb : b ≠ max) :
    OrdMap.keep m (b + 1 ≤ ·) = OrdMap.keep m (b < ·) := by
  congr 1
  funext k
  exact decide_eq_decide.mpr (succ_le_iff hb)

theorem keep_before_zero : OrdMap.keep m (· < max + 1) = ∅ := by
  ext k v
  rw [max_add_one]
  simp

theorem keep_from_zero : OrdMap.keep m (max + 1 ≤ ·) = m := by
  rw [max_add_one]
  exact OrdMap.keep_eq_self _ fun k _ => decide_eq_true (UInt64.le_iff_toNat_le.mpr (Nat.zero_le _))

theorem keep_through_max : OrdMap.keep m (· ≤ max) = m :=
  OrdMap.keep_eq_self _ fun k _ => decide_eq_true (le_max k)

theorem keep_above_max : OrdMap.keep m (max < ·) = ∅ := by
  ext k v
  simp [not_max_lt]

theorem toList_none : (∅ : BTreeMap BlockNumber β).toList = [] := rfl

end BlockNumber

/-! ## Reducers -/

namespace ReducerEngine

/-- `rollback` as it is meant at every block: the blocks above `forkPoint` go. -/
def rollbackAbove (r : ReducerEngine) (forkPoint : BlockNumber) : ReducerEngine :=
  let grown := OrdMap.keep r.emitGrowth (forkPoint < ·)
  let rolledBack := OrdMap.keep r.blockGroups (forkPoint < ·)
  { r with
    columns := match (grown.toList.map Prod.snd).head? with
      | some width => r.columns.take width
      | none => r.columns
    emitGrowth := OrdMap.keep r.emitGrowth (· ≤ forkPoint)
    blockGroups := OrdMap.keep r.blockGroups (· ≤ forkPoint)
    all := (rolledBack.toList.flatMap Prod.snd).foldl
      (fun all id => all.modify id (rollbackGroup forkPoint)) r.all }

/-- `advance_finality` as it is meant at every block: the blocks up to `block` become final. -/
def finalizeThrough (r : ReducerEngine) (block : BlockNumber) : ReducerEngine :=
  let finalized := OrdMap.keep r.blockGroups (· ≤ block)
  (finalized.toList.flatMap Prod.snd).foldl (fun r id =>
    match r.all[id]? with
    | none => r
    | some g => { r with
        all := r.all.modify id (finalizeGroup block)
        pendingDurable := if g.pendingDurable then r.pendingDurable else r.pendingDurable ++ [id] })
    { r with blockGroups := OrdMap.keep r.blockGroups (block < ·) }

/-- The guard of `rollback` changes nothing. -/
theorem rollback_eq_above (r : ReducerEngine) (p : BlockNumber) :
    r.rollback p = r.rollbackAbove p := by
  unfold rollback rollbackAbove
  split
  · next hp =>
    subst hp
    simp [BlockNumber.keep_above_max, BlockNumber.keep_through_max, BlockNumber.toList_none]
  · rfl

theorem advanceFinality_below {b : BlockNumber} (r : ReducerEngine) (hb : b ≠ BlockNumber.max) :
    r.advanceFinality b = r.finalizeThrough b := by
  unfold advanceFinality finalizeThrough
  rewrite [BlockNumber.keep_before_succ _ hb, BlockNumber.keep_from_succ _ hb]
  rfl

/-- At `u64::MAX` the bound wraps to zero: no block is final. -/
theorem advanceFinality_max (r : ReducerEngine) : r.advanceFinality BlockNumber.max = r := by
  unfold advanceFinality
  rw [BlockNumber.keep_before_zero, BlockNumber.keep_from_zero]
  rfl

theorem finalizeThrough_untracked {r : ReducerEngine} (h : r.blockGroups = ∅) (b : BlockNumber) :
    r.finalizeThrough b = r := by
  unfold finalizeThrough
  simp only [h, OrdMap.keep_empty, BlockNumber.toList_none, List.flatMap_nil, List.foldl_nil]
  rw [← h]

/-- Finality keeps the blocks above it. -/
theorem finalizeThrough_blockGroups (r : ReducerEngine) (b : BlockNumber) :
    (r.finalizeThrough b).blockGroups = OrdMap.keep r.blockGroups (b < ·) := by
  have hfold : ∀ (ids : List Nat) (r : ReducerEngine), (ids.foldl (fun r id =>
      match r.all[id]? with
      | none => r
      | some g => { r with
          all := r.all.modify id (finalizeGroup b)
          pendingDurable := if g.pendingDurable then r.pendingDurable
            else r.pendingDurable ++ [id] }) r).blockGroups = r.blockGroups := by
    intro ids
    induction ids with
    | nil => exact fun r => rfl
    | cons id ids ih =>
      intro r
      rw [List.foldl_cons, ih]
      cases r.all[id]? <;> rfl
  exact hfold _ _

/-- **The finality of a reducer is exact** unless it is at `u64::MAX` and a block is tracked. -/
theorem advanceFinality_exact_iff (r : ReducerEngine) (b : BlockNumber) :
    r.advanceFinality b = r.finalizeThrough b ↔ b ≠ BlockNumber.max ∨ r.blockGroups = ∅ := by
  constructor
  · intro h
    by_cases hb : b = BlockNumber.max
    · subst hb
      right
      have hgroups := congrArg blockGroups h
      rwa [advanceFinality_max, finalizeThrough_blockGroups, BlockNumber.keep_above_max] at hgroups
    · exact .inl hb
  · rintro (hb | hr)
    · exact r.advanceFinality_below hb
    · by_cases hb : b = BlockNumber.max
      · subst hb
        rw [advanceFinality_max, finalizeThrough_untracked hr]
      · exact r.advanceFinality_below hb

end ReducerEngine

/-! ## Views -/

namespace BlockTimes

/-- The split above a block, `split_off` of the next. -/
def splitAbove (t : BlockTimes) (block : BlockNumber) : BTreeMap BlockNumber Int64 × BlockTimes :=
  let removed := OrdMap.keep t.byBlock (block < ·)
  (removed,
    { byBlock := OrdMap.keep t.byBlock (· ≤ block)
      byTs := removed.toList.foldl (fun s (b, ts) => s.erase ⟨ts, b⟩) t.byTs })

end BlockTimes

namespace MVEngine

variable (v : MVShape)

/-- `rollback` as it is meant at every block: the blocks above `forkPoint` go. -/
def rollbackAbove (m : MVEngine) (forkPoint : BlockNumber) : MVEngine × List ChangeRecord :=
  let rolledBack := OrdMap.keep m.blockGroups (forkPoint < ·)
  let unexpired := OrdMap.keep m.expired (forkPoint < ·)
  let (rolledBackTimes, blockTimes) := m.blockTimes.splitAbove forkPoint
  let m := { m with
    blockGroups := OrdMap.keep m.blockGroups (· ≤ forkPoint)
    expired := OrdMap.keep m.expired (· ≤ forkPoint)
    blockTimes := blockTimes
    unstored := m.unstored.filter (· ≤ forkPoint) }
  if rolledBack.isEmpty && unexpired.isEmpty && rolledBackTimes.isEmpty then (m, [])
  else
    let keys := rolledBack.toList.flatMap fun (_, keys) => keys.toList
    let touched := keys.foldl (snapshot m) {}
    let m := { m with
      groups := removeBlocksAfter forkPoint (touched.groups.map Prod.fst) m.groups }
    let (m, touched) :=
      if v.slidingWindow.isSome then
        let (m, touched) := restoreExpired unexpired forkPoint (m, touched)
        ({ m with currentWatermark := m.blockTimes.maxTs.getD 0 }, touched)
      else (m, touched)
    emitChanges v m touched.groups

/-- `finalize_blocks_up_to` as it is meant at every block. -/
def finalizeBlocksThrough (m : MVEngine) (block : BlockNumber) : MVEngine × FxHashSet GroupKey :=
  let finalized := OrdMap.keep m.blockGroups (· ≤ block)
  let changed := (finalized.toList.flatMap fun (_, keys) => keys.toList).foldl
    (fun (s : FxHashSet GroupKey) key => s.insert key) ∅
  ({ m with
      blockGroups := OrdMap.keep m.blockGroups (block < ·)
      groups := changed.toList.foldl (fun gs key =>
        gs.modify key fun g => { g with aggs := g.aggs.map (·.finalizeUpTo block) }) m.groups },
    changed)

/-- `advance_finality` as it is meant at every block. The bounds of a sliding window are
inclusive. -/
def finalizeThrough (m : MVEngine) (block : BlockNumber) : MVEngine :=
  if v.slidingWindow.isSome then advanceWindow m block
  else
    let (m, changed) := finalizeBlocksThrough m block
    { m with pendingDurable := changed.toList.foldl (fun s key => s.insert key) m.pendingDurable }

variable {v}

theorem filter_before_succ (s : ExtTreeSet BlockNumber compare) {b : BlockNumber}
    (hb : b ≠ BlockNumber.max) : s.filter (· < b + 1) = s.filter (· ≤ b) := by
  congr 1
  funext k
  exact decide_eq_decide.mpr (BlockNumber.lt_succ_iff hb)

theorem filter_through_max (s : ExtTreeSet BlockNumber compare) :
    s.filter (· ≤ BlockNumber.max) = s := by
  ext k
  simp [BlockNumber.le_max]

/-- The guard of `rollback` changes nothing. -/
theorem rollback_eq_above (m : MVEngine) (p : BlockNumber) :
    m.rollback v p = m.rollbackAbove v p := by
  unfold rollback rollbackAbove
  split
  · next hp =>
    subst hp
    simp [BlockTimes.splitAbove, BlockNumber.keep_above_max, BlockNumber.keep_through_max,
      filter_through_max, BlockNumber.toList_none]
  · next hp =>
    simp only [BlockTimes.splitOff, BlockTimes.splitAbove, BlockNumber.keep_before_succ _ hp,
      BlockNumber.keep_from_succ _ hp, filter_before_succ _ hp]
    rfl

theorem advanceFinality_below (m : MVEngine) {b : BlockNumber} (hb : b ≠ BlockNumber.max) :
    m.advanceFinality v b = m.finalizeThrough v b := by
  unfold advanceFinality finalizeThrough finalizeBlocksUpTo finalizeBlocksThrough
  rw [BlockNumber.keep_before_succ _ hb, BlockNumber.keep_from_succ _ hb]

/-- At `u64::MAX` the bound wraps to zero: no block of a view without a window is final. -/
theorem advanceFinality_max (hv : v.slidingWindow = none) (m : MVEngine) :
    m.advanceFinality v BlockNumber.max = m := by
  unfold advanceFinality finalizeBlocksUpTo
  rw [if_neg (by simp [hv]), BlockNumber.keep_before_zero, BlockNumber.keep_from_zero]
  rfl

theorem finalizeThrough_untracked (hv : v.slidingWindow = none) {m : MVEngine}
    (h : m.blockGroups = ∅) (b : BlockNumber) : m.finalizeThrough v b = m := by
  cases m
  dsimp only at h
  subst h
  unfold finalizeThrough finalizeBlocksThrough
  rw [if_neg (by simp [hv]), OrdMap.keep_empty, OrdMap.keep_empty]
  rfl

/-- Finality keeps the blocks above it. -/
theorem finalizeThrough_blockGroups (hv : v.slidingWindow = none) (m : MVEngine)
    (b : BlockNumber) :
    (m.finalizeThrough v b).blockGroups = OrdMap.keep m.blockGroups (b < ·) := by
  unfold finalizeThrough finalizeBlocksThrough
  rw [if_neg (by simp [hv])]

/-- **The finality of a view is exact** unless it has no window, is at `u64::MAX` and a block is
tracked. -/
theorem advanceFinality_exact_iff (m : MVEngine) (b : BlockNumber) :
    m.advanceFinality v b = m.finalizeThrough v b ↔
      v.slidingWindow.isSome ∨ b ≠ BlockNumber.max ∨ m.blockGroups = ∅ := by
  cases hv : v.slidingWindow with
  | some sw => simp [advanceFinality, finalizeThrough, hv]
  | none =>
    constructor
    · intro h
      by_cases hb : b = BlockNumber.max
      · subst hb
        right
        right
        have hgroups := congrArg blockGroups h
        rwa [advanceFinality_max hv, finalizeThrough_blockGroups hv, BlockNumber.keep_above_max]
          at hgroups
      · exact .inr (.inl hb)
    · rintro (hs | hb | hm)
      · cases hs
      · exact m.advanceFinality_below hb
      · by_cases hb : b = BlockNumber.max
        · subst hb
          rw [advanceFinality_max hv, finalizeThrough_untracked hv hm]
        · exact m.advanceFinality_below hb

end MVEngine

end Settle
