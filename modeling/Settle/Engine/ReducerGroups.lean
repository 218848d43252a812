import Settle.Engine.ReducerFold

/-!
# What the calls do to a reducer group

`StateRep` relates a group to its work: the blocks that changed it, each with its rows, and the
lower part of them that is final. Each call of the engine keeps it, for the work that the call
leaves. `SavedRep` adds what the next checkpoint has to write.
-/

namespace Settle

open Std

namespace ReducerGroup

/-- The states before the blocks that are not final yet. -/
def stateLog (g : ReducerGroup) : List (Nat × List Value) :=
  g.undo.toMap.toList.map fun e => (e.1.toNat, e.2)

/-- The state as of a cut. -/
def stateAsOf (g : ReducerGroup) (cut : Nat) : List Value := UndoLog.asOf g.stateLog g.state cut

end ReducerGroup

/-- The group holds the fold of its work, as of every cut above the final part. -/
structure StateRep (v : ReducerShape) (g : ReducerGroup) (work final : Chain Row) : Prop where
  below : final.Below work
  /-- the undo entries are those of the blocks not final yet -/
  blocks : ∀ b, b ∈ g.undo.toMap ↔ b ∈ work ∧ b ∉ final
  state : ∀ cut, (∀ b ∈ final, b.toNat < cut) → g.stateAsOf cut = (v.valueBelow work cut).values
  ordered : g.maps.Ordered
  changes : ∀ c ∈ g.maps.undo, c.block ∈ work ∧ c.block ∉ final
  entries : ∀ cut, (∀ b ∈ final, b.toNat < cut) →
    ∀ k, g.maps.entryAsOf k cut = (v.valueBelow work cut).maps k

/-- `saved` is the work that storage holds once the queued checkpoints are in. -/
structure SavedRep (v : ReducerShape) (g : ReducerGroup) (final saved : Chain Row) : Prop where
  unsaved : ∀ k, k ∉ g.maps.unsaved → (v.value saved).maps k = (v.value final).maps k
  pending : g.pendingDurable = false → saved = final

variable {v : ReducerShape} {g : ReducerGroup} {work final saved : Chain Row}
  {b p : BlockNumber} {rows : List Row}

namespace StateRep

theorem mem_stateLog (h : StateRep v g work final) {e : Nat × List Value} (he : e ∈ g.stateLog) :
    ∃ b, b ∈ work ∧ b ∉ final ∧ b.toNat = e.1 := by
  obtain ⟨⟨b, s⟩, hb, rfl⟩ := List.mem_map.mp he
  rw [ExtTreeMap.mem_toList_iff_getElem?_eq_some] at hb
  obtain ⟨hw, hf⟩ := (h.blocks b).mp (OrdMap.mem_of_getElem?_eq hb)
  exact ⟨b, hw, hf, rfl⟩

theorem sorted_stateLog (g : ReducerGroup) : UndoLog.Sorted g.stateLog := by
  refine List.pairwise_map.mpr ((OrdMap.sorted_toList g.undo.toMap).imp ?_)
  intro a b hab
  exact Nat.le_of_lt (UInt64.lt_iff_toNat_lt.mp hab)

/-- The current state of the group. -/
theorem current (h : StateRep v g work final) :
    g.state = (v.value work).values ∧ ∀ k, g.maps.entries[k]? = (v.value work).maps k := by
  have hlt : ∀ b : BlockNumber, b.toNat < 2 ^ 64 := fun b => b.toNat_lt
  have hvalue : v.valueBelow work (2 ^ 64) = v.value work :=
    ReducerShape.valueBelow_of_lt fun b _ => hlt b
  refine ⟨?_, fun k => ?_⟩
  · rw [← hvalue, ← h.state _ fun b _ => hlt b]
    refine (UndoLog.asOf_of_lt ?_).symm
    intro e he
    obtain ⟨b, -, -, heq⟩ := h.mem_stateLog he
    rw [← heq]
    exact hlt b
  · rw [← hvalue, ← h.entries _ (fun b _ => hlt b) k]
    exact (StateMaps.entryAsOf_of_lt fun c _ => hlt c.block).symm

/-- A group that was just loaded. -/
theorem fresh {key : List UInt8} {state : List Value} {maps : StateMaps}
    (hs : state = (v.value work).values) (hu : maps.undo = [])
    (hm : ∀ k, maps.entries[k]? = (v.value work).maps k) :
    StateRep v { key, state, maps } work work where
  below := ⟨fun _ _ h => h, fun _ _ _ h hn => absurd h hn⟩
  blocks b := by simp
  state cut hcut := by
    rw [ReducerShape.valueBelow_of_lt hcut, ← hs]
    rfl
  ordered := by
    rw [StateMaps.Ordered, hu]
    exact .nil
  changes c hc := by
    rw [hu] at hc
    simp at hc
  entries cut hcut k := by
    rw [ReducerShape.valueBelow_of_lt hcut, ← hm k, StateMaps.entryAsOf_of_lt]
    intro c hc
    rw [hu] at hc
    simp at hc

/-! ### A new block -/

theorem below_insert (h : final.Below work) (hnew : ∀ b' ∈ final, b' < b) :
    final.Below (work.insert b rows) := by
  refine ⟨?_, ?_⟩
  · intro b' r hr
    have := h.sub b' r hr
    have := OrdMap.mem_of_getElem?_eq hr
    grind
  · intro b₁ h₁ b₂ h₂ hn
    have := h.lt b₁ h₁ b₂
    have := hnew b₁ h₁
    grind

/-- The first change of a block keeps the state before it. -/
theorem changeGroup (h : StateRep v g work final) (hnew : ∀ b' ∈ work, b' < b) :
    StateRep v (ReducerEngine.changeGroup b g) (work.insert b []) final ∧
    (ReducerEngine.changeGroup b g).maps.block = b := by
  have hundo : ∀ b' ∈ g.undo.toMap, b' < b := fun b' hb' => hnew b' ((h.blocks b').mp hb').1
  have hlast : g.undo.lastBlock ≠ some b := by
    rw [Blocks.lastBlock_eq]
    intro heq
    obtain ⟨e, he, hb⟩ := Option.map_eq_some_iff.mp heq
    have hmem := List.mem_of_getLast? he
    rw [ExtTreeMap.mem_toList_iff_getElem?_eq_some] at hmem
    have := hundo e.1 (OrdMap.mem_of_getElem?_eq hmem)
    grind
  have hfinal : ∀ b' ∈ final, b' < b := by
    intro b' hb'
    obtain ⟨r, hr⟩ := OrdMap.exists_getElem?_of_mem hb'
    exact hnew b' (OrdMap.mem_of_getElem?_eq (h.below.sub b' r hr))
  have hbf : b ∉ final := fun hm => by
    have := hfinal b hm
    grind
  have hle : ∀ b' ∈ work, b' ≤ b := fun b' hb' => UInt64.le_of_lt (hnew b' hb')
  have hvalue : v.value (work.insert b []) = v.value work := ReducerShape.value_insert hnew []
  rw [ReducerEngine.changeGroup, if_neg hlast]
  refine ⟨⟨below_insert h.below hfinal, ?_, ?_, h.ordered, ?_, ?_⟩, rfl⟩
  · intro b'
    have := h.blocks b'
    rw [Blocks.toMap_insert]
    grind
  · intro cut hcut
    rw [ReducerShape.valueBelow_insert hle, hvalue, ReducerGroup.stateAsOf, ReducerGroup.stateLog]
    dsimp only
    rw [Blocks.toMap_insert, OrdMap.toList_insert_of_lt hundo, List.map_append, List.map_singleton,
      UndoLog.asOf_push]
    · split
      · exact h.state cut hcut
      · exact h.current.1
    · intro e he
      obtain ⟨b', hw, -, heq⟩ := h.mem_stateLog he
      rw [← heq]
      exact Nat.le_of_lt (UInt64.lt_iff_toNat_lt.mp (hnew b' hw))
  · intro c hc
    obtain ⟨hw, hf⟩ := h.changes c hc
    exact ⟨by grind, hf⟩
  · intro cut hcut k
    rw [ReducerShape.valueBelow_insert hle, hvalue]
    split
    · exact h.entries cut hcut k
    · next hc =>
      rw [← h.current.2 k]
      show g.maps.entryAsOf k cut = _
      apply StateMaps.entryAsOf_of_lt
      intro c hc
      have := UInt64.lt_iff_toNat_lt.mp (hnew c.block (h.changes c hc).1)
      omega

/-- One more row of the newest block. -/
theorem runBody (h : StateRep v g (work.insert b rows) final) (hnew : ∀ b' ∈ work, b' < b)
    (hb : b ∉ final) (hblock : g.maps.block = b) (row : Row) :
    StateRep v (ReducerEngine.runBody v g row).1 (work.insert b (rows ++ [row])) final ∧
    (ReducerEngine.runBody v g row).1.maps.block = b ∧
    (ReducerEngine.runBody v g row).2 = v.body (rows.foldl v.step (v.value work)) row := by
  have hle : ∀ b' ∈ work.insert b rows, b' ≤ b := by
    intro b' hb'
    have := hnew b'
    grind
  have hlew : ∀ b' ∈ work, b' ≤ b := fun b' hb' => UInt64.le_of_lt (hnew b' hb')
  have hvalue : v.value (work.insert b rows) = rows.foldl v.step (v.value work) :=
    ReducerShape.value_insert hnew rows
  obtain ⟨hstate, hentries⟩ := h.current
  have hfun : (fun k => g.maps.entries[k]?) = (v.value (work.insert b rows)).maps := funext hentries
  have hbody : v.runtime.process g.state (fun k => g.maps.entries[k]?) row
      = v.body (rows.foldl v.step (v.value work)) row := by
    rw [hfun, hstate, ← hvalue]
    rfl
  have hvalue' : v.value (work.insert b (rows ++ [row]))
      = v.step (rows.foldl v.step (v.value work)) row := by
    rw [ReducerShape.value_insert hnew, List.foldl_append]
    rfl
  have hfinal : ∀ b' ∈ final, b' < b := by
    intro b' hb'
    exact h.below.lt b' hb' b (by simp) hb
  have hbelow : final.Below (work.insert b (rows ++ [row])) := by
    refine ⟨?_, ?_⟩
    · intro b' r hr
      have := h.below.sub b' r hr
      have := OrdMap.mem_of_getElem?_eq hr
      grind
    · intro b₁ h₁ b₂ h₂ hn
      exact h.below.lt b₁ h₁ b₂ (by grind) hn
  have hcle : ∀ c ∈ g.maps.undo, c.block ≤ g.maps.block := by
    intro c hc
    rw [hblock]
    exact hle _ (h.changes c hc).1
  have hmem : b ∈ g.undo.toMap := (h.blocks b).mpr ⟨by simp, hb⟩
  set result := v.body (rows.foldl v.step (v.value work)) row with hresult
  obtain ⟨hmblock, -, hment, hmmem, hmord, hmasof⟩ :=
    StateMaps.foldl_applyOp result.maps g.maps
  have hrun : ReducerEngine.runBody v g row
      = ({ g with state := result.values, maps := result.maps.foldl StateMaps.applyOp g.maps },
          result) := by
    rw [ReducerEngine.runBody, hbody]
  rw [hrun]
  -- what stood below the newest block does not change
  have hold : ∀ cut, cut ≤ b.toNat →
      v.valueBelow (work.insert b rows) cut = v.valueBelow work cut := by
    intro cut hc
    rw [ReducerShape.valueBelow_insert hlew, if_pos hc]
  refine ⟨⟨hbelow, ?_, ?_, hmord h.ordered hcle, ?_, ?_⟩, hmblock.trans hblock, rfl⟩
  · intro b'
    rw [show ({ g with state := result.values, maps := _ } : ReducerGroup).undo = g.undo from rfl,
      h.blocks b']
    grind
  · intro cut hcut
    rw [ReducerShape.valueBelow_insert hlew, hvalue']
    show UndoLog.asOf g.stateLog result.values cut = _
    split
    · next hc =>
      rw [← hold cut hc, ← h.state cut hcut]
      apply UndoLog.asOf_of_exists
      obtain ⟨s, hs⟩ := OrdMap.exists_getElem?_of_mem hmem
      refine ⟨(b.toNat, s), List.mem_map.mpr ⟨(b, s), ?_, rfl⟩, hc⟩
      rwa [ExtTreeMap.mem_toList_iff_getElem?_eq_some]
    · next hc =>
      rw [UndoLog.asOf_of_lt]
      · rfl
      · intro e he
        obtain ⟨b', hw, -, heq⟩ := h.mem_stateLog he
        have := UInt64.le_iff_toNat_le.mp (hle b' hw)
        omega
  · intro c hc
    rcases hmmem c hc with hc | hc
    · obtain ⟨hw, hf⟩ := h.changes c hc
      exact ⟨by grind, hf⟩
    · rw [hc, hblock]
      exact ⟨by simp, hb⟩
  · intro cut hcut k
    rw [ReducerShape.valueBelow_insert hlew, hvalue']
    show (result.maps.foldl StateMaps.applyOp g.maps).entryAsOf k cut = _
    split
    · next hc =>
      rw [hmasof hcle k cut (by rw [hblock]; exact hc), h.entries cut hcut k, hold cut hc]
    · next hc =>
      rw [StateMaps.entryAsOf_of_lt, hment k, hfun, hvalue]
      · rfl
      · intro c hcm
        rcases hmmem c hcm with hcm | hcm
        · have := UInt64.le_iff_toNat_le.mp (hcle c hcm)
          rw [hblock] at this
          omega
        · rw [hcm, hblock]
          omega

/-! ### Rollback -/

/-- A rollback not below finality leaves the work up to the fork point. -/
theorem rollbackGroup (h : StateRep v g work final) (hp : ∀ b ∈ final, b ≤ p) :
    StateRep v (ReducerEngine.rollbackGroup p g) (OrdMap.keep work (· ≤ p)) final := by
  have hstate : (ReducerEngine.rollbackGroup p g).state = g.stateAsOf (p.toNat + 1) := by
    show (g.undo.removeAbove p).1.getD g.state = _
    rw [Blocks.removeAbove_fst, ReducerGroup.stateAsOf, UndoLog.asOf, ReducerGroup.stateLog,
      List.find?_map]
    have hpred : ((fun e : Nat × List Value => decide (p.toNat + 1 ≤ e.1)) ∘
        fun e : BlockNumber × List Value => (e.1.toNat, e.2)) = fun e => decide (p < e.1) := by
      funext e
      simp [UInt64.lt_iff_toNat_lt]
    rw [hpred]
    cases g.undo.toMap.toList.find? (fun e => decide (p < e.1)) <;> rfl
  have hlog : (ReducerEngine.rollbackGroup p g).stateLog
      = g.stateLog.filter fun e => e.1 < p.toNat + 1 := by
    rw [ReducerGroup.stateLog, ReducerGroup.stateLog, List.filter_map]
    show ((g.undo.removeAbove p).2.toMap.toList).map _ = _
    rw [Blocks.toMap_removeAbove, OrdMap.toList_keep]
    congr 2
    funext e
    simp [UInt64.le_iff_toNat_le]
  have hcut : ∀ cut, (∀ b ∈ final, b.toNat < cut) → ∀ b ∈ final, b.toNat < min (p.toNat + 1) cut := by
    intro cut hcut b hb
    have := hcut b hb
    have := UInt64.le_iff_toNat_le.mp (hp b hb)
    omega
  refine ⟨Chain.below_keep h.below hp, ?_, ?_, ?_, ?_, ?_⟩
  · intro b
    have := h.blocks b
    show b ∈ (g.undo.removeAbove p).2.toMap ↔ _
    rw [Blocks.toMap_removeAbove]
    grind
  · intro cut hc
    rw [ReducerShape.valueBelow_keep, ← h.state _ (hcut cut hc), ReducerGroup.stateAsOf, hlog,
      hstate]
    exact UndoLog.asOf_rollback (sorted_stateLog g)
  · show (g.maps.rollback p).undo.Pairwise _
    rw [h.ordered.undo_rollback]
    exact h.ordered.filter _
  · intro c hc
    have hc : c ∈ (g.maps.rollback p).undo := hc
    rw [h.ordered.undo_rollback, List.mem_filter] at hc
    obtain ⟨hw, hf⟩ := h.changes c hc.1
    have := hc.2
    exact ⟨by grind, hf⟩
  · intro cut hc k
    rw [ReducerShape.valueBelow_keep, ← h.entries _ (hcut cut hc) k]
    exact h.ordered.entryAsOf_rollback p k cut

/-- A group that no block above the fork point changed. -/
theorem of_rollback (h : StateRep v g work final) (hno : ∀ b ∈ work, b ≤ p) :
    StateRep v g (OrdMap.keep work (· ≤ p)) final := by
  rw [OrdMap.keep_eq_self work]
  · exact h
  · intro b hb
    simpa using hno b hb

/-! ### Finality -/

/-- The work up to `p` is final. -/
theorem finalizeGroup (h : StateRep v g work final) (hp : ∀ b ∈ final, b ≤ p) :
    StateRep v (ReducerEngine.finalizeGroup p g) work (OrdMap.keep work (· ≤ p)) := by
  have hsub : ∀ b ∈ final, b ∈ OrdMap.keep work (· ≤ p) := by
    intro b hb
    obtain ⟨r, hr⟩ := OrdMap.exists_getElem?_of_mem hb
    have := OrdMap.mem_of_getElem?_eq (h.below.sub b r hr)
    have := hp b hb
    grind
  refine ⟨Chain.keep_below work p, ?_, ?_, ?_, ?_, ?_⟩
  · intro b
    have := h.blocks b
    have := hsub b
    show b ∈ (g.undo.drainUpTo p).2.toMap ↔ _
    rw [Blocks.toMap_drainUpTo]
    grind
  · intro cut hcut
    rw [← h.state cut fun b hb => hcut b (hsub b hb)]
    have hlog : (ReducerEngine.finalizeGroup p g).stateLog
        = g.stateLog.filter fun e => p.toNat + 1 ≤ e.1 := by
      rw [ReducerGroup.stateLog, ReducerGroup.stateLog, List.filter_map]
      show ((g.undo.drainUpTo p).2.toMap.toList).map _ = _
      rw [Blocks.toMap_drainUpTo, OrdMap.toList_keep]
      congr 2
    rw [ReducerGroup.stateAsOf, hlog]
    apply UndoLog.asOf_purge
    intro e he hlt
    obtain ⟨b, hw, -, heq⟩ := h.mem_stateLog he
    rw [← heq] at hlt ⊢
    have hbp : b ≤ p := UInt64.le_iff_toNat_le.mpr (by omega)
    exact hcut b (by grind)
  · show (g.maps.finalize p).undo.Pairwise _
    rw [h.ordered.undo_finalize]
    exact h.ordered.filter _
  · intro c hc
    have hc : c ∈ (g.maps.finalize p).undo := hc
    rw [h.ordered.undo_finalize, List.mem_filter] at hc
    obtain ⟨hw, -⟩ := h.changes c hc.1
    have := hc.2
    exact ⟨hw, by grind⟩
  · intro cut hcut k
    rw [← h.entries cut (fun b hb => hcut b (hsub b hb)) k]
    apply h.ordered.entryAsOf_finalize
    intro c hc hcp
    have := (h.changes c hc).1
    exact hcut c.block (by grind)

/-- A group whose work up to `p` was final before. -/
theorem of_finalize (h : StateRep v g work final) (hno : ∀ b ∈ work, b ≤ p → b ∈ final)
    (hp : ∀ b ∈ final, b ≤ p) : OrdMap.keep work (· ≤ p) = final := by
  ext b r
  have := hno b
  have := h.below.sub b
  have := hp b
  by_cases hb : b ∈ final
  · obtain ⟨r', hr'⟩ := OrdMap.exists_getElem?_of_mem hb
    have := h.below.sub b r' hr'
    grind
  · have hw : b ∈ work → ¬ b ≤ p := fun hw hbp => hb (hno b hw hbp)
    grind

/-- What a checkpoint at `p` writes, when the work up to `p` is the final part. -/
theorem checkpoint (h : StateRep v g work final) (hno : ∀ b ∈ work, b ≤ p → b ∈ final)
    (hp : ∀ b ∈ final, b ≤ p) :
    (g.undo.firstAbove p).getD g.state = (v.value final).values ∧
    ∀ k, g.maps.valueAt p k = (v.value final).maps k := by
  have hcut : ∀ b ∈ final, b.toNat < p.toNat + 1 := by
    intro b hb
    have := UInt64.le_iff_toNat_le.mp (hp b hb)
    omega
  have hvalue : v.valueBelow work (p.toNat + 1) = v.value final := by
    rw [← h.of_finalize hno hp, ReducerShape.value_keep_le]
  refine ⟨?_, fun k => ?_⟩
  · rw [← hvalue, ← h.state _ hcut]
    have hrolled : (ReducerEngine.rollbackGroup p g).state
        = (g.undo.firstAbove p).getD g.state := by
      show (g.undo.removeAbove p).1.getD g.state = _
      rw [Blocks.removeAbove_fst, Blocks.firstAbove_eq]
    rw [← hrolled, ((h.rollbackGroup hp).current).1, h.state _ hcut, ReducerShape.value_keep_le]
  · rw [← hvalue, ← h.entries _ hcut k, StateMaps.valueAt_eq]

end StateRep

/-! ## What waits for a checkpoint -/

namespace SavedRep

theorem changeGroup (h : SavedRep v g final saved) (b : BlockNumber) :
    SavedRep v (ReducerEngine.changeGroup b g) final saved := by
  rw [ReducerEngine.changeGroup]
  split
  · exact h
  · exact ⟨h.unsaved, h.pending⟩

theorem runBody (h : SavedRep v g final saved) (row : Row) :
    SavedRep v (ReducerEngine.runBody v g row).1 final saved := by
  refine ⟨?_, h.pending⟩
  intro k hk
  apply h.unsaved
  have hframe := (StateMaps.foldl_applyOp
    (v.runtime.process g.state (g.maps.entries[·]?) row).maps g.maps).2.1
  rw [← hframe]
  exact hk

theorem rollbackGroup (h : SavedRep v g final saved) (p : BlockNumber) :
    SavedRep v (ReducerEngine.rollbackGroup p g) final saved := ⟨h.unsaved, h.pending⟩

/-- An entry that no newly final change touched has the value that it had. -/
theorem finalizeGroup (h : SavedRep v g final saved) (hr : StateRep v g work final)
    (hp : ∀ b ∈ final, b ≤ p) :
    SavedRep v (ReducerEngine.finalizeGroup p g) (OrdMap.keep work (· ≤ p)) saved := by
  refine ⟨?_, by simp [ReducerEngine.finalizeGroup]⟩
  intro k hk
  have hk : k ∉ (g.maps.finalize p).unsaved := hk
  rw [hr.ordered.mem_unsaved_finalize, not_or] at hk
  rw [h.unsaved k hk.1]
  obtain ⟨cut, hcut, hup, hvalue⟩ := ReducerShape.exists_cut (v := v) hr.below
  have hcut' : ∀ b ∈ final, b.toNat < p.toNat + 1 := by
    intro b hb
    have := UInt64.le_iff_toNat_le.mp (hp b hb)
    omega
  rw [← hvalue, ReducerShape.value_keep_le, ← hr.entries cut hcut k, ← hr.entries _ hcut' k]
  apply UndoLog.asOf_congr
  intro e he
  obtain ⟨c, hc, rfl⟩ := List.mem_map.mp he
  obtain ⟨hc, hck⟩ := List.mem_filter.mp hc
  have hnot : ¬ c.block ≤ p := fun hle => hk.2 ⟨c, hc, hle, by simpa using hck⟩
  have hlt := UInt64.lt_iff_toNat_lt.mp (UInt64.not_le.mp hnot)
  have hc' := hr.changes c hc
  have := hup c.block hc'.1 hc'.2
  show cut ≤ c.block.toNat ↔ p.toNat + 1 ≤ c.block.toNat
  omega

end SavedRep

end Settle
