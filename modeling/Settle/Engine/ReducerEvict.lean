import Settle.Engine.EmitColumns
import Settle.Engine.ReducerStore

/-!
# What eviction does to the groups of a reducer

Group ids are positions in the vector of groups, and three more structures hold them: the
index of the keys, the index of the unfinal blocks and the list of the groups that wait for
a checkpoint. `Groups::evict` of `src/engine/reducer.rs` compacts the vector and renumbers
all three, and `Victims` of `src/engine/evict.rs` picks the groups that go by an order
statistic of the checkpoints that wrote them.

* `Victims.new_spec` — the threshold and the ties add up to the number asked for;
* `ReducerEngine.Filed` — what every run keeps: the ids are exact, and a group that an index
  or the list names is one that may not leave;
* `evict_exact` — so an eviction from any state that a run reaches takes exactly the groups
  it should, and leaves every id with its group.
-/

namespace Settle

open Std

/-! ## Picking the victims -/

theorem Eviction.target_add (cap : Nat) : Eviction.target cap + cap / 4 = cap := by
  rw [target]
  omega

/-- A round that evicts goes down to the target. -/
theorem Eviction.due_add_target {e : Eviction} {resident cap committed : Nat}
    (h : e.due resident cap committed ≠ 0) :
    e.due resident cap committed + Eviction.target cap = resident := by
  have htarget := target_add cap
  rw [due] at h ⊢
  dsimp only at h ⊢
  split_ifs at h ⊢ with hover hwaits
  · exact absurd rfl h
  · exact absurd rfl h
  · exact Nat.sub_add_cancel (by omega)

namespace Victims

/-- The number at position `k` of a sorted list: at most `k` numbers are below it, and more
than `k` are not above it. -/
theorem countP_of_sorted {l : List Nat} (hl : l.Pairwise (· ≤ ·)) {k t : Nat}
    (ht : l[k]? = some t) : l.countP (· < t) ≤ k ∧ k < l.countP (· ≤ t) := by
  induction l generalizing k with
  | nil => simp at ht
  | cons x xs ih =>
    obtain ⟨hx, hxs⟩ := List.pairwise_cons.mp hl
    cases k with
    | zero =>
      obtain rfl : x = t := by simpa using ht
      have hnone : xs.countP (· < x) = 0 := by
        apply List.countP_eq_zero.mpr
        intro y hy
        simpa using hx y hy
      rw [List.countP_cons, List.countP_cons, hnone]
      simp
    | succ k =>
      rw [List.getElem?_cons_succ] at ht
      obtain ⟨hbelow, habove⟩ := ih hxs ht
      have hxt : x ≤ t := hx t (List.mem_of_getElem? ht)
      rw [List.countP_cons, List.countP_cons]
      simp only [hxt, decide_true, ↓reduceIte]
      split <;> omega

theorem countP_le_eq (l : List Nat) (t : Nat) :
    l.countP (· ≤ t) = l.countP (· < t) + l.countP (· = t) := by
  induction l with
  | nil => rfl
  | cons x xs ih =>
    rw [List.countP_cons, List.countP_cons, List.countP_cons, ih]
    simp only [decide_eq_true_eq]
    split <;> split <;> split <;> omega

/-- **The threshold.** The groups below it and the ties add up to the number to pick, so
nothing underflows, and there are as many groups at it as ties to pick. -/
theorem new_spec {written : List Nat} {count : Nat} {v : Victims}
    (h : Victims.new written count = some v) :
    written.countP (· < v.threshold) + v.ties = min count written.length ∧
      v.ties ≤ written.countP (· = v.threshold) := by
  rw [Victims.new] at h
  dsimp only at h
  split at h
  · cases h
  · next hpos =>
    cases h
    dsimp only
    set n := min count written.length with hn
    have hperm : written.mergeSort.Perm written := List.mergeSort_perm _ _
    have hlen : n - 1 < written.mergeSort.length := by
      rw [hperm.length_eq]
      omega
    have hget : written.mergeSort[n - 1]? = some (written.mergeSort.getD (n - 1) 0) := by
      rw [List.getD_eq_getElem?_getD, List.getElem?_eq_getElem hlen, Option.getD_some]
    have hsorted : written.mergeSort.Pairwise (· ≤ ·) := by
      simpa using List.pairwise_mergeSort' (· ≤ ·) written
    obtain ⟨hbelow, habove⟩ := countP_of_sorted hsorted hget
    rw [hperm.countP_eq] at hbelow habove
    rw [countP_le_eq] at habove
    omega

/-- If any group may leave and any is to go, there are victims. -/
theorem new_eq_none_iff {written : List Nat} {count : Nat} :
    Victims.new written count = none ↔ min count written.length = 0 := by
  rw [Victims.new]
  dsimp only
  split
  · next h => exact iff_of_true rfl h
  · next h => exact iff_of_false (by simp) h

@[simp] theorem pick_threshold (v : Victims) (written : Nat) :
    (v.pick written).2.threshold = v.threshold := by
  rw [pick]
  split
  · rfl
  · split <;> rfl

end Victims

namespace ReducerEngine

/-- A group that leaves is not above the threshold, one that stays not below it. -/
theorem leaving_threshold {committed : Nat} {victims : Victims} {groups : List ReducerGroup}
    {id : Nat} {g : ReducerGroup} {leaves : Bool} (hg : groups[id]? = some g)
    (hstored : g.stored committed = true)
    (h : (leaving committed victims groups)[id]? = some leaves) :
    if leaves then g.written ≤ victims.threshold else victims.threshold ≤ g.written := by
  induction groups generalizing victims id with
  | nil => simp at hg
  | cons g' groups ih =>
    rw [leaving] at h
    dsimp only at h
    cases id with
    | zero =>
      obtain rfl : g' = g := by simpa using hg
      rw [if_pos hstored, List.getElem?_cons_zero, Victims.pick] at h
      cases h
      split
      · next hlt => exact Nat.le_of_lt hlt
      · next hlt =>
        split
        · next heq => exact Nat.le_of_eq heq.1
        · exact Nat.le_of_not_lt hlt
    | succ id =>
      rw [List.getElem?_cons_succ] at hg
      split at h
      · have := ih hg h
        rwa [Victims.pick_threshold] at this
      · exact ih hg h

/-- How many leave: those below the threshold, and of those at it as many as there are
ties. -/
theorem count_leaving (committed : Nat) (victims : Victims) (groups : List ReducerGroup) :
    (leaving committed victims groups).count true
      = groups.countP (fun g => g.stored committed && decide (g.written < victims.threshold))
        + min victims.ties
          (groups.countP fun g => g.stored committed && decide (g.written = victims.threshold)) := by
  induction groups generalizing victims with
  | nil => simp [leaving]
  | cons g groups ih =>
    rw [leaving, List.countP_cons, List.countP_cons]
    dsimp only
    cases hstored : g.stored committed with
    | false =>
      simp only [Bool.false_eq_true, ↓reduceIte, Bool.false_and, Nat.add_zero]
      rw [List.count_cons, ih]
      simp
    | true =>
      simp only [↓reduceIte, Bool.true_and, decide_eq_true_eq]
      rw [List.count_cons, ih, Victims.pick_threshold, Victims.pick]
      split
      · next hlt =>
        rw [if_neg (Nat.ne_of_lt hlt)]
        simp only [beq_self_eq_true, ↓reduceIte]
        omega
      · next hlt =>
        split
        · next heq =>
          rw [if_pos heq.1]
          simp only [beq_self_eq_true, ↓reduceIte]
          omega
        · next hneq =>
          -- without ties, a group at the threshold stays too
          simp only [Bool.false_eq_true, ↓reduceIte, beq_iff_eq]
          split <;> omega

/-- The victims of a round are as many as there are to be. -/
theorem count_leaving_new {committed count : Nat} {victims : Victims} {groups : List ReducerGroup}
    (h : Victims.new ((groups.filter (·.stored committed)).map ReducerGroup.written) count
      = some victims) :
    (leaving committed victims groups).count true
      = min count (groups.countP (·.stored committed)) := by
  obtain ⟨hsum, hties⟩ := Victims.new_spec h
  rw [List.length_map, ← List.countP_eq_length_filter] at hsum
  rw [List.countP_map, List.countP_filter] at hsum hties
  rw [count_leaving]
  have hlt : groups.countP (fun g => g.stored committed && decide (g.written < victims.threshold))
      = groups.countP fun g =>
        ((fun w => decide (w < victims.threshold)) ∘ ReducerGroup.written) g
          && g.stored committed := by
    congr 1
    funext g
    exact Bool.and_comm _ _
  have heq : groups.countP (fun g => g.stored committed && decide (g.written = victims.threshold))
      = groups.countP fun g =>
        ((fun w => decide (w = victims.threshold)) ∘ ReducerGroup.written) g
          && g.stored committed := by
    congr 1
    funext g
    exact Bool.and_comm _ _
  rw [hlt, heq]
  omega

/-! ## What a run keeps of the ids -/

variable {v : ReducerShape} {st : Store} {block : BlockNumber}

/-- The ids are exact: `ids` maps the keys of the groups in memory to their positions, a
group in the index of a block can undo the block, and a group in `pendingDurable` waits for
a checkpoint. -/
structure Filed (r : ReducerEngine) : Prop where
  ids : ∀ (key : List UInt8) (id : Nat),
    r.ids[key]? = some id ↔ ∃ g, r.all[id]? = some g ∧ g.key = key
  blocks : ∀ (b : BlockNumber) ids, r.blockGroups[b]? = some ids → ∀ id ∈ ids,
    ∃ g, r.all[id]? = some g ∧ b ∈ g.undo.toMap
  pending : ∀ id ∈ r.pendingDurable, ∃ g, r.all[id]? = some g ∧ g.pendingDurable = true

namespace Filed

theorem new (v : ReducerShape) (st : Store) : Filed (ReducerEngine.new v st) where
  ids key id := by simp [ReducerEngine.new]
  blocks b ids h := by simp [ReducerEngine.new] at h
  pending id h := by simp [ReducerEngine.new] at h

/-- A change of one group that leaves its key, the blocks of the index that it can undo and
its flag. -/
theorem modify {r : ReducerEngine} (h : Filed r) (id : Nat) {f : ReducerGroup → ReducerGroup}
    (hkey : ∀ g, (f g).key = g.key)
    (hundo : ∀ g, ∀ b ∈ r.blockGroups, b ∈ g.undo.toMap → b ∈ (f g).undo.toMap)
    (hpending : ∀ g, id ∈ r.pendingDurable → g.pendingDurable = true →
      (f g).pendingDurable = true) :
    Filed { r with all := r.all.modify id f } := by
  have hget : ∀ (j : Nat) (g : ReducerGroup), r.all[j]? = some g →
      (r.all.modify id f)[j]? = some (if id = j then f g else g) := by
    intro j g hg
    rw [List.getElem?_modify, hg]
    by_cases hj : id = j <;> simp [hj]
  refine ⟨?_, ?_, ?_⟩
  · intro key j
    rw [h.ids key j]
    constructor
    · rintro ⟨g, hg, hk⟩
      refine ⟨_, hget j g hg, ?_⟩
      split
      · rw [hkey g, hk]
      · exact hk
    · rintro ⟨g', hg', hk⟩
      dsimp only at hg'
      rw [List.getElem?_modify] at hg'
      obtain ⟨g, hg, rfl⟩ := Option.map_eq_some_iff.mp hg'
      refine ⟨g, hg, ?_⟩
      by_cases hj : id = j
      · rw [if_pos hj, hkey g] at hk
        exact hk
      · rw [if_neg hj] at hk
        exact hk
  · intro b ids hb j hj
    obtain ⟨g, hg, hbg⟩ := h.blocks b ids hb j hj
    refine ⟨_, hget j g hg, ?_⟩
    split
    · exact hundo g b (OrdMap.mem_of_getElem?_eq hb) hbg
    · exact hbg
  · intro j hj
    obtain ⟨g, hg, hflag⟩ := h.pending j hj
    refine ⟨_, hget j g hg, ?_⟩
    split
    · next heq => exact hpending g (heq ▸ hj) hflag
    · exact hflag

theorem groupId {r r₁ : ReducerEngine} {k : List UInt8} {id : Nat} (h : Filed r)
    (hid : r.groupId v st k = .ok (r₁, id)) : Filed r₁ := by
  unfold ReducerEngine.groupId at hid
  cases hk : r.ids[k]? with
  | some id' =>
    rw [hk] at hid
    cases hid
    exact h
  | none =>
    rw [hk] at hid
    dsimp only at hid
    split at hid
    · cases hid
    · next state maps _ =>
      cases hid
      -- the groups that were there keep their positions
      have hold : ∀ {j : Nat} {g : ReducerGroup}, r.all[j]? = some g →
          (r.all ++ [{ key := k, state := state, maps := maps }])[j]? = some g := by
        intro j g hg
        rw [List.getElem?_append_left (List.getElem?_eq_some_iff.mp hg).1, hg]
      refine ⟨?_, ?_, ?_⟩
      · intro key j
        dsimp only
        rw [ExtTreeMap.getElem?_insert]
        by_cases heq : k = key
        · subst heq
          simp only [compare_self, ↓reduceIte, Option.some.injEq]
          constructor
          · rintro rfl
            exact ⟨{ key := k, state := state, maps := maps }, by simp, rfl⟩
          · rintro ⟨g, hg, hkey⟩
            rw [List.getElem?_append] at hg
            split at hg
            · have hin := (h.ids k j).mpr ⟨g, hg, hkey⟩
              rw [hk] at hin
              cases hin
            · next hge =>
              have hlt := (List.getElem?_eq_some_iff.mp hg).1
              simp only [List.length_singleton] at hlt
              omega
        · rw [if_neg (by rwa [Std.compare_eq_iff_eq]), h.ids key j]
          constructor
          · rintro ⟨g, hg, hkey⟩
            exact ⟨g, hold hg, hkey⟩
          · rintro ⟨g, hg, hkey⟩
            rw [List.getElem?_append] at hg
            split at hg
            · exact ⟨g, hg, hkey⟩
            · rw [List.getElem?_singleton] at hg
              split at hg
              · cases hg
                exact absurd hkey heq
              · cases hg
      · intro b ids hb j hj
        obtain ⟨g, hg, hbg⟩ := h.blocks b ids hb j hj
        exact ⟨g, hold hg, hbg⟩
      · intro j hj
        obtain ⟨g, hg, hflag⟩ := h.pending j hj
        exact ⟨g, hold hg, hflag⟩

theorem change {r : ReducerEngine} (h : Filed r) (id : Nat) : Filed (r.change block id) := by
  rw [ReducerEngine.change]
  split
  · exact h
  · next g hg =>
    split
    · exact h
    · next hlast =>
      have hundo : ∀ (g : ReducerGroup) (b : BlockNumber), b ∈ g.undo.toMap →
          b ∈ (changeGroup block g).undo.toMap := by
        intro g b hb
        rw [changeGroup]
        split
        · exact hb
        · dsimp only
          rw [Blocks.toMap_insert, ExtTreeMap.mem_insert]
          exact Or.inr hb
      have hchanged : Filed { r with all := r.all.modify id (changeGroup block) } := by
        apply h.modify id
        · intro g
          rw [changeGroup]
          split <;> rfl
        · exact fun g b _ hb => hundo g b hb
        · intro g _ hflag
          rw [changeGroup]
          split <;> exact hflag
      refine ⟨hchanged.ids, ?_, hchanged.pending⟩
      intro b ids hb j hj
      dsimp only at hb ⊢
      rw [ExtTreeMap.getElem?_insert] at hb
      split at hb
      · next heq =>
        obtain rfl := Std.compare_eq_iff_eq.mp heq
        cases hb
        rcases List.mem_append.mp hj with hj | hj
        · -- it was in the index of the block before
          cases hids : r.blockGroups[block]? with
          | none =>
            rw [hids] at hj
            exact absurd hj List.not_mem_nil
          | some ids =>
            rw [hids] at hj
            exact hchanged.blocks block ids hids j hj
        · obtain rfl := List.mem_singleton.mp hj
          refine ⟨changeGroup block g, ?_, ?_⟩
          · rw [List.getElem?_modify, hg]
            simp
          · rw [changeGroup, if_neg hlast]
            dsimp only
            rw [Blocks.toMap_insert, ExtTreeMap.mem_insert]
            exact Or.inl compare_self
      · exact hchanged.blocks b ids hb j hj

theorem runOn {r : ReducerEngine} (h : Filed r) (item : (Row × Nat) × Nat) :
    Filed (ReducerEngine.runOn v r item) :=
  h.modify item.2 (fun _ => rfl) (fun _ _ _ hb => hb) (fun _ _ hflag => hflag)

/-- A block keeps the ids exact, whether it succeeds or fails at any row. -/
theorem processBlock {r : ReducerEngine} (h : Filed r) (rows : List Row) :
    Filed (r.processBlock v st block rows).1 := by
  apply processBlock_keeps v st block (P := Filed) (fun hr hid => hr.groupId hid)
    (fun id hr => hr.change id) (fun item hr => hr.runOn item) _ _ h rows
  · intro r hr
    refine ⟨hr.ids, ?_, hr.pending⟩
    intro b ids hb j hj
    dsimp only at hb
    rw [ExtTreeMap.getElem?_insertIfNew] at hb
    split at hb
    · cases hb
      exact absurd hj List.not_mem_nil
    · exact hr.blocks b ids hb j hj
  · intro r columns growth hr
    exact ⟨hr.ids, hr.blocks, hr.pending⟩

/-- A smaller index is exact too. -/
theorem keepBlocks {r : ReducerEngine} (h : Filed r) (p : BlockNumber → Bool) :
    Filed { r with blockGroups := OrdMap.keep r.blockGroups p } := by
  refine ⟨h.ids, ?_, h.pending⟩
  intro b ids hb
  dsimp only at hb
  rw [OrdMap.getElem?_keep] at hb
  split at hb
  · exact h.blocks b ids hb
  · cases hb

theorem rollback {r : ReducerEngine} (h : Filed r) (p : BlockNumber) : Filed (r.rollback p) := by
  rw [ReducerEngine.rollback]
  split
  · exact h
  dsimp only
  -- what is above `p` goes from the index and from the groups alike
  have hfold : ∀ (ids : List Nat) (r : ReducerEngine), Filed r →
      (∀ b ∈ r.blockGroups, b ≤ p) →
      Filed { r with all := ids.foldl (fun all id => all.modify id (rollbackGroup p)) r.all } := by
    intro ids
    induction ids with
    | nil => exact fun r h _ => h
    | cons id ids ih =>
      intro r h hle
      have hone : Filed { r with all := r.all.modify id (rollbackGroup p) } := by
        refine h.modify id (f := rollbackGroup p) (fun _ => rfl) ?_ (fun _ _ hflag => hflag)
        intro g b hb hbg
        simp only [rollbackGroup, Blocks.toMap_removeAbove]
        rw [OrdMap.mem_keep]
        exact ⟨hbg, by simpa using hle b hb⟩
      exact ih _ hone hle
  have hkept := hfold ((OrdMap.keep r.blockGroups (p < ·)).toList.flatMap Prod.snd) _
    (h.keepBlocks (· ≤ p)) (fun b hb => by simpa using ((OrdMap.mem_keep _ _ _).mp hb).2)
  exact ⟨hkept.ids, hkept.blocks, hkept.pending⟩

theorem advanceFinality {r : ReducerEngine} (h : Filed r) (f : BlockNumber) :
    Filed (r.advanceFinality f) := by
  rw [ReducerEngine.advanceFinality]
  -- what is at or below `f` goes from the index and from the groups alike
  have hfold : ∀ (ids : List Nat) (r : ReducerEngine), Filed r →
      (ids ≠ [] → ∀ b ∈ r.blockGroups, f < b) →
      Filed (ids.foldl (finalizeId f) r) := by
    intro ids
    induction ids with
    | nil => exact fun r h _ => h
    | cons id ids ih =>
      intro r h hlt
      rw [List.foldl_cons, finalizeId]
      cases hg : r.all[id]? with
      | none => exact ih r h fun _ => hlt (List.cons_ne_nil id ids)
      | some g =>
        have hone : Filed { r with all := r.all.modify id (finalizeGroup f) } := by
          refine h.modify id (f := finalizeGroup f) (fun _ => rfl) ?_ (fun _ _ _ => rfl)
          intro g b hb hbg
          simp only [finalizeGroup, Blocks.toMap_drainUpTo]
          rw [OrdMap.mem_keep]
          exact ⟨hbg, by simpa using hlt (List.cons_ne_nil id ids) b hb⟩
        apply ih
        · refine ⟨hone.ids, hone.blocks, ?_⟩
          intro j hj
          dsimp only at hj
          split at hj
          · exact hone.pending j hj
          · rcases List.mem_append.mp hj with hj | hj
            · exact hone.pending j hj
            · obtain rfl := List.mem_singleton.mp hj
              refine ⟨finalizeGroup f g, ?_, rfl⟩
              show (r.all.modify j (finalizeGroup f))[j]? = _
              rw [List.getElem?_modify, hg]
              simp
        · exact fun _ => hlt (List.cons_ne_nil id ids)
  apply hfold
  · exact h.keepBlocks (f + 1 ≤ ·)
  · intro hne b hb
    have hb : f + 1 ≤ b := by simpa using ((OrdMap.mem_keep _ _ _).mp hb).2
    -- at `u64::MAX` the bound wraps to zero, and no block is below it
    have hmax : f ≠ BlockNumber.max := by
      rintro rfl
      apply hne
      rw [List.flatMap_eq_nil_iff]
      intro e he
      have hmem := (OrdMap.mem_keep _ _ _).mp (ExtTreeMap.mem_toList_iff_getElem?_eq_some.mp he
        |> OrdMap.mem_of_getElem?_eq)
      have hlt := of_decide_eq_true hmem.2
      exact absurd hlt (by simp [BlockNumber.max])
    have := @BlockNumber.lt_succ_iff b f hmax
    grind

theorem foldl_savedGroup (finalized : BlockNumber) (checkpoint : Nat) (ids : List Nat)
    {s : ReducerEngine × WriteBatch} (h : Filed s.1) (hnone : s.1.pendingDurable = []) :
    Filed (ids.foldl (fun s id =>
      match s.1.all[id]? with
      | none => s
      | some g =>
        ({ s.1 with all := s.1.all.modify id (savedGroup finalized checkpoint) },
          s.2 ++ groupWrites v finalized g)) s).1 := by
  induction ids generalizing s with
  | nil => exact h
  | cons id ids ih =>
    rw [List.foldl_cons]
    cases hg : s.1.all[id]? with
    | none => exact ih h hnone
    | some g =>
      refine ih (s := ({ s.1 with all := s.1.all.modify id (savedGroup finalized checkpoint) },
        s.2 ++ groupWrites v finalized g)) ?_ hnone
      refine h.modify id (f := savedGroup finalized checkpoint) (fun _ => rfl)
        (fun _ _ _ hb => hb) ?_
      intro g hin
      rw [hnone] at hin
      exact absurd hin List.not_mem_nil

theorem writeCheckpoint {r : ReducerEngine} (h : Filed r) (finalized : BlockNumber)
    (checkpoint : Nat) : Filed (r.writeCheckpoint v finalized checkpoint).1 := by
  rw [ReducerEngine.writeCheckpoint]
  apply foldl_savedGroup finalized checkpoint r.pendingDurable
  · exact ⟨h.ids, h.blocks, fun id hid => absurd hid List.not_mem_nil⟩
  · rfl

end Filed

/-! ## One eviction -/

/-- The id `id'` after a step names the group that `id` named before it. -/
def SameGroup (r r' : ReducerEngine) (id id' : Nat) : Prop :=
  ∃ g, r.all[id]? = some g ∧ r'.all[id']? = some g

/-- An eviction of `due` groups, if as many may leave: `leave` marks those that do. -/
structure Evicted (r r' : ReducerEngine) (due committed : Nat) (leave : List Bool) : Prop where
  /-- the groups that stay, as they were and in their order -/
  all : leave.length = r.all.length ∧ r'.all = staying r.all leave
  resident : r'.all.length + min due (r.all.countP (·.stored committed)) = r.all.length
  /-- only groups that storage holds leave -/
  candidates : ∀ id : Nat, leave[id]? = some true → ∃ g, r.all[id]? = some g ∧
    g.undo.isEmpty = true ∧ g.pendingDurable = false ∧ g.written ≤ committed
  /-- and no group that leaves was written later than one that could have left -/
  oldest : ∀ (i j : Nat) (g g' : ReducerGroup), leave[i]? = some true → r.all[i]? = some g →
    leave[j]? = some false → r.all[j]? = some g' → g'.stored committed = true →
    g.written ≤ g'.written
  ids : ∀ (key : List UInt8) (id : Nat),
    r'.ids[key]? = some id ↔ ∃ g, r'.all[id]? = some g ∧ g.key = key
  blocks : ∀ b : BlockNumber, Option.Rel (List.Forall₂ (SameGroup r r')) r.blockGroups[b]?
    r'.blockGroups[b]?
  pending : List.Forall₂ (SameGroup r r') r.pendingDurable r'.pendingDurable

theorem length_staying {groups : List ReducerGroup} {leave : List Bool}
    (hlen : leave.length = groups.length) :
    (staying groups leave).length + leave.count true = groups.length := by
  induction groups generalizing leave with
  | nil =>
    obtain rfl := List.length_eq_zero_iff.mp hlen
    rfl
  | cons g groups ih =>
    obtain _ | ⟨leaves, rest⟩ := leave
    · simp at hlen
    · have hrest := @ih rest (by simpa using hlen)
      rw [staying, List.count_cons, List.length_cons]
      cases leaves with
      | true =>
        simp only [↓reduceIte, beq_self_eq_true]
        omega
      | false =>
        simp only [Bool.false_eq_true, ↓reduceIte, List.length_cons, beq_iff_eq]
        omega

theorem staying_replicate (groups : List ReducerGroup) :
    staying groups (List.replicate groups.length false) = groups := by
  induction groups with
  | nil => rfl
  | cons g groups ih =>
    rw [List.length_cons, List.replicate_succ, staying, if_neg (by simp), ih]

theorem not_stored_of_undo {g : ReducerGroup} {committed : Nat} {b : BlockNumber}
    (h : b ∈ g.undo.toMap) : g.stored committed = false := by
  have hne : g.undo.isEmpty = false := by
    rw [Blocks.isEmpty_eq, List.isEmpty_eq_false_iff]
    intro hnil
    rw [ExtTreeMap.toList_eq_nil_iff.mp hnil] at h
    simp at h
  simp [ReducerGroup.stored, hne]

theorem not_stored_of_pending {g : ReducerGroup} {committed : Nat}
    (h : g.pendingDurable = true) : g.stored committed = false := by
  simp [ReducerGroup.stored, h]

/-- Each id of a list, with what an eviction makes of it. -/
theorem forall₂_map_same {r r' : ReducerEngine} {ids : List Nat} {f : Nat → Nat}
    (h : ∀ id ∈ ids, SameGroup r r' id (f id)) :
    List.Forall₂ (SameGroup r r') ids (ids.map f) := by
  induction ids with
  | nil => exact List.Forall₂.nil
  | cons id ids ih =>
    apply List.Forall₂.cons (h id List.mem_cons_self)
    exact ih fun j hj => h j (List.mem_cons_of_mem id hj)

/-- A round that picks nothing. -/
theorem Filed.evicted_none {r : ReducerEngine} (h : Filed r) {due committed : Nat}
    (hnone : min due (r.all.countP (·.stored committed)) = 0) :
    Evicted r r due committed (List.replicate r.all.length false) := by
  have hself : ∀ ids : List Nat, (∀ id ∈ ids, SameGroup r r id id) →
      List.Forall₂ (SameGroup r r) ids ids := by
    intro ids hids
    simpa using forall₂_map_same (f := id) hids
  have hfalse : ∀ id : Nat, (List.replicate r.all.length false)[id]? ≠ some true := by
    intro id hid
    have hmem := List.mem_of_getElem? hid
    exact nomatch List.eq_of_mem_replicate hmem
  constructor
  case all => exact ⟨List.length_replicate, (staying_replicate r.all).symm⟩
  case resident => rw [hnone, Nat.add_zero]
  case candidates => exact fun id hid => absurd hid (hfalse id)
  case oldest => exact fun i j g g' hi => absurd hi (hfalse i)
  case ids => exact h.ids
  case blocks =>
    intro b
    cases hb : r.blockGroups[b]? with
    | none => exact Option.Rel.none
    | some ids =>
      apply Option.Rel.some
      apply hself
      intro id hid
      obtain ⟨g, hg, -⟩ := h.blocks b ids hb id hid
      exact ⟨g, hg, hg⟩
  case pending =>
    apply hself
    intro id hid
    obtain ⟨g, hg, -⟩ := h.pending id hid
    exact ⟨g, hg, hg⟩

/-- **A round that picks victims.** A group that an index or `pendingDurable` names may not
leave, so its id stays the id of that group. -/
theorem Filed.evicted_some {r : ReducerEngine} (h : Filed r) {due committed : Nat}
    {victims : Victims}
    (hv : Victims.new ((r.all.filter (·.stored committed)).map ReducerGroup.written) due
      = some victims) :
    Evicted r (r.evictGroups (leaving committed victims r.all)) due committed
      (leaving committed victims r.all) := by
  have hcount := count_leaving_new hv
  have hstored := fun (id : Nat) => @stored_of_leaving committed victims r.all id
  have hlen : (leaving committed victims r.all).length = r.all.length :=
    length_leaving committed victims r.all
  have hmarks := fun (id : Nat) (g : ReducerGroup) (leaves : Bool) =>
    @leaving_threshold committed victims r.all id g leaves
  generalize leaving committed victims r.all = leave at hcount hstored hlen hmarks ⊢
  -- the group of a pinned id is at the new id
  have hpinned : ∀ (id : Nat) (g : ReducerGroup), r.all[id]? = some g →
      g.stored committed = false →
      SameGroup r (r.evictGroups leave) id ((newId leave id).getD 18446744073709551615) := by
    intro id g hg hnot
    have hlt : id < leave.length := hlen ▸ (List.getElem?_eq_some_iff.mp hg).1
    cases hid : newId leave id with
    | none =>
      obtain ⟨g', hg', hst⟩ := hstored id ((newId_eq_none_iff hlt).mp hid)
      rw [hg] at hg'
      obtain rfl := Option.some.inj hg'
      rw [hnot] at hst
      cases hst
    | some j => exact ⟨g, hg, (getElem?_staying hlen hid).trans hg⟩
  constructor
  case all => exact ⟨hlen, rfl⟩
  case resident =>
    rw [← hcount]
    exact length_staying hlen
  case candidates =>
    intro id hid
    obtain ⟨g, hg, hst⟩ := hstored id hid
    simp only [ReducerGroup.stored, Bool.and_eq_true, Bool.not_eq_true', decide_eq_true_eq] at hst
    exact ⟨g, hg, hst.1.1, hst.1.2, hst.2⟩
  case oldest =>
    intro i j g g' hi hg hj hg' hst
    obtain ⟨g₁, hg₁, hst₁⟩ := hstored i hi
    rw [hg] at hg₁
    obtain rfl := Option.some.inj hg₁
    exact (hmarks i g true hg hst₁ hi).trans (hmarks j g' false hg' hst hj)
  case ids =>
    intro key j
    have hids : (r.evictGroups leave).ids[key]? = r.ids[key]?.bind (newId leave) := by
      show (OrdMap.mapEntries r.ids fun _ id => newId leave id)[key]? = _
      rw [OrdMap.getElem?_mapEntries]
    rw [hids, Option.bind_eq_some_iff]
    constructor
    · rintro ⟨id, hid, hj⟩
      obtain ⟨g, hg, hkey⟩ := (h.ids key id).mp hid
      exact ⟨g, (getElem?_staying hlen hj).trans hg, hkey⟩
    · rintro ⟨g, hg, hkey⟩
      obtain ⟨id, hj, hg⟩ := exists_newId hlen hg
      exact ⟨id, (h.ids key id).mpr ⟨g, hg, hkey⟩, hj⟩
  case blocks =>
    intro b
    show Option.Rel _ _ (OrdMap.mapEntries r.blockGroups fun _ ids =>
      some (ids.map fun id => (newId leave id).getD 18446744073709551615))[b]?
    rw [OrdMap.getElem?_mapEntries]
    cases hb : r.blockGroups[b]? with
    | none => exact Option.Rel.none
    | some ids =>
      apply Option.Rel.some
      apply forall₂_map_same
      intro id hid
      obtain ⟨g, hg, hundo⟩ := h.blocks b ids hb id hid
      exact hpinned id g hg (not_stored_of_undo hundo)
  case pending =>
    apply forall₂_map_same
    intro id hid
    obtain ⟨g, hg, hflag⟩ := h.pending id hid
    exact hpinned id g hg (not_stored_of_pending hflag)

/-- An eviction, whatever it finds. -/
theorem Filed.evicted {r : ReducerEngine} (h : Filed r) (cap committed : Nat) :
    ∃ leave, Evicted r (r.evict cap committed) (r.eviction.due r.all.length cap committed)
      committed leave := by
  rw [ReducerEngine.evict]
  dsimp only
  split
  · next hzero =>
    rw [hzero]
    exact ⟨_, h.evicted_none (Nat.zero_min _)⟩
  · split
    · next hnone =>
      have hmin := Victims.new_eq_none_iff.mp hnone
      rw [List.length_map, ← List.countP_eq_length_filter] at hmin
      have hround := h.evicted_none hmin
      exact ⟨_, hround.all, hround.resident, hround.candidates, hround.oldest, hround.ids,
        hround.blocks, hround.pending⟩
    · next victims hv =>
      have hround := h.evicted_some hv
      exact ⟨_, hround.all, hround.resident, hround.candidates, hround.oldest, hround.ids,
        hround.blocks, hround.pending⟩

/-- An eviction keeps the ids exact. -/
theorem Filed.evict {r : ReducerEngine} (h : Filed r) (cap committed : Nat) :
    Filed (r.evict cap committed) := by
  obtain ⟨leave, hround⟩ := h.evicted cap committed
  have hlist : ∀ {ids ids' : List Nat},
      List.Forall₂ (SameGroup r (r.evict cap committed)) ids ids' →
      ∀ id' ∈ ids', ∃ id ∈ ids, SameGroup r (r.evict cap committed) id id' := by
    intro ids ids' hall
    induction hall with
    | nil => exact fun id' hid' => absurd hid' List.not_mem_nil
    | cons hsame _ ih =>
      intro id' hid'
      rcases List.mem_cons.mp hid' with rfl | hid'
      · exact ⟨_, List.mem_cons_self, hsame⟩
      · obtain ⟨id, hid, hsame⟩ := ih id' hid'
        exact ⟨id, List.mem_cons_of_mem _ hid, hsame⟩
  refine ⟨hround.ids, ?_, ?_⟩
  · intro b ids' hb id' hid'
    have hrel := hround.blocks b
    rw [hb] at hrel
    cases hids : r.blockGroups[b]? with
    | none =>
      rw [hids] at hrel
      cases hrel
    | some ids =>
      rw [hids] at hrel
      cases hrel with
      | some hall =>
        obtain ⟨id, hid, g, hg, hg'⟩ := hlist hall id' hid'
        obtain ⟨g₁, hg₁, hundo⟩ := h.blocks b ids hids id hid
        rw [hg] at hg₁
        obtain rfl := Option.some.inj hg₁
        exact ⟨g, hg', hundo⟩
  · intro id' hid'
    obtain ⟨id, hid, g, hg, hg'⟩ := hlist hround.pending id' hid'
    obtain ⟨g₁, hg₁, hflag⟩ := h.pending id hid
    rw [hg] at hg₁
    obtain rfl := Option.some.inj hg₁
    exact ⟨g, hg', hflag⟩

/-! ## Runs -/

/-- What changes the groups of a reducer. The storage is whatever it is at the time. -/
inductive GroupOp where
  | processBlock (st : Store) (block : BlockNumber) (rows : List Row)
  | rollback (forkPoint : BlockNumber)
  | advanceFinality (block : BlockNumber)
  | writeCheckpoint (finalized : BlockNumber) (checkpoint : Nat)
  | evict (cap committed : Nat)
  | reload (st : Store)

def groupStep (v : ReducerShape) (r : ReducerEngine) : GroupOp → ReducerEngine
  | .processBlock st block rows => (r.processBlock v st block rows).1
  | .rollback forkPoint => r.rollback forkPoint
  | .advanceFinality block => r.advanceFinality block
  | .writeCheckpoint finalized checkpoint => (r.writeCheckpoint v finalized checkpoint).1
  | .evict cap committed => r.evict cap committed
  | .reload st => r.reload v st

theorem Filed.groupStep {r : ReducerEngine} (h : Filed r) (op : GroupOp) :
    Filed (ReducerEngine.groupStep v r op) := by
  cases op with
  | processBlock st block rows => exact h.processBlock rows
  | rollback forkPoint => exact h.rollback forkPoint
  | advanceFinality block => exact h.advanceFinality block
  | writeCheckpoint finalized checkpoint => exact h.writeCheckpoint finalized checkpoint
  | evict cap committed => exact h.evict cap committed
  | reload st =>
    refine ⟨fun key id => ?_, fun b ids hb => ?_, fun id hid => ?_⟩
    · simp [ReducerEngine.groupStep, reload]
    · simp [ReducerEngine.groupStep, reload] at hb
    · simp [ReducerEngine.groupStep, reload] at hid

theorem Filed.run {r : ReducerEngine} (h : Filed r) (ops : List GroupOp) :
    Filed (ops.foldl (ReducerEngine.groupStep v) r) := by
  induction ops generalizing r with
  | nil => exact h
  | cons op ops ih => exact ih (h.groupStep op)

/-- **Eviction keeps the ids exact.** From every state that a run of blocks, failed ones
too, rollbacks, finality, checkpoints and evictions reaches, an eviction takes as many
groups as are due, as far as they may leave: those that a checkpoint wrote longest ago. The
ids of the others are exact afterwards, and the ids in the index of the blocks and in
`pendingDurable` name the groups that they named. No subtraction on the way goes below
zero. -/
theorem evict_exact (v : ReducerShape) (st : Store) (ops : List GroupOp) (cap committed : Nat) :
    let r := ops.foldl (groupStep v) (ReducerEngine.new v st)
    let due := r.eviction.due r.all.length cap committed
    let written := (r.all.filter (·.stored committed)).map ReducerGroup.written
    (∃ leave, Evicted r (r.evict cap committed) due committed leave) ∧
      Eviction.target cap + cap / 4 = cap ∧
      (due ≠ 0 → due + Eviction.target cap = r.all.length) ∧
      ∀ victims, Victims.new written due = some victims →
        written.countP (· < victims.threshold) + victims.ties = min due written.length := by
  intro r due written
  have hfiled : Filed r := (Filed.new v st).run ops
  exact ⟨hfiled.evicted cap committed, Eviction.target_add cap, Eviction.due_add_target,
    fun victims hv => (Victims.new_spec hv).1⟩

end ReducerEngine

end Settle
