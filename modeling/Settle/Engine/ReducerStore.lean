import Settle.Engine.ReducerProcess

/-!
# Rollback, finality and storage of a reducer

The calls of a reducer between its blocks keep the invariant: a rollback, the advance of finality,
a checkpoint, its commit, a reload from storage, and the eviction of groups that storage holds.
-/

namespace Settle

open Std

variable {v : ReducerShape} {r : ReducerEngine} {s : ReducerStorage} {work final saved : Works}
  {p : BlockNumber}

/-- Changing the elements at some positions, in any order and as often as they are listed. -/
theorem getElem?_foldl_modify_count {α : Type} (f : α → α) (ids : List Nat) (l : List α) (j : Nat) :
    (ids.foldl (fun l id => l.modify id f) l)[j]? = l[j]?.map f^[ids.count j] := by
  induction ids generalizing l with
  | nil => simp
  | cons id ids ih =>
    rw [List.foldl_cons, ih, List.getElem?_modify, List.count_cons]
    cases l[j]? with
    | none => rfl
    | some a =>
      by_cases hj : id = j
      · simp [hj]
      · simp [hj]

namespace ReducerInv

/-- The ids, after a change of the groups that keeps their keys. -/
theorem ids_of_map (h : ReducerInv v r s work final saved) {all : List ReducerGroup}
    {f : Nat → ReducerGroup → ReducerGroup} (hall : ∀ j, all[j]? = r.all[j]?.map (f j))
    (hkey : ∀ j g, (f j g).key = g.key) (k : List UInt8) (id : Nat) :
    r.ids[k]? = some id ↔ ∃ g : ReducerGroup, all[id]? = some g ∧ g.key = k := by
  rw [h.ids k id, hall id]
  cases r.all[id]? with
  | none => simp
  | some g => simp [hkey]

/-! ## Rollback -/

/-- A property that an operation on groups keeps holds after any number of them. -/
theorem iterate_induction {f : ReducerGroup → ReducerGroup} {P : ReducerGroup → Prop}
    (hf : ∀ g, P g → P (f g)) (n : Nat) {g : ReducerGroup} (hg : P g) : P (f^[n] g) := by
  induction n generalizing g with
  | zero => exact hg
  | succ n ih => exact ih (hf g hg)

/-- **A rollback** not below finality leaves the work up to the fork point. -/
theorem rollback (h : ReducerInv v r s work final saved) (hp : ∀ k, ∀ b ∈ final k, b ≤ p) :
    ReducerInv v (r.rollback p) s (fun k => OrdMap.keep (work k) (· ≤ p)) final saved := by
  unfold ReducerEngine.rollback
  split
  · next hmax =>
    have heq : (fun k => OrdMap.keep (work k) (· ≤ p)) = work := by
      funext k
      apply OrdMap.keep_eq_self
      intro b _
      rw [hmax]
      simpa using BlockNumber.le_max b
    rw [heq]
    exact h
  · dsimp only
    set rolledBack := (OrdMap.keep r.blockGroups (p < ·)).toList.flatMap Prod.snd with hrolled
    have hmem : ∀ id, id ∈ rolledBack ↔
        ∃ b ids, r.blockGroups[b]? = some ids ∧ p < b ∧ id ∈ ids := by
      intro id
      rw [hrolled, List.mem_flatMap]
      constructor
      · rintro ⟨⟨b, ids⟩, he, hid⟩
        rw [ExtTreeMap.mem_toList_iff_getElem?_eq_some] at he
        exact ⟨b, ids, by grind, by grind, hid⟩
      · rintro ⟨b, ids, hids, hb, hid⟩
        refine ⟨(b, ids), ?_, hid⟩
        rw [ExtTreeMap.mem_toList_iff_getElem?_eq_some]
        grind
    have hall := getElem?_foldl_modify_count (ReducerEngine.rollbackGroup p) rolledBack r.all
    -- the fields that a rollback of a group keeps
    have hframe : ∀ n (g : ReducerGroup), ((ReducerEngine.rollbackGroup p)^[n] g).key = g.key ∧
        ((ReducerEngine.rollbackGroup p)^[n] g).pendingDurable = g.pendingDurable ∧
        ((ReducerEngine.rollbackGroup p)^[n] g).written = g.written := fun n g =>
      iterate_induction (f := ReducerEngine.rollbackGroup p)
        (P := fun g' => g'.key = g.key ∧ g'.pendingDurable = g.pendingDurable ∧
          g'.written = g.written) (fun _ hg => hg) n ⟨rfl, rfl, rfl⟩
    have hget : ∀ (j : Nat) (g' : ReducerGroup), (rolledBack.foldl
        (fun all id => all.modify id (ReducerEngine.rollbackGroup p)) r.all)[j]? = some g' →
        ∃ g, r.all[j]? = some g ∧ g' = (ReducerEngine.rollbackGroup p)^[rolledBack.count j] g := by
      intro j g' hg'
      rw [hall] at hg'
      obtain ⟨g, hg, rfl⟩ := Option.map_eq_some_iff.mp hg'
      exact ⟨g, hg, rfl⟩
    have hback : ∀ (j : Nat) (g : ReducerGroup), r.all[j]? = some g → (rolledBack.foldl
        (fun all id => all.modify id (ReducerEngine.rollbackGroup p)) r.all)[j]?
          = some ((ReducerEngine.rollbackGroup p)^[rolledBack.count j] g) := by
      intro j g hg
      rw [hall, hg]
      rfl
    refine ⟨?_, ?_, ?_, ?_, ?_, h.nodup, ?_, ?_, ?_, h.queue, h.numbers, h.sorted, ?_⟩
    · exact h.ids_of_map hall fun j g => (hframe _ g).1
    · intro j g' hg'
      obtain ⟨g, hg, rfl⟩ := hget j g' hg'
      rw [(hframe _ g).1]
      have hrep := h.groups j g hg
      by_cases hj : j ∈ rolledBack
      · obtain ⟨n, hn⟩ := Nat.exists_eq_succ_of_ne_zero (List.count_pos_iff.mpr hj).ne'
        rw [hn, Function.iterate_succ_apply]
        refine iterate_induction (P := fun g' => StateRep v g' (OrdMap.keep (work g.key) (· ≤ p))
          (final g.key)) ?_ n (hrep.rollbackGroup (hp g.key))
        intro g' hg'
        have := hg'.rollbackGroup (hp g.key)
        rwa [OrdMap.keep_keep, show (fun b : BlockNumber => decide (b ≤ p) && decide (b ≤ p))
          = fun b => decide (b ≤ p) from funext fun b => Bool.and_self _] at this
      · rw [List.count_eq_zero_of_not_mem hj]
        refine hrep.of_rollback ?_
        intro b hb
        by_contra hbp
        apply hj
        have hlt : p < b := UInt64.not_le.mp hbp
        have hnf : b ∉ final g.key := fun hf => hbp (hp g.key b hf)
        obtain ⟨ids, hids, hid⟩ := h.tracks j g hg b hb hnf
        exact (hmem j).mpr ⟨b, ids, hids, hlt, hid⟩
    · intro j g' hg'
      obtain ⟨g, hg, rfl⟩ := hget j g' hg'
      rw [(hframe _ g).1]
      exact iterate_induction (P := fun g' => SavedRep v g' (final g.key) (saved g.key))
        (fun g' hg' => hg'.rollbackGroup p) _ (h.unsaved j g hg)
    · intro b ids hids j hj
      obtain ⟨g, hg, hw, hf⟩ := h.tracked b ids (by grind) j hj
      refine ⟨_, hback j g hg, ?_, ?_⟩
      · rw [(hframe _ g).1]
        grind
      · rw [(hframe _ g).1]
        exact hf
    · intro j g' hg' b hw hf
      obtain ⟨g, hg, rfl⟩ := hget j g' hg'
      rw [(hframe _ g).1] at hw hf
      obtain ⟨ids, hids, hid⟩ := h.tracks j g hg b (by grind) hf
      exact ⟨ids, by grind, hid⟩
    · intro j
      rw [h.pending j]
      constructor
      · rintro ⟨g, hg, hpd⟩
        exact ⟨_, hback j g hg, (hframe _ g).2.1.trans hpd⟩
      · rintro ⟨g', hg', hpd⟩
        obtain ⟨g, hg, rfl⟩ := hget j g' hg'
        exact ⟨g, hg, (hframe _ g).2.1.symm.trans hpd⟩
    · intro k hk
      obtain ⟨h₁, h₂, h₃⟩ := h.absent k hk
      refine ⟨?_, h₂, h₃⟩
      rw [OrdMap.keep_eq_self, h₁]
      intro b hb
      rw [h₁, ← h₂] at hb
      simpa using hp k b hb
    · intro hr k hk
      rw [h.unread hr k hk]
      exact OrdMap.keep_empty _
    · intro j g' hg'
      obtain ⟨g, hg, rfl⟩ := hget j g' hg'
      rw [(hframe _ g).1, (hframe _ g).2.2]
      exact h.written j g hg

end ReducerInv

/-! ## Finality -/

/-- `pending_durable` lists the groups with its flag. -/
def PendingOk (r : ReducerEngine) : Prop :=
  r.pendingDurable.Nodup ∧
    ∀ id, id ∈ r.pendingDurable ↔ ∃ g : ReducerGroup, r.all[id]? = some g ∧ g.pendingDurable = true

namespace ReducerEngine

/-- One group of the loop of `advance_finality`. -/
def finalizeId (p : BlockNumber) (r : ReducerEngine) (id : Nat) : ReducerEngine :=
  match r.all[id]? with
  | none => r
  | some g => { r with
      all := r.all.modify id (finalizeGroup p)
      pendingDurable := if g.pendingDurable then r.pendingDurable else r.pendingDurable ++ [id] }

theorem finalizeId_frame (p : BlockNumber) (r : ReducerEngine) (id : Nat) :
    (finalizeId p r id).all = r.all.modify id (finalizeGroup p) ∧
    (finalizeId p r id).ids = r.ids ∧ (finalizeId p r id).readsStorage = r.readsStorage ∧
    (finalizeId p r id).blockGroups = r.blockGroups ∧
    (finalizeId p r id).columns = r.columns ∧ (finalizeId p r id).emitGrowth = r.emitGrowth := by
  unfold finalizeId
  split
  · next hnone =>
    refine ⟨?_, rfl, rfl, rfl, rfl, rfl⟩
    rw [List.modify_eq_self]
    exact List.getElem?_eq_none_iff.mp hnone
  · exact ⟨rfl, rfl, rfl, rfl, rfl, rfl⟩

theorem finalizeId_pending (p : BlockNumber) {r : ReducerEngine} (h : PendingOk r) (id : Nat) :
    PendingOk (finalizeId p r id) := by
  unfold finalizeId
  split
  · exact h
  · next g hg =>
    obtain ⟨hnd, hiff⟩ := h
    have hget : ∀ j, (∃ g' : ReducerGroup, (r.all.modify id (finalizeGroup p))[j]? = some g' ∧
        g'.pendingDurable = true) ↔
        j = id ∨ ∃ g' : ReducerGroup, r.all[j]? = some g' ∧ g'.pendingDurable = true := by
      intro j
      rw [List.getElem?_modify]
      by_cases hj : id = j
      · subst hj
        simp [hg, finalizeGroup]
      · have hj' : j ≠ id := Ne.symm hj
        simp [hj, hj']
    refine ⟨?_, fun j => ?_⟩
    · dsimp only
      split
      · exact hnd
      · next hflag =>
        refine List.nodup_append.mpr ⟨hnd, by simp, ?_⟩
        intro a ha c hc heq
        obtain rfl := List.mem_singleton.mp hc
        subst heq
        obtain ⟨g', hg', hp'⟩ := (hiff a).mp ha
        rw [hg] at hg'
        obtain rfl := Option.some.inj hg'
        exact hflag hp'
    · rw [hget j]
      dsimp only
      split
      · next hflag =>
        rw [hiff j]
        constructor
        · exact .inr
        · rintro (rfl | hj)
          · exact ⟨g, hg, hflag⟩
          · exact hj
      · rw [List.mem_append, List.mem_singleton, hiff j, or_comm]

theorem foldl_finalizeId (p : BlockNumber) (ids : List Nat) {r : ReducerEngine}
    (h : PendingOk r) :
    PendingOk (ids.foldl (finalizeId p) r) ∧
    (∀ j, (ids.foldl (finalizeId p) r).all[j]? = r.all[j]?.map (finalizeGroup p)^[ids.count j]) ∧
    (ids.foldl (finalizeId p) r).ids = r.ids ∧
    (ids.foldl (finalizeId p) r).readsStorage = r.readsStorage ∧
    (ids.foldl (finalizeId p) r).blockGroups = r.blockGroups ∧
    (ids.foldl (finalizeId p) r).columns = r.columns ∧
    (ids.foldl (finalizeId p) r).emitGrowth = r.emitGrowth := by
  have hall : ∀ r : ReducerEngine, (ids.foldl (finalizeId p) r).all
      = ids.foldl (fun all id => all.modify id (finalizeGroup p)) r.all := by
    induction ids with
    | nil => exact fun _ => rfl
    | cons id ids ih =>
      intro r
      rw [List.foldl_cons, List.foldl_cons, ih, (finalizeId_frame p r id).1]
  refine ⟨?_, ?_, ?_⟩
  · clear hall
    induction ids generalizing r with
    | nil => exact h
    | cons id ids ih => exact ih (finalizeId_pending p h id)
  · intro j
    rw [hall r, getElem?_foldl_modify_count]
  · clear hall
    induction ids generalizing r with
    | nil => exact ⟨rfl, rfl, rfl, rfl, rfl⟩
    | cons id ids ih =>
      obtain ⟨h₁, h₂, h₃, h₄, h₅⟩ := ih (finalizeId_pending p h id)
      obtain ⟨-, f₁, f₂, f₃, f₄, f₅⟩ := finalizeId_frame p r id
      exact ⟨h₁.trans f₁, h₂.trans f₂, h₃.trans f₃, h₄.trans f₄, h₅.trans f₅⟩

end ReducerEngine

namespace ReducerInv

/-- **The advance of finality**: the work up to the block is final. -/
theorem advanceFinality (h : ReducerInv v r s work final saved) (hmax : p ≠ BlockNumber.max)
    (hp : ∀ k, ∀ b ∈ final k, b ≤ p) :
    ReducerInv v (r.advanceFinality p) s work (fun k => OrdMap.keep (work k) (· ≤ p)) saved := by
  have hsucc : ∀ b : BlockNumber, b < p + 1 ↔ b ≤ p := fun b => BlockNumber.lt_succ_iff hmax
  set finalized := (OrdMap.keep r.blockGroups (· < p + 1)).toList.flatMap Prod.snd with hfinalized
  have hmem : ∀ id, id ∈ finalized ↔
      ∃ b ids, r.blockGroups[b]? = some ids ∧ b ≤ p ∧ id ∈ ids := by
    intro id
    rw [hfinalized, List.mem_flatMap]
    constructor
    · rintro ⟨⟨b, ids⟩, he, hid⟩
      rw [ExtTreeMap.mem_toList_iff_getElem?_eq_some] at he
      have := hsucc b
      exact ⟨b, ids, by grind, by grind, hid⟩
    · rintro ⟨b, ids, hids, hb, hid⟩
      refine ⟨(b, ids), ?_, hid⟩
      rw [ExtTreeMap.mem_toList_iff_getElem?_eq_some]
      have := hsucc b
      grind
  have heq : r.advanceFinality p = finalized.foldl (ReducerEngine.finalizeId p)
      { r with blockGroups := OrdMap.keep r.blockGroups (p + 1 ≤ ·) } := rfl
  obtain ⟨hpending, hall, hids, hreads, hblocks, -, -⟩ :=
    ReducerEngine.foldl_finalizeId p finalized
      (r := { r with blockGroups := OrdMap.keep r.blockGroups (p + 1 ≤ ·) }) ⟨h.nodup, h.pending⟩
  rw [← heq] at hpending hall hids hreads hblocks
  have hkey : ∀ n (g : ReducerGroup), ((ReducerEngine.finalizeGroup p)^[n] g).key = g.key ∧
      ((ReducerEngine.finalizeGroup p)^[n] g).written = g.written := fun n g =>
    iterate_induction (f := ReducerEngine.finalizeGroup p)
      (P := fun g' => g'.key = g.key ∧ g'.written = g.written) (fun _ hg => hg) n ⟨rfl, rfl⟩
  have hget : ∀ (j : Nat) (g' : ReducerGroup), (r.advanceFinality p).all[j]? = some g' →
      ∃ g, r.all[j]? = some g ∧ g' = (ReducerEngine.finalizeGroup p)^[finalized.count j] g := by
    intro j g' hg'
    rw [hall] at hg'
    obtain ⟨g, hg, rfl⟩ := Option.map_eq_some_iff.mp hg'
    exact ⟨g, hg, rfl⟩
  have hback : ∀ (j : Nat) (g : ReducerGroup), r.all[j]? = some g →
      (r.advanceFinality p).all[j]?
        = some ((ReducerEngine.finalizeGroup p)^[finalized.count j] g) := by
    intro j g hg
    rw [hall]
    show r.all[j]?.map _ = _
    rw [hg]
    rfl
  -- a group without newly final blocks
  have hsame : ∀ (j : Nat) (g : ReducerGroup), r.all[j]? = some g → j ∉ finalized →
      OrdMap.keep (work g.key) (· ≤ p) = final g.key := by
    intro j g hg hj
    refine (h.groups j g hg).of_finalize ?_ (hp g.key)
    intro b hb hbp
    by_contra hf
    obtain ⟨ids, hids', hid⟩ := h.tracks j g hg b hb hf
    exact hj ((hmem j).mpr ⟨b, ids, hids', hbp, hid⟩)
  -- a group with some: both relations, as often as it is listed
  have hboth : ∀ (j : Nat) (g : ReducerGroup), r.all[j]? = some g →
      StateRep v ((ReducerEngine.finalizeGroup p)^[finalized.count j] g) (work g.key)
        (OrdMap.keep (work g.key) (· ≤ p)) ∧
      SavedRep v ((ReducerEngine.finalizeGroup p)^[finalized.count j] g)
        (OrdMap.keep (work g.key) (· ≤ p)) (saved g.key) := by
    intro j g hg
    have hrep := h.groups j g hg
    have hsaved := h.unsaved j g hg
    by_cases hj : j ∈ finalized
    · obtain ⟨n, hn⟩ := Nat.exists_eq_succ_of_ne_zero (List.count_pos_iff.mpr hj).ne'
      rw [hn, Function.iterate_succ_apply]
      refine iterate_induction (f := ReducerEngine.finalizeGroup p)
        (P := fun g' => StateRep v g' (work g.key) (OrdMap.keep (work g.key) (· ≤ p)) ∧
          SavedRep v g' (OrdMap.keep (work g.key) (· ≤ p)) (saved g.key)) ?_ n
        ⟨hrep.finalizeGroup (hp g.key), hsaved.finalizeGroup hrep (hp g.key)⟩
      rintro g' ⟨h₁, h₂⟩
      have hle : ∀ b ∈ OrdMap.keep (work g.key) (· ≤ p), b ≤ p := fun b hb => by grind
      exact ⟨h₁.finalizeGroup hle, h₂.finalizeGroup h₁ hle⟩
    · rw [List.count_eq_zero_of_not_mem hj, hsame j g hg hj]
      exact ⟨hrep, hsaved⟩
  refine ⟨?_, ?_, ?_, ?_, ?_, hpending.1, hpending.2, ?_, ?_, h.queue, h.numbers, h.sorted, ?_⟩
  · rw [hids]
    exact h.ids_of_map hall fun j g => (hkey _ g).1
  · intro j g' hg'
    obtain ⟨g, hg, rfl⟩ := hget j g' hg'
    rw [(hkey _ g).1]
    exact (hboth j g hg).1
  · intro j g' hg'
    obtain ⟨g, hg, rfl⟩ := hget j g' hg'
    rw [(hkey _ g).1]
    exact (hboth j g hg).2
  · intro b ids hb j hj
    rw [hblocks] at hb
    have hb : (OrdMap.keep r.blockGroups (p + 1 ≤ ·))[b]? = some ids := hb
    obtain ⟨g, hg, hw, -⟩ := h.tracked b ids (by grind) j hj
    refine ⟨_, hback j g hg, ?_, ?_⟩
    · rw [(hkey _ g).1]
      exact hw
    · rw [(hkey _ g).1]
      have := hsucc b
      grind
  · intro j g' hg' b hw hf
    obtain ⟨g, hg, rfl⟩ := hget j g' hg'
    rw [(hkey _ g).1] at hw hf
    have hbp : ¬ b ≤ p := fun hle => hf (by grind)
    obtain ⟨ids, hids', hid⟩ := h.tracks j g hg b hw fun hfin => hbp (hp g.key b hfin)
    refine ⟨ids, ?_, hid⟩
    rw [hblocks]
    show (OrdMap.keep r.blockGroups (p + 1 ≤ ·))[b]? = some ids
    have := hsucc b
    grind
  · intro k hk
    rw [hids] at hk
    obtain ⟨h₁, h₂, h₃⟩ := h.absent k hk
    refine ⟨h₁, ?_, h₃⟩
    show OrdMap.keep (work k) (· ≤ p) = saved k
    rw [OrdMap.keep_eq_self, h₁]
    intro b hb
    rw [h₁, ← h₂] at hb
    simpa using hp k b hb
  · rw [hreads, hids]
    exact h.unread
  · intro j g' hg'
    obtain ⟨g, hg, rfl⟩ := hget j g' hg'
    rw [(hkey _ g).1, (hkey _ g).2]
    exact h.written j g hg

end ReducerInv

/-! ## Checkpoints -/

namespace StoreRep

variable {st : Store} {works : Works}

/-- The writes of MAP entries of one group, each of them with the value that `value` has. -/
theorem commit_mapEntries (name : String) {k : List UInt8} (value : MapKey → Option Value)
    (keys : List MapKey) (st : Store) :
    let st' := st.commit (keys.map fun key => match value key with
      | some x => .putReducerMapEntry name k key.1 key.2 (.value x)
      | none => .deleteReducerMapEntry name k key.1 key.2)
    st'.reducerFinalized = st.reducerFinalized ∧
    (∀ k', k' ≠ k → st'.reducerMaps[(name, k')]? = st.reducerMaps[(name, k')]?) ∧
    ∀ mk, (st'.reducerMaps[(name, k)]?.getD ∅)[mk]?
      = if mk ∈ keys then (value mk).map Datum.value
        else (st.reducerMaps[(name, k)]?.getD ∅)[mk]? := by
  induction keys generalizing st with
  | nil => exact ⟨rfl, fun _ _ => rfl, fun _ => by simp⟩
  | cons key keys ih =>
    simp only [List.map_cons, Store.commit_cons]
    set op : BatchOp Datum := match value key with
      | some x => .putReducerMapEntry name k key.1 key.2 (.value x)
      | none => .deleteReducerMapEntry name k key.1 key.2 with hop
    obtain ⟨ih₁, ih₂, ih₃⟩ := ih (st.apply op)
    have hone : (st.apply op).reducerFinalized = st.reducerFinalized ∧
        (∀ k', k' ≠ k → (st.apply op).reducerMaps[(name, k')]?
          = st.reducerMaps[(name, k')]?) ∧
        ∀ mk, ((st.apply op).reducerMaps[(name, k)]?.getD ∅)[mk]?
          = if mk = key then (value mk).map Datum.value
            else (st.reducerMaps[(name, k)]?.getD ∅)[mk]? := by
      cases hvalue : value key with
      | some x =>
        rw [hop, hvalue]
        refine ⟨rfl, fun k' hk' => ?_, fun mk => ?_⟩
        · have hne : (name, k) ≠ (name, k') := fun heq => hk' (Prod.mk.inj heq).2.symm
          show (st.reducerMaps.insert _ _)[_]? = _
          grind
        · show ((st.reducerMaps.insert (name, k) _)[(name, k)]?.getD ∅)[mk]? = _
          rw [ExtTreeMap.getElem?_insert_self, Option.getD_some]
          by_cases hmk : mk = key
          · subst hmk
            simp [hvalue]
          · rw [if_neg hmk]
            have hne : (key.1, key.2) ≠ mk := Ne.symm hmk
            grind
      | none =>
        rw [hop, hvalue]
        refine ⟨rfl, fun k' hk' => ?_, fun mk => ?_⟩
        · have hne : (name, k) ≠ (name, k') := fun heq => hk' (Prod.mk.inj heq).2.symm
          show (st.reducerMaps.modify _ _)[_]? = _
          rw [ExtTreeMap.getElem?_modify]
          grind
        · show ((st.reducerMaps.modify (name, k) _)[(name, k)]?.getD ∅)[mk]? = _
          rw [ExtTreeMap.getElem?_modify]
          cases st.reducerMaps[(name, k)]? with
          | none =>
            by_cases hmk : mk = key
            · subst hmk
              simp [hvalue]
            · simp [hmk]
          | some entries =>
            simp only [ReflCmp.compare_self, ↓reduceIte, Option.map_some, Option.getD_some]
            by_cases hmk : mk = key
            · subst hmk
              simp [hvalue]
            · rw [if_neg hmk]
              have hne : (key.1, key.2) ≠ mk := Ne.symm hmk
              grind
    refine ⟨ih₁.trans hone.1, fun k' hk' => (ih₂ k' hk').trans (hone.2.1 k' hk'), fun mk => ?_⟩
    rw [ih₃ mk, hone.2.2 mk]
    by_cases h₁ : mk ∈ keys
    · simp [h₁]
    · by_cases h₂ : mk = key
      · simp [h₂]
      · simp [h₁, h₂]

/-- The writes of one group move its stored work. -/
theorem commitGroup (h : StoreRep v st works) {g : ReducerGroup} {now : Chain Row}
    (hstate : (g.undo.firstAbove p).getD g.state = (v.value now).values)
    (hmaps : ∀ mk, g.maps.valueAt p mk = (v.value now).maps mk)
    (hrest : ∀ mk, mk ∉ g.maps.unsaved → (v.value (works g.key)).maps mk = (v.value now).maps mk) :
    StoreRep v (st.commit (ReducerEngine.groupWrites v p g)) (Function.update works g.key now) := by
  set st₁ := st.apply (.setReducerFinalized v.name g.key
    (.values ((g.undo.firstAbove p).getD g.state))) with hst₁
  have hwrites : st.commit (ReducerEngine.groupWrites v p g)
      = st₁.commit (g.maps.unsaved.toList.map fun key => match g.maps.valueAt p key with
        | some x => .putReducerMapEntry v.name g.key key.1 key.2 (.value x)
        | none => .deleteReducerMapEntry v.name g.key key.1 key.2) := by
    rw [ReducerEngine.groupWrites, Store.commit_cons, StateMaps.writeCheckpoint, List.map_map]
    rfl
  obtain ⟨h₁, h₂, h₃⟩ := commit_mapEntries v.name (k := g.key) (g.maps.valueAt p)
    g.maps.unsaved.toList st₁
  rw [hwrites]
  have hfinalized : ∀ k, (st₁.reducerFinalized)[(v.name, k)]?
      = if k = g.key then some (.values (v.value now).values)
        else st.reducerFinalized[(v.name, k)]? := by
    intro k
    show (st.reducerFinalized.insert (v.name, g.key) _)[(v.name, k)]? = _
    rw [hstate]
    by_cases hk : k = g.key
    · subst hk
      simp
    · have hne : (v.name, g.key) ≠ (v.name, k) := fun heq => hk (Prod.mk.inj heq).2.symm
      rw [if_neg hk]
      grind
  refine ⟨?_, ?_, ?_⟩
  · intro k hk
    rw [h₁, hfinalized k] at hk
    split at hk
    · cases hk
    · next hne =>
      rw [Function.update_of_ne hne]
      exact h.missing k hk
  · intro k d hk
    rw [h₁, hfinalized k] at hk
    split at hk
    · next heq =>
      subst heq
      rw [Function.update_self]
      exact (Option.some.inj hk).symm
    · next hne =>
      rw [Function.update_of_ne hne]
      exact h.stored k d hk
  · intro k mk
    by_cases hk : k = g.key
    · subst hk
      rw [h₃ mk, Function.update_self]
      split
      · rw [hmaps mk]
      · next hmk =>
        rw [← hrest mk (by simpa using hmk)]
        exact h.maps g.key mk
    · rw [h₂ k hk, Function.update_of_ne hk]
      exact h.maps k mk

end StoreRep

namespace ReducerEngine

/-- The groups that wait, with a checkpoint of each. -/
theorem foldl_writeCheckpoint (p : BlockNumber) (number : Nat) (ids : List Nat)
    (hnd : ids.Nodup) (r : ReducerEngine) (batch : WriteBatch) :
    let loop := ids.foldl (fun s id =>
      match s.1.all[id]? with
      | none => s
      | some g =>
        ({ s.1 with all := s.1.all.modify id (savedGroup p number) },
          s.2 ++ groupWrites v p g)) (r, batch)
    (∀ j, loop.1.all[j]?
      = r.all[j]?.map fun g => if j ∈ ids then savedGroup p number g else g) ∧
    loop.1.ids = r.ids ∧ loop.1.readsStorage = r.readsStorage ∧
    loop.1.blockGroups = r.blockGroups ∧ loop.1.pendingDurable = r.pendingDurable ∧
    loop.1.columns = r.columns ∧ loop.1.emitGrowth = r.emitGrowth ∧
    loop.2 = batch ++ (ids.filterMap (r.all[·]?)).flatMap (groupWrites v p) := by
  induction ids generalizing r batch with
  | nil => simp
  | cons id ids ih =>
    obtain ⟨hid, hnd⟩ := List.nodup_cons.mp hnd
    rw [List.foldl_cons]
    dsimp only
    cases hg : r.all[id]? with
    | none =>
      obtain ⟨h₁, h₂, h₃, h₄, h₅, h₆, h₇, h₈⟩ := ih hnd r batch
      refine ⟨fun j => ?_, h₂, h₃, h₄, h₅, h₆, h₇, ?_⟩
      · rw [h₁ j]
        by_cases hj : j = id
        · subst hj
          rw [hg]
          rfl
        · simp [hj]
      · rw [h₈, List.filterMap_cons_none hg]
    | some g =>
      obtain ⟨h₁, h₂, h₃, h₄, h₅, h₆, h₇, h₈⟩ :=
        ih hnd { r with all := r.all.modify id (savedGroup p number) } (batch ++ groupWrites v p g)
      refine ⟨fun j => ?_, h₂, h₃, h₄, h₅, h₆, h₇, ?_⟩
      · rw [h₁ j]
        show (r.all.modify id _)[j]?.map _ = _
        rw [List.getElem?_modify]
        by_cases hj : id = j
        · subst hj
          rw [hg]
          simp [hid]
        · cases r.all[j]? with
          | none => rfl
          | some g' => simp [hj, Ne.symm hj]
      · rw [h₈, List.filterMap_cons_some hg, List.flatMap_cons, List.append_assoc]
        congr 3
        apply List.filterMap_congr
        intro j hj
        have hne : id ≠ j := fun heq => hid (heq ▸ hj)
        show (r.all.modify id _)[j]? = _
        rw [List.getElem?_modify]
        cases r.all[j]? <;> simp [hne]

end ReducerEngine

namespace QueueRep

variable {st : Store} {works : Works} {queue : List Checkpoint}

/-- The store once the queue is committed. -/
def commitAll (st : Store) (queue : List Checkpoint) : Store :=
  queue.foldl (fun st c => st.commit c.writes) st

theorem last (h : QueueRep v st works queue saved) : StoreRep v (commitAll st queue) saved := by
  induction queue generalizing st works with
  | nil =>
    obtain ⟨hst, rfl⟩ := h
    exact hst
  | cons c queue ih => exact ih h.2

theorem snoc (h : QueueRep v st works queue saved) {c : Checkpoint}
    (hc : StoreRep v ((commitAll st queue).commit c.writes) c.works) :
    QueueRep v st works (queue ++ [c]) c.works := by
  induction queue generalizing st works with
  | nil => exact ⟨h.1, hc, rfl⟩
  | cons c' queue ih => exact ⟨h.1, ih h.2 hc⟩

end QueueRep

/-- The writes of some groups with distinct keys. -/
theorem StoreRep.commitGroups {st : Store} {works now : Works} (groups : List ReducerGroup)
    (hnd : (groups.map ReducerGroup.key).Nodup) (h : StoreRep v st works)
    (hstate : ∀ g ∈ groups, (g.undo.firstAbove p).getD g.state = (v.value (now g.key)).values)
    (hmaps : ∀ g ∈ groups, ∀ mk, g.maps.valueAt p mk = (v.value (now g.key)).maps mk)
    (hrest : ∀ g ∈ groups, ∀ mk, mk ∉ g.maps.unsaved →
      (v.value (works g.key)).maps mk = (v.value (now g.key)).maps mk) :
    StoreRep v (st.commit (groups.flatMap (ReducerEngine.groupWrites v p)))
      (fun k => if k ∈ groups.map ReducerGroup.key then now k else works k) := by
  induction groups generalizing st works with
  | nil => simpa using h
  | cons g groups ih =>
    obtain ⟨hg, hnd⟩ := List.nodup_cons.mp hnd
    have hone := h.commitGroup (hstate g (by simp)) (hmaps g (by simp)) (hrest g (by simp))
    rw [List.flatMap_cons, Store.commit_append]
    have hne : ∀ g' ∈ groups, g'.key ≠ g.key := by
      intro g' hg' heq
      exact hg (heq ▸ List.mem_map_of_mem hg')
    have hall := ih hnd hone (fun g' hg' => hstate g' (List.mem_cons_of_mem _ hg'))
      (fun g' hg' => hmaps g' (List.mem_cons_of_mem _ hg')) (by
        intro g' hg' mk hmk
        rw [Function.update_of_ne (hne g' hg')]
        exact hrest g' (List.mem_cons_of_mem _ hg') mk hmk)
    have heq : (fun k => if k ∈ (g :: groups).map ReducerGroup.key then now k else works k)
        = fun k => if k ∈ groups.map ReducerGroup.key then now k
          else Function.update works g.key (now g.key) k := by
      funext k
      rw [List.map_cons]
      by_cases hk : k = g.key
      · subst hk
        simp
      · simp only [List.mem_cons, hk, false_or, Function.update_of_ne hk]
    rw [heq]
    exact hall

/-- The storage after a checkpoint was written. -/
def ReducerStorage.push (s : ReducerStorage) (c : Checkpoint) : ReducerStorage :=
  { s with queue := s.queue ++ [c] }

namespace ReducerInv

/-- **A checkpoint** at finality, when all work up to it is final: it stores the final work. -/
theorem writeCheckpoint (h : ReducerInv v r s work final saved) {number : Nat}
    (hlate : ∀ k, ∀ b ∈ work k, b ≤ p → b ∈ final k) (hp : ∀ k, ∀ b ∈ final k, b ≤ p)
    (hnumber : s.number < number) (hqueue : ∀ c ∈ s.queue, c.number < number) :
    ReducerInv v (r.writeCheckpoint v p number).1
      (s.push ⟨number, (r.writeCheckpoint v p number).2, final⟩) work final final := by
  obtain ⟨hall, hids, hreads, hblocks, hpd, -, -, hwrites⟩ :=
    ReducerEngine.foldl_writeCheckpoint (v := v) p number r.pendingDurable h.nodup
      { r with pendingDurable := [] } []
  have hloop : r.writeCheckpoint v p number = r.pendingDurable.foldl (fun s id =>
      match s.1.all[id]? with
      | none => s
      | some g =>
        ({ s.1 with all := s.1.all.modify id (ReducerEngine.savedGroup p number) },
          s.2 ++ ReducerEngine.groupWrites v p g)) ({ r with pendingDurable := [] }, []) := rfl
  rw [← hloop] at hall hids hreads hblocks hpd hwrites
  rw [List.nil_append] at hwrites
  set r' := (r.writeCheckpoint v p number).1 with hr'
  set writes := (r.writeCheckpoint v p number).2 with hws
  -- the fields of a group after its checkpoint
  have hget : ∀ (j : Nat) (g' : ReducerGroup), r'.all[j]? = some g' → ∃ g, r.all[j]? = some g ∧
      g' = if j ∈ r.pendingDurable then ReducerEngine.savedGroup p number g else g := by
    intro j g' hg'
    rw [hall] at hg'
    obtain ⟨g, hg, rfl⟩ := Option.map_eq_some_iff.mp hg'
    exact ⟨g, hg, rfl⟩
  have hback : ∀ (j : Nat) (g : ReducerGroup), r.all[j]? = some g → r'.all[j]?
      = some (if j ∈ r.pendingDurable then ReducerEngine.savedGroup p number g else g) := by
    intro j g hg
    rw [hall]
    show r.all[j]?.map _ = _
    rw [hg]
    rfl
  have hkey : ∀ (j : Nat) (g : ReducerGroup),
      (if j ∈ r.pendingDurable then ReducerEngine.savedGroup p number g else g).key = g.key := by
    intro j g
    split <;> rfl
  -- a group that does not wait has no final work that storage lacks
  have hidle : ∀ (j : Nat) (g : ReducerGroup), r.all[j]? = some g → j ∉ r.pendingDurable →
      saved g.key = final g.key := by
    intro j g hg hj
    apply (h.unsaved j g hg).pending
    by_contra hflag
    exact hj ((h.pending j).mpr ⟨g, hg, by simpa using hflag⟩)
  have hrep : ∀ (j : Nat) (g : ReducerGroup), r.all[j]? = some g → StateRep v
      (if j ∈ r.pendingDurable then ReducerEngine.savedGroup p number g else g) (work g.key)
      (final g.key) := by
    intro j g hg
    obtain ⟨h₁, h₂, h₃, h₄, h₅, h₆⟩ := h.groups j g hg
    split
    · exact ⟨h₁, h₂, h₃, h₄, h₅, h₆⟩
    · exact ⟨h₁, h₂, h₃, h₄, h₅, h₆⟩
  -- what the store holds once the checkpoint is committed
  have hstore : StoreRep v ((QueueRep.commitAll s.store s.queue).commit writes) final := by
    set groups := r.pendingDurable.filterMap (r.all[·]?) with hgroups
    have hmem : ∀ g ∈ groups, ∃ j : Nat, r.all[j]? = some g := by
      intro g hg
      obtain ⟨j, -, hj⟩ := List.mem_filterMap.mp hg
      exact ⟨j, hj⟩
    have hnd : (groups.map ReducerGroup.key).Nodup := by
      rw [hgroups, List.map_filterMap]
      refine List.Nodup.filterMap ?_ h.nodup
      intro i j k hi hj
      simp only [Option.mem_def, Option.map_eq_some_iff] at hi hj
      obtain ⟨g, hg, rfl⟩ := hi
      obtain ⟨g', hg', hk⟩ := hj
      exact h.id_unique hg hg' hk.symm
    have hcommit : StoreRep v _
        (fun k => if k ∈ groups.map ReducerGroup.key then final k else saved k) :=
      StoreRep.commitGroups (p := p) groups hnd h.queue.last
      (fun g hg => by
        obtain ⟨j, hj⟩ := hmem g hg
        exact ((h.groups j g hj).checkpoint (hlate g.key) (hp g.key)).1)
      (fun g hg => by
        obtain ⟨j, hj⟩ := hmem g hg
        exact ((h.groups j g hj).checkpoint (hlate g.key) (hp g.key)).2)
      (fun g hg => by
        obtain ⟨j, hj⟩ := hmem g hg
        exact (h.unsaved j g hj).unsaved)
    have heq : (fun k => if k ∈ groups.map ReducerGroup.key then final k else saved k) = final := by
      funext k
      split
      · rfl
      · next hk =>
        cases hid : r.ids[k]? with
        | none => exact (h.absent k hid).2.1.symm
        | some j =>
          obtain ⟨g, hg, rfl⟩ := (h.ids k j).mp hid
          apply hidle j g hg
          intro hj
          exact hk (List.mem_map_of_mem (List.mem_filterMap.mpr ⟨j, hj, hg⟩))
    rw [heq] at hcommit
    rw [hwrites]
    exact hcommit
  refine ⟨?_, ?_, ?_, ?_, ?_, ?_, ?_, ?_, ?_, ?_, ?_, ?_, ?_⟩
  · rw [hids]
    exact h.ids_of_map hall fun j g => hkey j g
  · intro j g' hg'
    obtain ⟨g, hg, rfl⟩ := hget j g' hg'
    rw [hkey]
    exact hrep j g hg
  · exact fun j g' _ => ⟨fun _ _ => rfl, fun _ => rfl⟩
  · intro b ids hb j hj
    rw [hblocks] at hb
    obtain ⟨g, hg, hw⟩ := h.tracked b ids hb j hj
    exact ⟨_, hback j g hg, by rw [hkey]; exact hw⟩
  · intro j g' hg' b hw hf
    obtain ⟨g, hg, rfl⟩ := hget j g' hg'
    rw [hkey] at hw hf
    rw [hblocks]
    exact h.tracks j g hg b hw hf
  · rw [hpd]
    exact List.nodup_nil
  · intro j
    rw [hpd]
    simp only [List.not_mem_nil, false_iff, not_exists, not_and]
    intro g' hg' hflag
    obtain ⟨g, hg, rfl⟩ := hget j g' hg'
    split at hflag
    · cases hflag
    · next hj => exact hj ((h.pending j).mpr ⟨g, hg, hflag⟩)
  · intro k hk
    rw [hids] at hk
    obtain ⟨h₁, h₂, h₃, h₄⟩ := h.absent k hk
    refine ⟨h₁.trans h₂.symm, rfl, h₃.trans h₂.symm, ?_⟩
    intro c hc
    rcases List.mem_append.mp hc with hc | hc
    · exact (h₄ c hc).trans h₂.symm
    · rw [List.mem_singleton.mp hc]
  · rw [hreads, hids]
    exact h.unread
  · exact h.queue.snoc hstore
  · intro c hc
    rcases List.mem_append.mp hc with hc | hc
    · exact h.numbers c hc
    · rw [List.mem_singleton.mp hc]
      exact hnumber
  · refine List.pairwise_append.mpr ⟨h.sorted, List.pairwise_singleton _ _, ?_⟩
    intro c hc c' hc'
    rw [List.mem_singleton.mp hc']
    exact hqueue c hc
  · intro j g' hg'
    obtain ⟨g, hg, rfl⟩ := hget j g' hg'
    rw [hkey]
    by_cases hj : j ∈ r.pendingDurable
    · -- written by this checkpoint, the newest one
      rw [if_pos hj]
      refine ⟨?_, ?_⟩
      · intro c hc hle
        have hle : number ≤ c.number := hle
        rcases List.mem_append.mp hc with hc | hc
        · have := hqueue c hc
          omega
        · rw [List.mem_singleton.mp hc]
      · intro hle
        have hle : number ≤ s.number := hle
        omega
    · rw [if_neg hj]
      obtain ⟨h₁, h₂⟩ := h.written j g hg
      rw [hidle j g hg hj] at h₁ h₂
      refine ⟨?_, h₂⟩
      intro c hc hle
      rcases List.mem_append.mp hc with hc | hc
      · exact h₁ c hc hle
      · rw [List.mem_singleton.mp hc]

/-- **The commit** of the oldest checkpoint. -/
theorem commit (h : ReducerInv v r s work final saved) {c : Checkpoint} {queue : List Checkpoint}
    (hq : s.queue = c :: queue) :
    ReducerInv v r ⟨s.store.commit c.writes, c.number, c.works, queue⟩ work final saved := by
  have hqueue := h.queue
  have hsorted := h.sorted
  rw [hq] at hqueue hsorted
  have hmem : ∀ c' ∈ queue, c' ∈ s.queue := fun c' hc' => by
    rw [hq]
    exact List.mem_cons_of_mem _ hc'
  have hc : c ∈ s.queue := by
    rw [hq]
    exact List.mem_cons_self ..
  refine ⟨h.ids, h.groups, h.unsaved, h.tracked, h.tracks, h.nodup, h.pending, ?_, h.unread,
    hqueue.2, ?_, (List.pairwise_cons.mp hsorted).2, ?_⟩
  · intro k hk
    obtain ⟨h₁, h₂, -, h₄⟩ := h.absent k hk
    exact ⟨h₁, h₂, h₄ c hc, fun c' hc' => h₄ c' (hmem c' hc')⟩
  · exact (List.pairwise_cons.mp hsorted).1
  · intro j g hg
    obtain ⟨h₁, -⟩ := h.written j g hg
    exact ⟨fun c' hc' => h₁ c' (hmem c' hc'), h₁ c hc⟩

/-- **A reload**, once the queue is committed: the work that storage holds. -/
theorem reload (h : ReducerInv v r s work final saved) (hq : s.queue = []) :
    ReducerInv v (r.reload v s.store) s saved saved saved := by
  have hqueue := h.queue
  rw [hq] at hqueue
  obtain ⟨hstore, hcommitted⟩ := hqueue
  refine ⟨?_, ?_, ?_, ?_, ?_, List.nodup_nil, ?_, ?_, ?_, h.queue, h.numbers, h.sorted, ?_⟩
  · intro k id
    simp [ReducerEngine.reload]
  · intro j g hg
    simp [ReducerEngine.reload] at hg
  · intro j g hg
    simp [ReducerEngine.reload] at hg
  · intro b ids hb
    simp [ReducerEngine.reload] at hb
  · intro j g hg
    simp [ReducerEngine.reload] at hg
  · intro j
    simp [ReducerEngine.reload]
  · intro k _
    refine ⟨rfl, rfl, by rw [hcommitted], ?_⟩
    rw [hq]
    simp
  · intro hr k _
    rw [← hcommitted]
    apply hstore.missing
    have hnone : s.store.storesState v.name = false := hr
    rw [Store.storesState, List.any_eq_false] at hnone
    rw [Option.eq_none_iff_forall_not_mem]
    intro d hd
    have := hnone ((v.name, k), d) (ExtTreeMap.mem_toList_iff_getElem?_eq_some.mpr hd)
    simp at this
  · intro j g hg
    simp [ReducerEngine.reload] at hg

end ReducerInv

/-! ## Eviction -/

namespace ReducerEngine

theorem length_leaving (committed : Nat) (victims : Victims) (groups : List ReducerGroup) :
    (leaving committed victims groups).length = groups.length := by
  induction groups generalizing victims with
  | nil => rfl
  | cons g groups ih =>
    rw [leaving]
    dsimp only
    split <;> simp [ih]

/-- Only groups that storage holds leave. -/
theorem stored_of_leaving (committed : Nat) (victims : Victims) (groups : List ReducerGroup)
    {id : Nat} (h : (leaving committed victims groups)[id]? = some true) :
    ∃ g, groups[id]? = some g ∧ g.stored committed = true := by
  induction groups generalizing victims id with
  | nil => simp [leaving] at h
  | cons g groups ih =>
    rw [leaving] at h
    dsimp only at h
    split at h
    · next hg =>
      cases id with
      | zero => exact ⟨g, rfl, hg⟩
      | succ id => exact ih _ h
    · cases id with
      | zero => simp at h
      | succ id => exact ih _ h

theorem newId_cons_zero (leaves : Bool) (rest : List Bool) :
    newId (leaves :: rest) 0 = if leaves then none else some 0 := by
  cases leaves <;> rfl

theorem newId_cons_succ (leaves : Bool) (rest : List Bool) (id : Nat) :
    newId (leaves :: rest) (id + 1)
      = (newId rest id).map (· + if leaves then 0 else 1) := by
  unfold newId
  rw [List.getElem?_cons_succ, List.take_succ_cons]
  rcases rest[id]? with _ | _ | _ <;> cases leaves <;> simp

theorem newId_eq_none_iff {leave : List Bool} {id : Nat} (h : id < leave.length) :
    newId leave id = none ↔ leave[id]? = some true := by
  unfold newId
  rw [List.getElem?_eq_getElem h]
  cases leave[id] <;> simp

/-- A group that stays is at its new id. -/
theorem getElem?_staying {groups : List ReducerGroup} {leave : List Bool}
    (hlen : leave.length = groups.length) {id j : Nat} (h : newId leave id = some j) :
    (staying groups leave)[j]? = groups[id]? := by
  induction groups generalizing leave id j with
  | nil =>
    obtain rfl := List.length_eq_zero_iff.mp hlen
    simp [newId] at h
  | cons g groups ih =>
    obtain _ | ⟨leaves, rest⟩ := leave
    · simp at hlen
    · have hlen' : rest.length = groups.length := by simpa using hlen
      rw [staying]
      cases id with
      | zero =>
        rw [newId_cons_zero] at h
        cases leaves with
        | true => simp at h
        | false =>
          obtain rfl : 0 = j := by simpa using h
          rfl
      | succ id =>
        rw [newId_cons_succ] at h
        obtain ⟨j', hj', rfl⟩ := Option.map_eq_some_iff.mp h
        rw [List.getElem?_cons_succ, ← ih hlen' hj']
        cases leaves <;> rfl

/-- Every group there stayed. -/
theorem exists_newId {groups : List ReducerGroup} {leave : List Bool}
    (hlen : leave.length = groups.length) {j : Nat} {g : ReducerGroup}
    (h : (staying groups leave)[j]? = some g) :
    ∃ id, newId leave id = some j ∧ groups[id]? = some g := by
  induction groups generalizing leave j with
  | nil =>
    obtain rfl := List.length_eq_zero_iff.mp hlen
    simp [staying] at h
  | cons g' groups ih =>
    obtain _ | ⟨leaves, rest⟩ := leave
    · simp at hlen
    · have hlen' : rest.length = groups.length := by simpa using hlen
      rw [staying] at h
      cases leaves with
      | true =>
        obtain ⟨id, hid, hg⟩ := ih hlen' h
        exact ⟨id + 1, by rw [newId_cons_succ, hid]; rfl, hg⟩
      | false =>
        cases j with
        | zero => exact ⟨0, rfl, h⟩
        | succ j =>
          obtain ⟨id, hid, hg⟩ := ih hlen' h
          exact ⟨id + 1, by rw [newId_cons_succ, hid]; rfl, hg⟩

end ReducerEngine

namespace ReducerInv

/-- The groups that stay keep what they have, under their new ids; those that leave are in
storage. -/
theorem evictGroups (h : ReducerInv v r s work final saved) {leave : List Bool}
    (hlen : leave.length = r.all.length)
    (hstored : ∀ id : Nat, leave[id]? = some true →
      ∃ g : ReducerGroup, r.all[id]? = some g ∧ g.stored s.number = true) :
    ReducerInv v (r.evictGroups leave) s work final saved := by
  -- a group that storage holds has no work that is not final, and waits for nothing
  have hidle : ∀ (id : Nat) (g : ReducerGroup), r.all[id]? = some g → g.stored s.number = true →
      (∀ b ∈ work g.key, b ∈ final g.key) ∧ g.pendingDurable = false ∧ g.written ≤ s.number := by
    intro id g hg hst
    simp only [ReducerGroup.stored, Bool.and_eq_true, Bool.not_eq_true', decide_eq_true_eq] at hst
    obtain ⟨⟨hundo, hpending⟩, hwritten⟩ := hst
    refine ⟨?_, hpending, hwritten⟩
    intro b hb
    by_contra hf
    have hmem := ((h.groups id g hg).blocks b).mpr ⟨hb, hf⟩
    rw [Blocks.isEmpty_eq, List.isEmpty_iff, ExtTreeMap.toList_eq_nil_iff] at hundo
    rw [hundo] at hmem
    simp at hmem
  have hlt : ∀ {id : Nat} {g : ReducerGroup}, r.all[id]? = some g → id < leave.length := by
    intro id g hg
    rw [hlen]
    exact (List.getElem?_eq_some_iff.mp hg).1
  -- a group with such work or a flag stays
  have hstay : ∀ (id : Nat) (g : ReducerGroup), r.all[id]? = some g →
      ((∃ b ∈ work g.key, b ∉ final g.key) ∨ g.pendingDurable = true) →
      ∃ j, ReducerEngine.newId leave id = some j := by
    intro id g hg hpin
    rw [← Option.ne_none_iff_exists', ne_eq, ReducerEngine.newId_eq_none_iff (hlt hg)]
    intro hleave
    obtain ⟨g', hg', hst⟩ := hstored id hleave
    rw [hg] at hg'
    obtain rfl := Option.some.inj hg'
    obtain ⟨h₁, h₂, -⟩ := hidle id g hg hst
    rcases hpin with ⟨b, hb, hf⟩ | hflag
    · exact hf (h₁ b hb)
    · rw [h₂] at hflag
      cases hflag
  have hget : ∀ (j : Nat) (g : ReducerGroup), (ReducerEngine.staying r.all leave)[j]? = some g →
      ∃ id, ReducerEngine.newId leave id = some j ∧ r.all[id]? = some g :=
    fun j g hg => ReducerEngine.exists_newId hlen hg
  have hback : ∀ {id j : Nat} {g : ReducerGroup}, ReducerEngine.newId leave id = some j →
      r.all[id]? = some g → (ReducerEngine.staying r.all leave)[j]? = some g := by
    intro id j g hj hg
    rw [ReducerEngine.getElem?_staying hlen hj, hg]
  set pinned : Nat → Nat :=
    fun id => (ReducerEngine.newId leave id).getD 18446744073709551615 with hpinned
  have hpin : ∀ {id j : Nat}, ReducerEngine.newId leave id = some j → pinned id = j := by
    intro id j hj
    rw [hpinned]
    simp [hj]
  have hgroupsOf : ∀ (b : BlockNumber) (ids' : List Nat),
      (r.evictGroups leave).blockGroups[b]? = some ids' ↔
        ∃ ids, r.blockGroups[b]? = some ids ∧ ids' = ids.map pinned := by
    intro b ids'
    show (OrdMap.mapEntries r.blockGroups fun _ ids => some (ids.map pinned))[b]? = some ids' ↔ _
    rw [OrdMap.getElem?_mapEntries]
    cases r.blockGroups[b]? with
    | none => simp
    | some ids => simp [eq_comm]
  have hidsOf : ∀ k : List UInt8, (r.evictGroups leave).ids[k]?
      = r.ids[k]?.bind (ReducerEngine.newId leave) := by
    intro k
    show (OrdMap.mapEntries r.ids fun _ id => ReducerEngine.newId leave id)[k]? = _
    rw [OrdMap.getElem?_mapEntries]
  refine ⟨?_, ?_, ?_, ?_, ?_, ?_, ?_, ?_, ?_, h.queue, h.numbers, h.sorted, ?_⟩
  · intro k j
    rw [hidsOf k, Option.bind_eq_some_iff]
    constructor
    · rintro ⟨id, hid, hj⟩
      obtain ⟨g, hg, hk⟩ := (h.ids k id).mp hid
      exact ⟨g, hback hj hg, hk⟩
    · rintro ⟨g, hg, hk⟩
      obtain ⟨id, hj, hg⟩ := hget j g hg
      exact ⟨id, (h.ids k id).mpr ⟨g, hg, hk⟩, hj⟩
  · intro j g hg
    obtain ⟨id, -, hg⟩ := hget j g hg
    exact h.groups id g hg
  · intro j g hg
    obtain ⟨id, -, hg⟩ := hget j g hg
    exact h.unsaved id g hg
  · intro b ids' hb j hj
    obtain ⟨ids, hids, rfl⟩ := (hgroupsOf b ids').mp hb
    obtain ⟨id, hid, rfl⟩ := List.mem_map.mp hj
    obtain ⟨g, hg, hw, hf⟩ := h.tracked b ids hids id hid
    obtain ⟨j, hj⟩ := hstay id g hg (.inl ⟨b, hw, hf⟩)
    rw [hpin hj]
    exact ⟨g, hback hj hg, hw, hf⟩
  · intro j g hg b hw hf
    obtain ⟨id, hj, hg⟩ := hget j g hg
    obtain ⟨ids, hids, hid⟩ := h.tracks id g hg b hw hf
    refine ⟨ids.map pinned, (hgroupsOf b _).mpr ⟨ids, hids, rfl⟩, ?_⟩
    rw [← hpin hj]
    exact List.mem_map_of_mem hid
  · show (r.pendingDurable.map pinned).Nodup
    refine (List.nodup_map_iff_inj_on h.nodup).mpr ?_
    intro i hi j hj heq
    obtain ⟨g, hg, hflag⟩ := (h.pending i).mp hi
    obtain ⟨g', hg', hflag'⟩ := (h.pending j).mp hj
    obtain ⟨i', hi'⟩ := hstay i g hg (.inr hflag)
    obtain ⟨j', hj'⟩ := hstay j g' hg' (.inr hflag')
    rw [hpin hi', hpin hj'] at heq
    subst heq
    have := (hback hi' hg).symm.trans (hback hj' hg')
    obtain rfl := Option.some.inj this
    exact h.id_unique hg hg' rfl
  · intro j
    show j ∈ r.pendingDurable.map pinned ↔ _
    rw [List.mem_map]
    constructor
    · rintro ⟨id, hid, rfl⟩
      obtain ⟨g, hg, hflag⟩ := (h.pending id).mp hid
      obtain ⟨j, hj⟩ := hstay id g hg (.inr hflag)
      rw [hpin hj]
      exact ⟨g, hback hj hg, hflag⟩
    · rintro ⟨g, hg, hflag⟩
      obtain ⟨id, hj, hg⟩ := hget j g hg
      exact ⟨id, (h.pending id).mpr ⟨g, hg, hflag⟩, hpin hj⟩
  · intro k hk
    rw [hidsOf k] at hk
    cases hid : r.ids[k]? with
    | none => exact h.absent k hid
    | some id =>
      obtain ⟨g, hg, rfl⟩ := (h.ids k id).mp hid
      rw [hid, Option.bind_some, ReducerEngine.newId_eq_none_iff (hlt hg)] at hk
      obtain ⟨g', hg', hst⟩ := hstored id hk
      rw [hg] at hg'
      obtain rfl := Option.some.inj hg'
      obtain ⟨hfinal, hflag, hwritten⟩ := hidle id g hg hst
      have hsaved := (h.unsaved id g hg).pending hflag
      obtain ⟨h₁, h₂⟩ := h.written id g hg
      have hbelow := (h.groups id g hg).below
      have hwork : work g.key = final g.key := by
        ext b rows
        constructor
        · intro hw
          obtain ⟨rows', hr⟩ := OrdMap.exists_getElem?_of_mem (hfinal b (OrdMap.mem_of_getElem?_eq hw))
          rw [hbelow.sub b rows' hr] at hw
          rw [← hw]
          exact hr
        · exact hbelow.sub b rows
      refine ⟨hwork.trans hsaved.symm, hsaved.symm, h₂ hwritten, ?_⟩
      intro c hc
      have := h.numbers c hc
      exact h₁ c hc (by omega)
  · intro hr
    cases hr
  · intro j g hg
    obtain ⟨id, -, hg⟩ := hget j g hg
    exact h.written id g hg

/-- **An eviction** changes no value. -/
theorem evict (h : ReducerInv v r s work final saved) (cap : Nat) :
    ReducerInv v (r.evict cap s.number) s work final saved := by
  unfold ReducerEngine.evict
  dsimp only
  split
  · exact h
  · split
    · exact h.of_eq rfl rfl rfl rfl rfl
    · next victims _ =>
      have hev := h.evictGroups
        (ReducerEngine.length_leaving s.number victims r.all)
        (fun id hid => ReducerEngine.stored_of_leaving _ _ _ hid)
      exact hev.of_eq rfl rfl rfl rfl rfl

end ReducerInv

end Settle
