import Settle.Engine.ReducerGroups

/-!
# The blocks of a reducer

`ReducerInv` is the invariant of a reducer with its storage: the groups in memory hold the folds of
their work, the bookkeeping by block and for the next checkpoint matches them, and a group that is
not in memory is in storage as it should be. Storage is the committed store, and a queue of
checkpoints that were written and not committed yet.
-/

namespace Settle

open Std

/-- The work of each group. -/
abbrev Works := List UInt8 → Chain Row

/-- A checkpoint that was written: its number, its writes, and the work that it stores. -/
structure Checkpoint where
  number : Nat
  writes : WriteBatch
  works : Works

/-- The storage of a reducer. -/
structure ReducerStorage where
  store : Store
  /-- the checkpoint that was committed last, and the work that it stored -/
  number : Nat
  committed : Works
  /-- written and not committed yet, oldest first -/
  queue : List Checkpoint

/-- The store holds the folds of the work. -/
structure StoreRep (v : ReducerShape) (st : Store) (works : Works) : Prop where
  missing : ∀ k, st.reducerFinalized[(v.name, k)]? = none → works k = ∅
  stored : ∀ k d, st.reducerFinalized[(v.name, k)]? = some d →
    d = Datum.values (v.value (works k)).values
  maps : ∀ k mk, (st.reducerMaps[(v.name, k)]?.getD ∅)[mk]?
    = ((v.value (works k)).maps mk).map Datum.value

/-- The store, and what it will hold after each queued checkpoint, up to `saved`. -/
def QueueRep (v : ReducerShape) : Store → Works → List Checkpoint → Works → Prop
  | st, works, [], saved => StoreRep v st works ∧ works = saved
  | st, works, c :: queue, saved =>
    StoreRep v st works ∧ QueueRep v (st.commit c.writes) c.works queue saved

/-- What holds of a reducer along every run, for the work of its groups and its final part, and
for the work that storage holds once the queue is committed. -/
structure ReducerInv (v : ReducerShape) (r : ReducerEngine) (s : ReducerStorage)
    (work final saved : Works) : Prop where
  ids : ∀ k id, r.ids[k]? = some id ↔ ∃ g : ReducerGroup, r.all[id]? = some g ∧ g.key = k
  groups : ∀ (id : Nat) (g : ReducerGroup), r.all[id]? = some g → StateRep v g (work g.key) (final g.key)
  unsaved : ∀ (id : Nat) (g : ReducerGroup), r.all[id]? = some g → SavedRep v g (final g.key) (saved g.key)
  tracked : ∀ b ids, r.blockGroups[b]? = some ids → ∀ id ∈ ids,
    ∃ g : ReducerGroup, r.all[id]? = some g ∧ b ∈ work g.key ∧ b ∉ final g.key
  tracks : ∀ (id : Nat) (g : ReducerGroup), r.all[id]? = some g → ∀ b ∈ work g.key, b ∉ final g.key →
    ∃ ids, r.blockGroups[b]? = some ids ∧ id ∈ ids
  nodup : r.pendingDurable.Nodup
  pending : ∀ id, id ∈ r.pendingDurable ↔ ∃ g : ReducerGroup, r.all[id]? = some g ∧ g.pendingDurable = true
  /-- a group that is not in memory has no work that storage lacks -/
  absent : ∀ k, r.ids[k]? = none → work k = saved k ∧ final k = saved k ∧
    s.committed k = saved k ∧ ∀ c ∈ s.queue, c.works k = saved k
  unread : r.readsStorage = false → ∀ k, r.ids[k]? = none → work k = ∅
  queue : QueueRep v s.store s.committed s.queue saved
  numbers : ∀ c ∈ s.queue, s.number < c.number
  sorted : s.queue.Pairwise fun a b => a.number < b.number
  /-- what was stored since the checkpoint that last wrote a group holds its work -/
  written : ∀ (id : Nat) (g : ReducerGroup), r.all[id]? = some g →
    (∀ c ∈ s.queue, g.written ≤ c.number → c.works g.key = saved g.key) ∧
    (g.written ≤ s.number → s.committed g.key = saved g.key)

variable {v : ReducerShape} {r : ReducerEngine} {s : ReducerStorage} {work final saved : Works}

theorem QueueRep.store {st : Store} {works : Works} {queue : List Checkpoint}
    (h : QueueRep v st works queue saved) : StoreRep v st works := by
  cases queue with
  | nil => exact h.1
  | cons c queue => exact h.1

/-! ## Loading a group -/

namespace ReducerEngine

/-- Reading stored entries, all of fields that the reducer has. -/
theorem loadMapEntries_ok (entries : List (MapKey × Datum)) (maps : StateMaps)
    (hnd : (entries.map Prod.fst).Nodup)
    (hok : ∀ e ∈ entries, e.1.1.toNat < v.mapFields ∧ ∃ value, e.2 = .value value) :
    ∃ maps', loadMapEntries v entries maps = .ok maps' ∧ maps'.undo = maps.undo ∧
      ∀ k, maps'.entries[k]?
        = match entries.lookup k with
          | some (.value value) => some value
          | _ => maps.entries[k]? := by
  induction entries generalizing maps with
  | nil => exact ⟨maps, rfl, rfl, fun _ => rfl⟩
  | cons e entries ih =>
    obtain ⟨key, datum⟩ := e
    obtain ⟨hlt, value, hvalue⟩ := hok (key, datum) (by simp)
    obtain ⟨hnot, hnd'⟩ := List.nodup_cons.mp hnd
    have hvalue : datum = .value value := hvalue
    subst hvalue
    obtain ⟨maps', hload, hundo, hentries⟩ :=
      ih { maps with entries := maps.entries.insert key value } hnd'
        fun e he => hok e (List.mem_cons_of_mem _ he)
    refine ⟨maps', ?_, hundo, ?_⟩
    · rw [loadMapEntries, if_neg (by simpa using hlt)]
      exact hload
    · intro k
      rw [hentries k, List.lookup_cons]
      by_cases hk : k = key
      · subst hk
        have hnone : entries.lookup k = none := by
          rw [List.lookup_eq_none_iff]
          intro e he
          rw [bne_iff_ne]
          rintro rfl
          exact hnot (List.mem_map.mpr ⟨e, he, rfl⟩)
        simp [hnone]
      · have hne : (k == key) = false := by simpa using hk
        have hget : (maps.entries.insert key value)[k]? = maps.entries[k]? := by grind
        simp only [hne, hget]

/-- A group that is not in memory loads the fold of its work. -/
theorem loadState_ok {st : Store} {works : Works} (hst : StoreRep v st works) {k : List UInt8}
    (hunread : r.readsStorage = false → works k = ∅) :
    ∃ state maps, loadState v r st k = .ok (state, maps) ∧ state = (v.value (works k)).values ∧
      maps.undo = [] ∧ ∀ mk, maps.entries[mk]? = (v.value (works k)).maps mk := by
  have hdefault : works k = ∅ → (v.defaultState = (v.value (works k)).values ∧
      ∀ mk, (({} : StateMaps).entries)[mk]? = (v.value (works k)).maps mk) := by
    intro h
    rw [h]
    exact ⟨rfl, fun mk => by simp [ReducerShape.initial]⟩
  unfold loadState
  split
  · cases hfound : st.reducerFinalized[(v.name, k)]? with
    | none =>
      obtain ⟨h₁, h₂⟩ := hdefault (hst.missing k hfound)
      exact ⟨_, _, rfl, h₁, rfl, h₂⟩
    | some d =>
      have hd := hst.stored k d hfound
      subst hd
      have hdecode : decodeState v (.values (v.value (works k)).values)
          = .ok (v.value (works k)).values := by
        rw [decodeState, if_neg (by simp [ReducerShape.value_values_length])]
      set entries := st.reducerMaps[(v.name, k)]?.getD ∅ with hentries
      obtain ⟨maps, hload, hundo, hget⟩ :=
        loadMapEntries_ok (v := v) entries.toList {} (OrdMap.nodup_keys _) (by
          rintro ⟨mk, datum⟩ he
          rw [ExtTreeMap.mem_toList_iff_getElem?_eq_some, hst.maps k mk] at he
          obtain ⟨value, hvalue, rfl⟩ := Option.map_eq_some_iff.mp he
          exact ⟨ReducerShape.value_maps_lt _ (by rw [hvalue]; simp), value, rfl⟩)
      refine ⟨_, maps, ?_, rfl, hundo, ?_⟩
      · simp only [hdecode, hload, bind, Except.bind]
      · intro mk
        rw [hget mk]
        have hlookup : entries.toList.lookup mk = entries[mk]? := by
          cases hl : entries.toList.lookup mk with
          | none =>
            rw [List.lookup_eq_none_iff] at hl
            rw [eq_comm, Option.eq_none_iff_forall_not_mem]
            intro d hd
            have := hl (mk, d) (ExtTreeMap.mem_toList_iff_getElem?_eq_some.mpr hd)
            simp at this
          | some d =>
            obtain ⟨l₁, l₂, heq, -⟩ := List.lookup_eq_some_iff.mp hl
            rw [eq_comm, ← ExtTreeMap.mem_toList_iff_getElem?_eq_some, heq]
            simp
        rw [hlookup, hst.maps k mk]
        cases (v.value (works k)).maps mk <;> simp
  · next hreads =>
    obtain ⟨h₁, h₂⟩ := hdefault (hunread (by simpa using hreads))
    exact ⟨_, _, rfl, h₁, rfl, h₂⟩

end ReducerEngine

/-! ## One group of many -/

namespace ReducerInv

/-- Two ids of one key are the same. -/
theorem id_unique (h : ReducerInv v r s work final saved) {id id' : Nat} {g g' : ReducerGroup}
    (hg : r.all[id]? = some g) (hg' : r.all[id']? = some g') (hk : g.key = g'.key) : id = id' := by
  have h₁ := (h.ids g.key id).mpr ⟨g, hg, rfl⟩
  have h₂ := (h.ids g.key id').mpr ⟨g', hg', hk.symm⟩
  exact Option.some.inj (h₁.symm.trans h₂)

theorem present (h : ReducerInv v r s work final saved) {id : Nat} {g : ReducerGroup}
    (hg : r.all[id]? = some g) : r.ids[g.key]? = some id := (h.ids g.key id).mpr ⟨g, hg, rfl⟩

/-- The emit columns and the state of the eviction are not part of the invariant. -/
theorem of_eq (h : ReducerInv v r s work final saved) {r' : ReducerEngine}
    (hall : r'.all = r.all) (hids : r'.ids = r.ids) (hreads : r'.readsStorage = r.readsStorage)
    (hblocks : r'.blockGroups = r.blockGroups) (hpending : r'.pendingDurable = r.pendingDurable) :
    ReducerInv v r' s work final saved := by
  refine ⟨?_, ?_, ?_, ?_, ?_, ?_, ?_, ?_, ?_, h.queue, h.numbers, h.sorted, ?_⟩
  · rw [hids, hall]; exact h.ids
  · rw [hall]; exact h.groups
  · rw [hall]; exact h.unsaved
  · rw [hblocks, hall]; exact h.tracked
  · rw [hblocks, hall]; exact h.tracks
  · rw [hpending]; exact h.nodup
  · rw [hpending, hall]; exact h.pending
  · rw [hids]; exact h.absent
  · rw [hreads, hids]; exact h.unread
  · rw [hall]; exact h.written

/-- **A change of one group.** The other groups keep what they have, and `blockGroups` gains the
blocks that are new to the group. -/
theorem modify (h : ReducerInv v r s work final saved) {id : Nat} {g : ReducerGroup}
    (hg : r.all[id]? = some g) {f : ReducerGroup → ReducerGroup} (hkey : (f g).key = g.key)
    (hpend : (f g).pendingDurable = g.pendingDurable) (hwritten : (f g).written = g.written)
    {work' : Works} (hother : ∀ k, k ≠ g.key → work' k = work k)
    (hgrow : ∀ b ∈ work g.key, b ∈ work' g.key)
    (hrep : StateRep v (f g) (work' g.key) (final g.key))
    (hsaved : SavedRep v (f g) (final g.key) (saved g.key))
    {blockGroups : BTreeMap BlockNumber (List Nat)}
    (hmem : ∀ (b : BlockNumber) (ids : List Nat), blockGroups[b]? = some ids → ∀ j ∈ ids,
      (∃ ids₀ : List Nat, r.blockGroups[b]? = some ids₀ ∧ j ∈ ids₀) ∨
        (j = id ∧ b ∈ work' g.key ∧ b ∉ final g.key))
    (hmono : ∀ (b : BlockNumber) (ids₀ : List Nat), r.blockGroups[b]? = some ids₀ →
      ∃ ids : List Nat, blockGroups[b]? = some ids ∧ ∀ j ∈ ids₀, j ∈ ids)
    (hnew : ∀ b ∈ work' g.key, b ∉ final g.key →
      b ∈ work g.key ∨ ∃ ids : List Nat, blockGroups[b]? = some ids ∧ id ∈ ids) :
    ReducerInv v { r with all := r.all.modify id f, blockGroups := blockGroups } s work' final
      saved := by
  have hget : ∀ (j : Nat) (g' : ReducerGroup), (r.all.modify id f)[j]? = some g' ↔
      (j = id ∧ g' = f g) ∨ (j ≠ id ∧ r.all[j]? = some g') := by
    intro j g'
    rw [List.getElem?_modify]
    by_cases hj : id = j
    · subst hj
      simp [hg, eq_comm]
    · have hj' : j ≠ id := Ne.symm hj
      simp [hj, hj']
  -- another group has another key
  have hne : ∀ (j : Nat) (g' : ReducerGroup), j ≠ id → r.all[j]? = some g' → g'.key ≠ g.key :=
    fun j g' hj hg' heq => hj (h.id_unique hg' hg heq)
  have hcases : ∀ (j : Nat) (g' : ReducerGroup), (r.all.modify id f)[j]? = some g' →
      ∃ g₀, r.all[j]? = some g₀ ∧ g₀.key = g'.key ∧ g₀.pendingDurable = g'.pendingDurable ∧
        g₀.written = g'.written := by
    intro j g' hg'
    rcases (hget j g').mp hg' with ⟨rfl, rfl⟩ | ⟨-, hg'⟩
    · exact ⟨g, hg, hkey.symm, hpend.symm, hwritten.symm⟩
    · exact ⟨g', hg', rfl, rfl, rfl⟩
  have hback : ∀ (j : Nat) (g₀ : ReducerGroup), r.all[j]? = some g₀ →
      ∃ g', (r.all.modify id f)[j]? = some g' ∧ g'.key = g₀.key ∧
        g'.pendingDurable = g₀.pendingDurable := by
    intro j g₀ hg₀
    by_cases hj : j = id
    · subst hj
      rw [hg] at hg₀
      obtain rfl := Option.some.inj hg₀
      exact ⟨f g, (hget j _).mpr (.inl ⟨rfl, rfl⟩), hkey, hpend⟩
    · exact ⟨g₀, (hget j _).mpr (.inr ⟨hj, hg₀⟩), rfl, rfl⟩
  refine ⟨?_, ?_, ?_, ?_, ?_, h.nodup, ?_, ?_, ?_, h.queue, h.numbers, h.sorted, ?_⟩
  · intro k j
    rw [h.ids k j]
    constructor
    · rintro ⟨g₀, hg₀, rfl⟩
      obtain ⟨g', hg', hk, -⟩ := hback j g₀ hg₀
      exact ⟨g', hg', hk⟩
    · rintro ⟨g', hg', rfl⟩
      obtain ⟨g₀, hg₀, hk, -⟩ := hcases j g' hg'
      exact ⟨g₀, hg₀, hk⟩
  · intro j g' hg'
    rcases (hget j g').mp hg' with ⟨rfl, rfl⟩ | ⟨hj, hg'⟩
    · rw [hkey]
      exact hrep
    · rw [hother _ (hne j g' hj hg')]
      exact h.groups j g' hg'
  · intro j g' hg'
    rcases (hget j g').mp hg' with ⟨rfl, rfl⟩ | ⟨hj, hg'⟩
    · rw [hkey]
      exact hsaved
    · exact h.unsaved j g' hg'
  · intro b ids hb j hj
    rcases hmem b ids hb j hj with ⟨ids₀, hids₀, hj₀⟩ | ⟨rfl, hw, hf⟩
    · obtain ⟨g₀, hg₀, hw, hf⟩ := h.tracked b ids₀ hids₀ j hj₀
      obtain ⟨g', hg', hk, -⟩ := hback j g₀ hg₀
      refine ⟨g', hg', ?_, hk ▸ hf⟩
      rw [hk]
      by_cases heq : g₀.key = g.key
      · rw [heq] at hw ⊢
        exact hgrow b hw
      · rw [hother _ heq]
        exact hw
    · exact ⟨f g, (hget j _).mpr (.inl ⟨rfl, rfl⟩), hkey ▸ hw, hkey ▸ hf⟩
  · intro j g' hg' b hw hf
    have hold : ∀ g₀ : ReducerGroup, r.all[j]? = some g₀ → b ∈ work g₀.key → b ∉ final g₀.key →
        ∃ ids : List Nat, blockGroups[b]? = some ids ∧ j ∈ ids := by
      intro g₀ hg₀ hw hf
      obtain ⟨ids₀, hids₀, hj₀⟩ := h.tracks j g₀ hg₀ b hw hf
      obtain ⟨ids, hids, hsub⟩ := hmono b ids₀ hids₀
      exact ⟨ids, hids, hsub j hj₀⟩
    rcases (hget j g').mp hg' with ⟨rfl, rfl⟩ | ⟨hj, hg'⟩
    · rw [hkey] at hw hf
      rcases hnew b hw hf with hw | hids
      · exact hold g hg hw hf
      · exact hids
    · rw [hother _ (hne j g' hj hg')] at hw
      exact hold g' hg' hw hf
  · intro j
    rw [h.pending j]
    constructor
    · rintro ⟨g₀, hg₀, hp⟩
      obtain ⟨g', hg', -, hp'⟩ := hback j g₀ hg₀
      exact ⟨g', hg', hp'.trans hp⟩
    · rintro ⟨g', hg', hp⟩
      obtain ⟨g₀, hg₀, -, hp', -⟩ := hcases j g' hg'
      exact ⟨g₀, hg₀, hp'.trans hp⟩
  · intro k hk
    obtain ⟨h₁, h₂⟩ := h.absent k hk
    refine ⟨?_, h₂⟩
    rw [hother k, h₁]
    rintro rfl
    have hk : r.ids[g.key]? = none := hk
    rw [h.present hg] at hk
    simp at hk
  · intro hr k hk
    rw [hother k]
    · exact h.unread hr k hk
    · rintro rfl
      have hk : r.ids[g.key]? = none := hk
      rw [h.present hg] at hk
      simp at hk
  · intro j g' hg'
    obtain ⟨g₀, hg₀, hk, -, hw⟩ := hcases j g' hg'
    rw [← hk, ← hw]
    exact h.written j g₀ hg₀

/-- A group that loads from storage. -/
theorem load (h : ReducerInv v r s work final saved) {k : List UInt8} (hk : r.ids[k]? = none)
    {state : List Value} {maps : StateMaps} (hs : state = (v.value (work k)).values)
    (hu : maps.undo = [])
    (hm : ∀ mk, maps.entries[mk]? = (v.value (work k)).maps mk) :
    ReducerInv v { r with
      all := r.all ++ [{ key := k, state, maps }]
      ids := r.ids.insert k r.all.length } s work final saved := by
  obtain ⟨hwork, hfinal, hcommitted, hqueue⟩ := h.absent k hk
  have hget : ∀ (j : Nat) (g : ReducerGroup),
      (r.all ++ [({ key := k, state, maps } : ReducerGroup)])[j]? = some g ↔
        r.all[j]? = some g ∨ (j = r.all.length ∧ g = { key := k, state, maps }) := by
    intro j g
    rw [List.getElem?_append]
    split
    · next hlt =>
      constructor
      · exact .inl
      · rintro (hg | ⟨rfl, -⟩)
        · exact hg
        · omega
    · next hge =>
      have hnone : r.all[j]? = none := List.getElem?_eq_none (by omega)
      rw [hnone, List.getElem?_singleton]
      by_cases hj : j = r.all.length
      · subst hj
        simp [eq_comm]
      · have hsub : j - r.all.length ≠ 0 := by omega
        simp [hj, hsub]
  have hlt : ∀ (j : Nat) (g : ReducerGroup), r.all[j]? = some g → j ≠ r.all.length := by
    intro j g hg heq
    rw [heq, List.getElem?_eq_none (Nat.le_refl _)] at hg
    simp at hg
  have hkey : ∀ (j : Nat) (g : ReducerGroup), r.all[j]? = some g → g.key ≠ k := by
    rintro j g hg rfl
    rw [h.present hg] at hk
    simp at hk
  have habsent : ∀ k' : List UInt8, (r.ids.insert k r.all.length)[k']? = none → r.ids[k']? = none := by
    intro k' hk'
    grind
  refine ⟨?_, ?_, ?_, ?_, ?_, h.nodup, ?_, ?_, ?_, h.queue, h.numbers, h.sorted, ?_⟩
  · intro k' j
    show (r.ids.insert k r.all.length)[k']? = some j ↔ _
    by_cases hkk : k = k'
    · subst hkk
      rw [ExtTreeMap.getElem?_insert_self]
      constructor
      · intro hj
        obtain rfl := Option.some.inj hj
        exact ⟨_, (hget _ _).mpr (.inr ⟨rfl, rfl⟩), rfl⟩
      · rintro ⟨g, hg, hgk⟩
        rcases (hget j g).mp hg with hg | ⟨rfl, -⟩
        · exact absurd hgk (hkey j g hg)
        · rfl
    · have hold : (r.ids.insert k r.all.length)[k']? = r.ids[k']? := by grind
      rw [hold, h.ids k' j]
      constructor
      · rintro ⟨g, hg, hgk⟩
        exact ⟨g, (hget j g).mpr (.inl hg), hgk⟩
      · rintro ⟨g, hg, hgk⟩
        rcases (hget j g).mp hg with hg | ⟨-, rfl⟩
        · exact ⟨g, hg, hgk⟩
        · exact absurd hgk hkk
  · intro j g hg
    rcases (hget j g).mp hg with hg | ⟨-, rfl⟩
    · exact h.groups j g hg
    · show StateRep v _ (work k) (final k)
      rw [show final k = work k by rw [hwork, hfinal]]
      exact StateRep.fresh hs hu hm
  · intro j g hg
    rcases (hget j g).mp hg with hg | ⟨-, rfl⟩
    · exact h.unsaved j g hg
    · show SavedRep v _ (final k) (saved k)
      rw [hfinal]
      exact ⟨fun _ _ => rfl, fun _ => rfl⟩
  · intro b ids hb j hj
    obtain ⟨g, hg, hw⟩ := h.tracked b ids hb j hj
    exact ⟨g, (hget j g).mpr (.inl hg), hw⟩
  · intro j g hg b hw hf
    rcases (hget j g).mp hg with hg | ⟨-, rfl⟩
    · exact h.tracks j g hg b hw hf
    · have hw : b ∈ work k := hw
      have hf : b ∉ final k := hf
      rw [hfinal, ← hwork] at hf
      exact absurd hw hf
  · intro j
    rw [h.pending j]
    constructor
    · rintro ⟨g, hg, hp⟩
      exact ⟨g, (hget j g).mpr (.inl hg), hp⟩
    · rintro ⟨g, hg, hp⟩
      rcases (hget j g).mp hg with hg | ⟨-, rfl⟩
      · exact ⟨g, hg, hp⟩
      · simp at hp
  · exact fun k' hk' => h.absent k' (habsent k' hk')
  · exact fun hr k' hk' => h.unread hr k' (habsent k' hk')
  · intro j g hg
    rcases (hget j g).mp hg with hg | ⟨-, rfl⟩
    · exact h.written j g hg
    · exact ⟨fun c hc _ => hqueue c hc, fun _ => hcommitted⟩

end ReducerInv

end Settle
