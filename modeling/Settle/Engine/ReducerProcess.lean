import Settle.Engine.ReducerBlocks

/-!
# `process_block` of a reducer

Within a block the invariant of the reducer holds for the rows processed so far, on the path row
by row and on the path group by group (`MidBlock`). Both paths run the body on the rows in some
order that keeps the order of the rows of each group; `emissions` is what the body emits there.
-/

namespace Settle

open Std

/-- The rows of a block so far: those of each group that the block changed. -/
abbrev BlockRows := List UInt8 → Option (List Row)

/-- The work with one more block. -/
def addBlock (work : Works) (b : BlockNumber) (rows : BlockRows) : Works := fun k =>
  match rows k with
  | none => work k
  | some own => (work k).insert b own

variable {v : ReducerShape} {r : ReducerEngine} {s : ReducerStorage} {work final saved : Works}
  {b : BlockNumber} {done : BlockRows}

theorem addBlock_none (work : Works) (b : BlockNumber) : addBlock work b (fun _ => none) = work := rfl

/-- The state of a reducer within block `b`, with the rows in `done` processed. -/
structure MidBlock (v : ReducerShape) (r : ReducerEngine) (s : ReducerStorage)
    (work final saved : Works) (b : BlockNumber) (done : BlockRows) : Prop where
  inv : ReducerInv v r s (addBlock work b done) final saved
  newest : ∀ k, ∀ b' ∈ work k, b' < b
  above : ∀ k, b ∉ final k
  /-- the MAP changes of the groups go to the block -/
  block : ∀ (id : Nat) (g : ReducerGroup), r.all[id]? = some g → done g.key ≠ none →
    g.maps.block = b

/-- The value of a group with the rows processed so far. -/
def valueSoFar (v : ReducerShape) (work : Works) (done : BlockRows) (k : List UInt8) :
    GroupValue := ((done k).getD []).foldl v.step (v.value (work k))

namespace MidBlock

/-- The emit columns are not part of the invariant. -/
theorem of_eq (h : MidBlock v r s work final saved b done) {r' : ReducerEngine}
    (hall : r'.all = r.all) (hids : r'.ids = r.ids) (hreads : r'.readsStorage = r.readsStorage)
    (hblocks : r'.blockGroups = r.blockGroups) (hpending : r'.pendingDurable = r.pendingDurable) :
    MidBlock v r' s work final saved b done := by
  refine ⟨h.inv.of_eq hall hids hreads hblocks hpending, h.newest, h.above, ?_⟩
  rw [hall]
  exact h.block

/-- The entry of the block in `block_groups`. -/
theorem openBlock (h : MidBlock v r s work final saved b done) :
    MidBlock v { r with blockGroups := r.blockGroups.insertIfNew b [] } s work final saved b
      done := by
  obtain ⟨hi, hn, ha, hb⟩ := h
  refine ⟨⟨hi.ids, hi.groups, hi.unsaved, ?_, ?_, hi.nodup, hi.pending, hi.absent, hi.unread,
    hi.queue, hi.numbers, hi.sorted, hi.written⟩, hn, ha, hb⟩
  · intro b' ids hids id hid
    have hids : (r.blockGroups.insertIfNew b [])[b']? = some ids := hids
    refine hi.tracked b' ids ?_ id hid
    rw [ExtTreeMap.getElem?_insertIfNew] at hids
    split at hids
    · obtain rfl := Option.some.inj hids
      simp at hid
    · exact hids
  · intro id g hg b' hw hf
    obtain ⟨ids, hids, hid⟩ := hi.tracks id g hg b' hw hf
    refine ⟨ids, ?_, hid⟩
    show (r.blockGroups.insertIfNew b [])[b']? = some ids
    rw [ExtTreeMap.getElem?_insertIfNew, if_neg]
    · exact hids
    · rintro ⟨heq, hnot⟩
      obtain rfl := Std.compare_eq_iff_eq.mp heq
      exact hnot (OrdMap.mem_of_getElem?_eq hids)

/-- The group of a row, loaded on its first row. -/
theorem groupId (h : MidBlock v r s work final saved b done) (k : List UInt8) :
    ∃ (r' : ReducerEngine) (id : Nat) (g : ReducerGroup),
      r.groupId v s.store k = .ok (r', id) ∧ r'.all[id]? = some g ∧ g.key = k ∧
      MidBlock v r' s work final saved b done ∧ r.all <+: r'.all ∧
      r'.columns = r.columns ∧ r'.emitGrowth = r.emitGrowth := by
  unfold ReducerEngine.groupId
  cases hid : r.ids[k]? with
  | some id =>
    obtain ⟨g, hg, hk⟩ := (h.inv.ids k id).mp hid
    exact ⟨r, id, g, rfl, hg, hk, h, List.prefix_refl _, rfl, rfl⟩
  | none =>
    obtain ⟨hwork, -, hcommitted, -⟩ := h.inv.absent k hid
    obtain ⟨state, maps, hload, hs, hu, hm⟩ :=
      ReducerEngine.loadState_ok (r := r) (k := k) h.inv.queue.store (by
        intro hr
        rw [hcommitted, ← hwork]
        exact h.inv.unread hr k hid)
    rw [hcommitted, ← hwork] at hs hm
    simp only [hload]
    refine ⟨_, _, { key := k, state, maps }, rfl, ?_, rfl, ?_, List.prefix_append _ _, rfl, rfl⟩
    · simp
    · refine ⟨h.inv.load hid hs hu hm, h.newest, h.above, ?_⟩
      intro id g hg hd
      rw [List.getElem?_append] at hg
      split at hg
      · exact h.block id g hg hd
      · -- an absent group has no rows yet
        rw [List.getElem?_singleton] at hg
        split at hg
        · obtain rfl := Option.some.inj hg
          exfalso
          apply hd
          cases hdone : done k with
          | none => rfl
          | some own =>
            have hb : b ∈ addBlock work b done k := by simp [addBlock, hdone]
            obtain ⟨-, hfinal, -⟩ := h.inv.absent k hid
            rw [hwork, ← hfinal] at hb
            exact absurd hb (h.above k)
        · simp at hg

theorem mem_addBlock (h : MidBlock v r s work final saved b done) {k : List UInt8} :
    b ∈ addBlock work b done k ↔ done k ≠ none := by
  rw [addBlock]
  cases hd : done k with
  | none =>
    simp only [ne_eq, not_true_eq_false, iff_false]
    intro hb
    have := h.newest k b hb
    grind
  | some own => simp

/-- The group has an undo entry for the block once the block changed it. -/
theorem lastBlock_iff (h : MidBlock v r s work final saved b done) {id : Nat} {g : ReducerGroup}
    (hg : r.all[id]? = some g) : g.undo.lastBlock = some b ↔ done g.key ≠ none := by
  have hrep := h.inv.groups id g hg
  rw [← h.mem_addBlock (k := g.key)]
  constructor
  · intro heq
    rw [Blocks.lastBlock_eq] at heq
    obtain ⟨e, he, rfl⟩ := Option.map_eq_some_iff.mp heq
    have hmem := List.mem_of_getLast? he
    rw [ExtTreeMap.mem_toList_iff_getElem?_eq_some] at hmem
    exact ((hrep.blocks e.1).mp (OrdMap.mem_of_getElem?_eq hmem)).1
  · intro hb
    have hundo : b ∈ g.undo.toMap := (hrep.blocks b).mpr ⟨hb, h.above g.key⟩
    have hmax : ∀ b' ∈ g.undo.toMap, b' ≤ b := by
      intro b' hb'
      have hw := ((hrep.blocks b').mp hb').1
      rw [addBlock] at hw
      have := h.newest g.key b'
      split at hw <;> grind
    exact Blocks.lastBlock_of_newest hundo hmax

/-- The first change of a group in the block: the block is new to the group. -/
theorem change_first (h : MidBlock v r s work final saved b done) {id : Nat} {g : ReducerGroup}
    (hg : r.all[id]? = some g) (hd : done g.key = none) :
    MidBlock v (r.change b id) s work final saved b
      (Function.update done g.key (some ((done g.key).getD []))) := by
  have hrep := h.inv.groups id g hg
  unfold ReducerEngine.change
  rw [hg]
  dsimp only
  have hne : g.undo.lastBlock ≠ some b := fun heq => (h.lastBlock_iff hg).mp heq hd
  have hwork : addBlock work b done g.key = work g.key := by simp [addBlock, hd]
  have hnew : ∀ b' ∈ addBlock work b done g.key, b' < b := by
    rw [hwork]
    exact h.newest g.key
  have hwork' : addBlock work b (Function.update done g.key (some ((done g.key).getD [])))
      g.key = (addBlock work b done g.key).insert b [] := by
    simp [addBlock, hd]
  obtain ⟨hrep', hblock'⟩ := hrep.changeGroup hnew
  rw [if_neg hne]
  refine ⟨?_, h.newest, h.above, ?_⟩
  · refine h.inv.modify hg ?_ ?_ ?_ ?_ ?_ ?_ ?_ ?_ ?_ ?_
    · rw [ReducerEngine.changeGroup, if_neg hne]
    · rw [ReducerEngine.changeGroup, if_neg hne]
    · rw [ReducerEngine.changeGroup, if_neg hne]
    · intro k hk
      simp [addBlock, Function.update_of_ne hk]
    · intro b' hb'
      rw [hwork']
      grind
    · rw [hwork']
      exact hrep'
    · exact (h.inv.unsaved id g hg).changeGroup b
    · intro b' ids hids j hj
      rw [ExtTreeMap.getElem?_insert] at hids
      split at hids
      · next heq =>
        obtain rfl := Std.compare_eq_iff_eq.mp heq
        obtain rfl := Option.some.inj hids
        rcases List.mem_append.mp hj with hj | hj
        · cases hold : r.blockGroups[b]? with
          | none => simp [hold] at hj
          | some ids₀ => exact .inl ⟨ids₀, rfl, by simpa [hold] using hj⟩
        · refine .inr ⟨List.mem_singleton.mp hj, ?_, h.above g.key⟩
          rw [hwork']
          simp
      · exact .inl ⟨ids, hids, hj⟩
    · intro b' ids₀ hids₀
      by_cases heq : b = b'
      · subst heq
        refine ⟨ids₀ ++ [id], ?_, fun j hj => List.mem_append_left _ hj⟩
        rw [ExtTreeMap.getElem?_insert_self, hids₀]
        rfl
      · exact ⟨ids₀, by grind, fun j hj => hj⟩
    · intro b' hb' _
      rw [hwork'] at hb'
      by_cases heq : b = b'
      · subst heq
        exact .inr ⟨_, ExtTreeMap.getElem?_insert_self, by simp⟩
      · exact .inl (by grind)
  · intro j g' hg' hd'
    rw [List.getElem?_modify] at hg'
    by_cases hj : id = j
    · subst hj
      rw [hg] at hg'
      simp only [↓reduceIte, Option.map_eq_map, Option.map_some, Option.some.injEq] at hg'
      rw [← hg']
      exact hblock'
    · simp only [hj, ↓reduceIte, Option.map_eq_map, Option.map_id_fun', id_eq] at hg'
      have hk : g'.key ≠ g.key := fun heq => hj (h.inv.id_unique hg hg' heq.symm)
      rw [Function.update_of_ne hk] at hd'
      exact h.block j g' hg' hd'

/-- A change of a group in the block. -/
theorem change (h : MidBlock v r s work final saved b done) {id : Nat} {g : ReducerGroup}
    (hg : r.all[id]? = some g) :
    MidBlock v (r.change b id) s work final saved b
      (Function.update done g.key (some ((done g.key).getD []))) := by
  by_cases hd : done g.key = none
  · exact h.change_first hg hd
  · -- a later row of the group
    unfold ReducerEngine.change
    rw [hg]
    dsimp only
    rw [if_pos ((h.lastBlock_iff hg).mpr hd)]
    have hself : Function.update done g.key (some ((done g.key).getD [])) = done := by
      apply Function.update_eq_self_iff.mpr
      obtain ⟨own, hown⟩ := Option.ne_none_iff_exists'.mp hd
      rw [hown]
      rfl
    rw [hself]
    exact h

/-- One row of a group that the block changed. -/
theorem runBody (h : MidBlock v r s work final saved b done) {id : Nat} {g : ReducerGroup}
    (hg : r.all[id]? = some g) (hd : done g.key ≠ none) (row : Row) :
    MidBlock v { r with all := r.all.modify id fun g => (ReducerEngine.runBody v g row).1 } s work
      final saved b (Function.update done g.key (some ((done g.key).getD [] ++ [row]))) ∧
    (ReducerEngine.runBody v g row).2 = v.body (valueSoFar v work done g.key) row := by
  obtain ⟨own, hown⟩ := Option.ne_none_iff_exists'.mp hd
  have hwork : addBlock work b done g.key = (work g.key).insert b own := by simp [addBlock, hown]
  have hwork' : addBlock work b (Function.update done g.key (some ((done g.key).getD [] ++ [row])))
      g.key = (work g.key).insert b (own ++ [row]) := by simp [addBlock, hown]
  have hrep := h.inv.groups id g hg
  rw [hwork] at hrep
  obtain ⟨hrep', hblock', hbody⟩ :=
    hrep.runBody (h.newest g.key) (h.above g.key) (h.block id g hg hd) row
  refine ⟨⟨?_, h.newest, h.above, ?_⟩, ?_⟩
  · refine h.inv.modify hg rfl rfl rfl ?_ ?_ ?_ ?_ ?_ ?_ ?_
    · intro k hk
      simp [addBlock, Function.update_of_ne hk]
    · intro b' hb'
      rw [hwork] at hb'
      rw [hwork']
      grind
    · rw [hwork']
      exact hrep'
    · exact (h.inv.unsaved id g hg).runBody row
    · exact fun b' ids hids j hj => .inl ⟨ids, hids, hj⟩
    · exact fun b' ids₀ hids₀ => ⟨ids₀, hids₀, fun j hj => hj⟩
    · intro b' hb' _
      rw [hwork'] at hb'
      rw [hwork]
      exact .inl (by grind)
  · intro j g' hg' hd'
    rw [List.getElem?_modify] at hg'
    by_cases hj : id = j
    · subst hj
      rw [hg] at hg'
      simp only [↓reduceIte, Option.map_eq_map, Option.map_some, Option.some.injEq] at hg'
      rw [← hg']
      exact hblock'
    · simp only [hj, ↓reduceIte, Option.map_eq_map, Option.map_id_fun', id_eq] at hg'
      have hk : g'.key ≠ g.key := fun heq => hj (h.inv.id_unique hg hg' heq.symm)
      rw [Function.update_of_ne hk] at hd'
      exact h.block j g' hg' hd'
  · rw [hbody, valueSoFar, hown]
    rfl

end MidBlock

/-! ## Rows in some order -/

/-- What the body emits on rows of the groups `key` says, each emit with the index of its row. -/
def emissions (v : ReducerShape) {κ : Type} [DecidableEq κ] (key : Row → κ) :
    (κ → GroupValue) → List (Row × Nat) → List (Nat × List (String × Value))
  | _, [] => []
  | base, (row, index) :: rest =>
    (v.body (base (key row)) row).emits.map (index, ·) ++
      emissions v key (Function.update base (key row) (v.step (base (key row)) row)) rest

/-- Emit the rows of a log. -/
def Emits.pushAll (e : Emits) (log : List (Nat × List (String × Value))) : Emits :=
  log.foldl (fun e entry => e.pushNamed entry.1 entry.2) e

/-- The rows of a block, with those of `rows` processed too. -/
def addRows (key : Row → List UInt8) : BlockRows → List (Row × Nat) → BlockRows
  | done, [] => done
  | done, (row, _) :: rest =>
    addRows key (Function.update done (key row) (some ((done (key row)).getD [] ++ [row]))) rest

theorem addRows_eq (key : Row → List UInt8) (done : BlockRows) (rows : List (Row × Nat))
    (k : List UInt8) :
    addRows key done rows k = if (rows.filter fun e => key e.1 = k) = [] then done k
      else some ((done k).getD [] ++ (rows.filter fun e => key e.1 = k).map Prod.fst) := by
  induction rows generalizing done with
  | nil => rfl
  | cons e rows ih =>
    obtain ⟨row, index⟩ := e
    rw [addRows, ih]
    by_cases hk : key row = k
    · subst hk
      rw [List.filter_cons_of_pos (by simp)]
      simp only [Function.update_self, reduceCtorEq, ↓reduceIte, Option.getD_some, List.map_cons,
        List.append_assoc, List.singleton_append]
      split
      · next h => rw [h]; rfl
      · rfl
    · rw [List.filter_cons_of_neg (by simpa using hk), Function.update_of_ne (Ne.symm hk)]

theorem valueSoFar_update (work : Works) (done : BlockRows) (k : List UInt8) (row : Row) :
    valueSoFar v work (Function.update done k (some ((done k).getD [] ++ [row])))
      = Function.update (valueSoFar v work done) k (v.step (valueSoFar v work done k) row) := by
  funext k'
  by_cases hk : k' = k
  · subst hk
    simp [valueSoFar]
  · simp [valueSoFar, Function.update_of_ne hk]

theorem Emits.check_ok {e : Emits} (h : e.check = .ok ()) : e.overflow = none := by
  unfold Emits.check at h
  split at h
  · assumption
  · cases h

namespace MidBlock

/-- One row: the body, its emits, and the check of the columns. -/
theorem processRow (h : MidBlock v r s work final saved b done) {id : Nat} {g : ReducerGroup}
    (hg : r.all[id]? = some g) (hd : done g.key ≠ none) (emits : Emits) (index : Nat) (row : Row) :
    ∃ (r' : ReducerEngine) (emits' : Emits) (result : Except Error Unit),
      r.processRow v emits id index row = (r', emits', result) ∧
      MidBlock v r' s work final saved b
        (Function.update done g.key (some ((done g.key).getD [] ++ [row]))) ∧
      r'.all.map ReducerGroup.key = r.all.map ReducerGroup.key ∧
      r'.columns = r.columns ∧ r'.emitGrowth = r.emitGrowth ∧
      (result = .ok () → emits'.overflow = none ∧
        emits' = emits.pushAll
          ((v.body (valueSoFar v work done g.key) row).emits.map (index, ·))) := by
  obtain ⟨hmid, hbody⟩ := h.runBody hg hd row
  have hkeys : (r.all.modify id fun g => (ReducerEngine.runBody v g row).1).map ReducerGroup.key
      = r.all.map ReducerGroup.key := by
    apply List.ext_getElem?
    intro j
    rw [List.getElem?_map, List.getElem?_map, List.getElem?_modify]
    cases r.all[j]? with
    | none => rfl
    | some g' =>
      by_cases hj : id = j
      · subst hj
        simp [ReducerEngine.runBody]
      · simp [hj]
  have hpush : (ReducerEngine.runBody v g row).2.emits.foldl
        (fun e fields => e.pushNamed index fields) emits
      = emits.pushAll ((v.body (valueSoFar v work done g.key) row).emits.map (index, ·)) := by
    rw [hbody, Emits.pushAll, List.foldl_map]
  unfold ReducerEngine.processRow
  rw [hg]
  dsimp only
  rw [hpush]
  cases herr : (ReducerEngine.runBody v g row).2.error with
  | some e => exact ⟨_, _, _, rfl, hmid, hkeys, rfl, rfl, fun hok => by cases hok⟩
  | none => exact ⟨_, _, _, rfl, hmid, hkeys, rfl, rfl, fun hok => ⟨Emits.check_ok hok, rfl⟩⟩

/-- **The path row by row.** -/
theorem processPerRow (ids : List (Option Nat)) (rows : List (Row × Nat))
    (h : MidBlock v r s work final saved b done) (emits : Emits) :
    ∃ (r' : ReducerEngine) (emits' : Emits) (result : Except Error Unit) (done' : BlockRows),
      ReducerEngine.processPerRow v s.store b ids rows r emits = (r', emits', result) ∧
      MidBlock v r' s work final saved b done' ∧
      r'.columns = r.columns ∧ r'.emitGrowth = r.emitGrowth ∧
      (result = .ok () → done' = addRows (ReducerEngine.groupKey ids) done rows ∧
        (emits.overflow = none → emits'.overflow = none) ∧
        emits' = emits.pushAll
          (emissions v (ReducerEngine.groupKey ids) (valueSoFar v work done) rows)) := by
  induction rows generalizing r done emits with
  | nil => exact ⟨r, emits, .ok (), done, rfl, h, rfl, rfl, fun _ => ⟨rfl, id, rfl⟩⟩
  | cons e rows ih =>
    obtain ⟨row, index⟩ := e
    obtain ⟨r₁, id, g, hid, hg, hk, h₁, -, hc₁, he₁⟩ := h.groupId (ReducerEngine.groupKey ids row)
    have h₂ := h₁.change hg
    have hg₂ : ∃ g₂, (r₁.change b id).all[id]? = some g₂ ∧ g₂.key = g.key := by
      unfold ReducerEngine.change
      rw [hg]
      dsimp only
      split
      · exact ⟨g, hg, rfl⟩
      · refine ⟨ReducerEngine.changeGroup b g, ?_, ?_⟩
        · rw [List.getElem?_modify, hg]
          simp
        · unfold ReducerEngine.changeGroup
          split <;> rfl
    have hframe : (r₁.change b id).columns = r₁.columns ∧
        (r₁.change b id).emitGrowth = r₁.emitGrowth := by
      unfold ReducerEngine.change
      rw [hg]
      dsimp only
      split <;> exact ⟨rfl, rfl⟩
    obtain ⟨g₂, hg₂, hk₂⟩ := hg₂
    obtain ⟨r₃, emits₃, result₃, hrow, h₃, -, hc₃, he₃, hok₃⟩ :=
      h₂.processRow hg₂ (by rw [hk₂]; simp) emits index row
    have hdone : Function.update (Function.update done g.key (some ((done g.key).getD []))) g₂.key
        (some ((Function.update done g.key (some ((done g.key).getD [])) g₂.key).getD [] ++ [row]))
        = Function.update done g.key (some ((done g.key).getD [] ++ [row])) := by
      rw [hk₂, Function.update_self, Function.update_idem]
      rfl
    have hvalue : valueSoFar v work (Function.update done g.key (some ((done g.key).getD [])))
        = valueSoFar v work done := by
      funext k'
      by_cases hkk : k' = g.key
      · subst hkk
        simp [valueSoFar]
      · simp [valueSoFar, Function.update_of_ne hkk]
    rw [hdone] at h₃
    rw [hvalue, hk₂] at hok₃
    rw [ReducerEngine.processPerRow, hid]
    dsimp only
    rw [hrow]
    cases result₃ with
    | error e =>
      exact ⟨r₃, emits₃, .error e, _, rfl, h₃, hc₃.trans (hframe.1.trans hc₁),
        he₃.trans (hframe.2.trans he₁), fun hok => by cases hok⟩
    | ok u =>
      obtain ⟨hover, hemits⟩ := hok₃ rfl
      obtain ⟨r', emits', result, done', hloop, hmid, hc, he, hok⟩ := ih h₃ emits₃
      refine ⟨r', emits', result, done', hloop, hmid, hc.trans (hc₃.trans (hframe.1.trans hc₁)),
        he.trans (he₃.trans (hframe.2.trans he₁)), ?_⟩
      intro hres
      obtain ⟨hd', ho', he'⟩ := hok hres
      refine ⟨?_, fun _ => ho' hover, ?_⟩
      · rw [hd', addRows, ← hk]
      · rw [he', hemits, valueSoFar_update, emissions, ← hk, Emits.pushAll, Emits.pushAll,
          Emits.pushAll, List.foldl_append]

end MidBlock

/-! ## Rows by group -/

namespace ReducerEngine

theorem mem_firstUses {ids : List Nat} {id : Nat} : id ∈ firstUses ids ↔ id ∈ ids := by
  induction ids with
  | nil => rfl
  | cons id' ids ih =>
    rw [firstUses, List.mem_cons, List.mem_filter, List.mem_cons, ih]
    by_cases h : id = id'
    · simp [h]
    · simp [h]

theorem nodup_firstUses (ids : List Nat) : (firstUses ids).Nodup := by
  induction ids with
  | nil => exact List.nodup_nil
  | cons id ids ih =>
    rw [firstUses, List.nodup_cons]
    exact ⟨by simp, ih.filter _⟩

/-- The body on rows, each with the id of its group. -/
def processItems (v : ReducerShape) :
    List ((Row × Nat) × Nat) → ReducerEngine → Emits → ReducerEngine × Emits × Except Error Unit
  | [], r, emits => (r, emits, .ok ())
  | ((row, index), id) :: rest, r, emits =>
    match r.processRow v emits id index row with
    | (r, emits, .error e) => (r, emits, .error e)
    | (r, emits, .ok ()) => processItems v rest r emits

theorem processItems_append (items items' : List ((Row × Nat) × Nat)) (r : ReducerEngine)
    (emits : Emits) :
    processItems v (items ++ items') r emits = match processItems v items r emits with
      | (r, emits, .error e) => (r, emits, .error e)
      | (r, emits, .ok ()) => processItems v items' r emits := by
  induction items generalizing r emits with
  | nil => rfl
  | cons item items ih =>
    obtain ⟨⟨row, index⟩, id⟩ := item
    rw [List.cons_append, processItems, processItems]
    split
    · rfl
    · exact ih _ _

theorem processGroup_eq (id : Nat) (rows : List (Row × Nat)) (r : ReducerEngine) (emits : Emits) :
    processGroup v id rows r emits = processItems v (rows.map (·, id)) r emits := by
  induction rows generalizing r emits with
  | nil => rfl
  | cons e rows ih =>
    obtain ⟨row, index⟩ := e
    rw [processGroup, List.map_cons, processItems]
    rcases r.processRow v emits id index row with ⟨r', emits', e | u⟩
    · rfl
    · exact ih r' emits'

/-- The order of the rows on the batched path: group by group. -/
def groupedRows (rows : List ((Row × Nat) × Nat)) (ids : List Nat) : List ((Row × Nat) × Nat) :=
  ids.flatMap fun id => rows.filter fun e => e.2 == id

theorem processGrouped_eq (rows : List ((Row × Nat) × Nat)) (ids : List Nat) (r : ReducerEngine)
    (emits : Emits) :
    processGrouped v rows ids r emits = processItems v (groupedRows rows ids) r emits := by
  induction ids generalizing r emits with
  | nil => rfl
  | cons id ids ih =>
    have hitems : ((rows.filter fun e => e.2 == id).map Prod.fst).map (·, id)
        = rows.filter fun e => e.2 == id := by
      rw [List.map_map]
      conv_rhs => rw [← List.map_id (rows.filter fun e => e.2 == id)]
      apply List.map_congr_left
      intro e he
      have heq : e.2 = id := by simpa using (List.mem_filter.mp he).2
      rw [← heq]
      rfl
    rw [processGrouped, groupedRows, List.flatMap_cons, processItems_append, processGroup_eq,
      hitems]
    rcases processItems v (rows.filter fun e => e.2 == id) r emits with ⟨r', emits', e | u⟩
    · rfl
    · exact ih r' emits'

end ReducerEngine

namespace MidBlock

theorem processItems (key : Row → List UInt8) (items : List ((Row × Nat) × Nat))
    (h : MidBlock v r s work final saved b done) (emits : Emits)
    (hitems : ∀ item ∈ items, (r.all.map ReducerGroup.key)[item.2]? = some (key item.1.1) ∧
      done (key item.1.1) ≠ none) :
    ∃ (r' : ReducerEngine) (emits' : Emits) (result : Except Error Unit) (done' : BlockRows),
      ReducerEngine.processItems v items r emits = (r', emits', result) ∧
      MidBlock v r' s work final saved b done' ∧
      r'.columns = r.columns ∧ r'.emitGrowth = r.emitGrowth ∧
      (result = .ok () → done' = addRows key done (items.map Prod.fst) ∧
        (emits.overflow = none → emits'.overflow = none) ∧
        emits' = emits.pushAll (emissions v key (valueSoFar v work done) (items.map Prod.fst))) := by
  induction items generalizing r done emits with
  | nil => exact ⟨r, emits, .ok (), done, rfl, h, rfl, rfl, fun _ => ⟨rfl, id, rfl⟩⟩
  | cons item items ih =>
    obtain ⟨⟨row, index⟩, id⟩ := item
    obtain ⟨hid, hd⟩ := hitems _ (List.mem_cons_self ..)
    rw [List.getElem?_map] at hid
    obtain ⟨g, hg, hk⟩ := Option.map_eq_some_iff.mp hid
    have hk : g.key = key row := hk
    obtain ⟨r₁, emits₁, result₁, hrow, h₁, hkeys, hc₁, he₁, hok₁⟩ :=
      h.processRow hg (by rw [hk]; exact hd) emits index row
    rw [ReducerEngine.processItems, hrow]
    cases result₁ with
    | error e => exact ⟨r₁, emits₁, .error e, _, rfl, h₁, hc₁, he₁, fun hok => by cases hok⟩
    | ok u =>
      obtain ⟨hover, hemits⟩ := hok₁ rfl
      obtain ⟨r', emits', result, done', hloop, hmid, hc, he, hok⟩ := ih h₁ emits₁ (by
        intro item hitem
        obtain ⟨h₁', h₂'⟩ := hitems item (List.mem_cons_of_mem _ hitem)
        refine ⟨by rw [hkeys]; exact h₁', ?_⟩
        by_cases heq : key item.1.1 = g.key
        · rw [heq, Function.update_self]
          simp
        · rw [Function.update_of_ne heq]
          exact h₂')
      refine ⟨r', emits', result, done', hloop, hmid, hc.trans hc₁, he.trans he₁, ?_⟩
      intro hres
      obtain ⟨hd', ho', he'⟩ := hok hres
      refine ⟨?_, fun _ => ho' hover, ?_⟩
      · rw [hd', List.map_cons, addRows, ← hk]
      · rw [he', hemits, valueSoFar_update, List.map_cons, emissions, ← hk, Emits.pushAll,
          Emits.pushAll, Emits.pushAll, List.foldl_append]

/-- The groups of the rows, loaded. -/
theorem loadGroups (ids : List (Option Nat)) (rows : List Row)
    (h : MidBlock v r s work final saved b done) :
    ∃ (r' : ReducerEngine) (groups : List Nat),
      ReducerEngine.loadGroups v s.store ids rows r = (r', .ok groups) ∧
      MidBlock v r' s work final saved b done ∧ r.all <+: r'.all ∧
      r'.columns = r.columns ∧ r'.emitGrowth = r.emitGrowth ∧
      List.Forall₂ (fun row id =>
        (r'.all.map ReducerGroup.key)[id]? = some (ReducerEngine.groupKey ids row)) rows groups := by
  induction rows generalizing r with
  | nil => exact ⟨r, [], rfl, h, List.prefix_refl _, rfl, rfl, .nil⟩
  | cons row rows ih =>
    obtain ⟨r₁, id, g, hid, hg, hk, h₁, hp₁, hc₁, he₁⟩ := h.groupId (ReducerEngine.groupKey ids row)
    obtain ⟨r', groups, hload, hmid, hp, hc, he, hall⟩ := ih h₁
    refine ⟨r', id :: groups, ?_, hmid, hp₁.trans hp, hc.trans hc₁, he.trans he₁, .cons ?_ hall⟩
    · rw [ReducerEngine.loadGroups, hid]
      dsimp only
      rw [hload]
    · obtain ⟨rest, hrest⟩ := hp
      rw [List.getElem?_map, ← hrest, List.getElem?_append_left, hg, Option.map_some, hk]
      exact (List.getElem?_eq_some_iff.mp hg).1

/-- The groups of the block, before the body runs on them. -/
theorem changeAll (ids : List Nat) (h : MidBlock v r s work final saved b done)
    (hids : ∀ id ∈ ids, id < r.all.length) :
    ∃ done', MidBlock v (ids.foldl (fun r id => r.change b id) r) s work final saved b done' ∧
      (ids.foldl (fun r id => r.change b id) r).all.map ReducerGroup.key
        = r.all.map ReducerGroup.key ∧
      (ids.foldl (fun r id => r.change b id) r).columns = r.columns ∧
      (ids.foldl (fun r id => r.change b id) r).emitGrowth = r.emitGrowth ∧
      (∀ k, (done' k).getD [] = (done k).getD []) ∧
      ∀ k, done' k ≠ none ↔ done k ≠ none ∨ ∃ id ∈ ids, (r.all.map ReducerGroup.key)[id]? = some k := by
  induction ids generalizing r done with
  | nil => exact ⟨done, h, rfl, rfl, rfl, fun _ => rfl, fun k => by simp⟩
  | cons id ids ih =>
    have hlt := hids id (List.mem_cons_self ..)
    have hg : r.all[id]? = some r.all[id] := List.getElem?_eq_getElem hlt
    set g := r.all[id] with hgdef
    have h₁ := h.change hg
    have hframe : (r.change b id).all.map ReducerGroup.key = r.all.map ReducerGroup.key ∧
        (r.change b id).columns = r.columns ∧ (r.change b id).emitGrowth = r.emitGrowth := by
      unfold ReducerEngine.change
      rw [hg]
      dsimp only
      split
      · exact ⟨rfl, rfl, rfl⟩
      · refine ⟨?_, rfl, rfl⟩
        apply List.ext_getElem?
        intro j
        rw [List.getElem?_map, List.getElem?_map, List.getElem?_modify]
        cases r.all[j]? with
        | none => rfl
        | some g' =>
          have hkey : (ReducerEngine.changeGroup b g').key = g'.key := by
            unfold ReducerEngine.changeGroup
            split <;> rfl
          by_cases hj : id = j
          · simp [hj, hkey]
          · simp [hj]
    have hlen : (r.change b id).all.length = r.all.length := by
      have := congrArg List.length hframe.1
      simpa using this
    obtain ⟨done', hmid, hkeys, hc, he, hget, hne⟩ := ih h₁ (by
      intro id' hid'
      rw [hlen]
      exact hids id' (List.mem_cons_of_mem _ hid'))
    refine ⟨done', hmid, hkeys.trans hframe.1, hc.trans hframe.2.1, he.trans hframe.2.2, ?_, ?_⟩
    · intro k
      rw [hget k]
      by_cases hk : k = g.key
      · subst hk
        simp
      · rw [Function.update_of_ne hk]
    · intro k
      rw [hne k, hframe.1]
      by_cases hk : k = g.key
      · subst hk
        simp [hg]
      · rw [Function.update_of_ne hk]
        have hid : ¬ (r.all.map ReducerGroup.key)[id]? = some k := by
          rw [List.getElem?_map, hg, Option.map_some]
          exact fun heq => hk (Option.some.inj heq).symm
        simp only [List.mem_cons, exists_eq_or_imp, hid, false_or]

end MidBlock

/-! ## A whole block -/

/-- The rows of a block by group. -/
def blockRows (key : Row → List UInt8) (rows : List Row) : BlockRows := fun k =>
  if rows.filter (key · = k) = [] then none else some (rows.filter (key · = k))

/-- An order of the rows of a block that keeps the order of the rows of each group. -/
structure KeepsGroups {κ : Type} [DecidableEq κ] (key : Row → κ) (rows : List Row)
    (order : List (Row × Nat)) : Prop where
  mem : ∀ e ∈ order, e ∈ rows.zipIdx
  filter : ∀ k, (order.filter fun e => key e.1 = k) = rows.zipIdx.filter fun e => key e.1 = k

theorem map_fst_filter_zipIdx (key : Row → List UInt8) (rows : List Row) (k : List UInt8) :
    (rows.zipIdx.filter fun e => key e.1 = k).map Prod.fst = rows.filter (key · = k) := by
  have hcomp : (fun e : Row × Nat => decide (key e.1 = k))
      = (fun row => decide (key row = k)) ∘ Prod.fst := rfl
  rw [hcomp, ← List.filter_map, List.zipIdx_map_fst]

/-- All rows of a block in some order are the rows of the block by group. -/
theorem addRows_of_keepsGroups {key : Row → List UInt8} {rows : List Row}
    {order : List (Row × Nat)} (h : KeepsGroups key rows order)
    (hempty : ∀ k, (done k).getD [] = [])
    (hnone : ∀ k, rows.filter (key · = k) = [] → done k = none) :
    addRows key done order = blockRows key rows := by
  funext k
  have hnil : (order.filter fun e => key e.1 = k) = [] ↔ rows.filter (key · = k) = [] := by
    rw [h.filter k, ← map_fst_filter_zipIdx key rows k, List.map_eq_nil_iff]
  rw [addRows_eq, blockRows]
  by_cases hk : rows.filter (key · = k) = []
  · rw [if_pos (hnil.mpr hk), if_pos hk, hnone k hk]
  · rw [if_neg (mt hnil.mp hk), if_neg hk, hempty k, h.filter k, map_fst_filter_zipIdx,
      List.nil_append]

theorem flatMap_eq_of_unique {α β : Type} {l : List α} (hl : l.Nodup) {f : α → List β} {a : α}
    (ha : a ∈ l) (hother : ∀ x ∈ l, x ≠ a → f x = []) : l.flatMap f = f a := by
  induction l with
  | nil => simp at ha
  | cons x l ih =>
    obtain ⟨hx, hl⟩ := List.nodup_cons.mp hl
    rw [List.flatMap_cons]
    by_cases hxa : x = a
    · subst hxa
      rw [List.flatMap_eq_nil_iff.mpr, List.append_nil]
      intro y hy
      exact hother y (List.mem_cons_of_mem _ hy) fun heq => hx (heq ▸ hy)
    · have ha : a ∈ l := (List.mem_cons.mp ha).resolve_left (Ne.symm hxa)
      rw [hother x (List.mem_cons_self ..) hxa, List.nil_append,
        ih hl ha fun y hy => hother y (List.mem_cons_of_mem _ hy)]

/-- Each id belongs to a row. -/
theorem exists_row_of_mem {key : Row → List UInt8} {rows : List Row} {groups : List Nat}
    {keys : List (List UInt8)}
    (hall : List.Forall₂ (fun row id => keys[id]? = some (key row)) rows groups) {id : Nat}
    (hid : id ∈ groups) : ∃ row ∈ rows, keys[id]? = some (key row) := by
  induction hall with
  | nil => simp at hid
  | cons hrel _ ih =>
    rcases List.mem_cons.mp hid with rfl | hid
    · exact ⟨_, List.mem_cons_self .., hrel⟩
    · obtain ⟨row, hrow, hrel⟩ := ih hid
      exact ⟨row, List.mem_cons_of_mem _ hrow, hrel⟩

/-- Rows group by group keep the order within each group. -/
theorem keepsGroups_groupedRows {κ : Type} [DecidableEq κ] {key : Row → κ} {rows : List Row}
    {groups : List Nat} {keys : List κ} (hkeys : keys.Nodup)
    (hall : List.Forall₂ (fun row id => keys[id]? = some (key row)) rows groups) :
    KeepsGroups key rows ((ReducerEngine.groupedRows (rows.zipIdx.zip groups)
      (ReducerEngine.firstUses groups)).map Prod.fst) ∧
    ∀ e ∈ rows.zipIdx.zip groups, keys[e.2]? = some (key e.1.1) := by
  have hlen : rows.length = groups.length := hall.length_eq
  have hfst : (rows.zipIdx.zip groups).map Prod.fst = rows.zipIdx := by
    rw [List.map_fst_zip]
    simp [hlen]
  have hid : ∀ e ∈ rows.zipIdx.zip groups, keys[e.2]? = some (key e.1.1) := by
    intro e he
    obtain ⟨i, hi, heq⟩ := List.getElem_of_mem he
    have hi₁ : i < rows.length := by
      simp at hi
      omega
    have hrel := (List.forall₂_iff_get.mp hall).2 i hi₁ (by omega)
    rw [← heq]
    simpa using hrel
  have hsnd : ∀ e ∈ rows.zipIdx.zip groups, e.2 ∈ ReducerEngine.firstUses groups := by
    intro e he
    exact ReducerEngine.mem_firstUses.mpr (List.of_mem_zip he).2
  refine ⟨⟨?_, ?_⟩, hid⟩
  · intro e he
    obtain ⟨item, hitem, rfl⟩ := List.mem_map.mp he
    obtain ⟨id, -, hitem⟩ := List.mem_flatMap.mp hitem
    rw [← hfst]
    exact List.mem_map_of_mem (List.mem_filter.mp hitem).1
  · intro k
    have hcomp : (fun e : (Row × Nat) × Nat => decide (key e.1.1 = k))
        = (fun e : Row × Nat => decide (key e.1 = k)) ∘ Prod.fst := rfl
    rw [List.filter_map, ← hcomp]
    conv_rhs => rw [← hfst, List.filter_map, ← hcomp]
    congr 1
    rw [ReducerEngine.groupedRows, List.filter_flatMap]
    by_cases hex : ∃ e ∈ rows.zipIdx.zip groups, key e.1.1 = k
    · obtain ⟨e₀, he₀, hk₀⟩ := hex
      -- the rows of the group are those with its id
      have hiff : ∀ e ∈ rows.zipIdx.zip groups, key e.1.1 = k ↔ e.2 = e₀.2 := by
        intro e he
        have h₁ := hid e he
        have h₀ := hid e₀ he₀
        constructor
        · intro hk
          rw [hk, ← hk₀, ← h₀] at h₁
          exact (List.getElem?_inj (List.getElem?_eq_some_iff.mp (hid e he)).1 hkeys).mp h₁
        · intro heq
          rw [heq, h₀] at h₁
          rw [← Option.some.inj h₁, hk₀]
      rw [flatMap_eq_of_unique (ReducerEngine.nodup_firstUses groups) (hsnd e₀ he₀)]
      · rw [List.filter_filter]
        apply List.filter_congr
        intro e he
        have := hiff e he
        simp [this]
      · intro id _ hne
        rw [List.filter_filter, List.filter_eq_nil_iff]
        intro e he
        have := hiff e he
        simp only [Bool.and_eq_true, decide_eq_true_eq, beq_iff_eq, not_and]
        intro hk heq
        exact hne (heq ▸ this.mp hk)
    · have hno : ∀ e ∈ rows.zipIdx.zip groups, ¬ key e.1.1 = k := fun e he hk => hex ⟨e, he, hk⟩
      rw [List.filter_eq_nil_iff.mpr fun e he => by simpa using hno e he,
        List.flatMap_eq_nil_iff]
      intro id _
      rw [List.filter_filter, List.filter_eq_nil_iff]
      intro e he
      simp [hno e he]

theorem ReducerInv.nodup_keys (h : ReducerInv v r s work final saved) :
    (r.all.map ReducerGroup.key).Nodup := by
  rw [List.nodup_iff_getElem?_ne_getElem?]
  intro i j hij hj heq
  simp only [List.length_map] at hj
  rw [List.getElem?_map, List.getElem?_map, List.getElem?_eq_getElem (by omega),
    List.getElem?_eq_getElem hj] at heq
  have := h.id_unique (List.getElem?_eq_getElem (by omega)) (List.getElem?_eq_getElem hj)
    (Option.some.inj heq)
  omega

namespace MidBlock

/-- **The path group by group.** -/
theorem processBatched (ids : List (Option Nat)) (rows : List Row)
    (h : MidBlock v r s work final saved b fun _ => none) (emits : Emits)
    (hover : emits.overflow = none) :
    ∃ (r' : ReducerEngine) (emits' : Emits) (result : Except Error Unit) (done' : BlockRows),
      ReducerEngine.processBatched v s.store b rows ids r emits = (r', emits', result) ∧
      MidBlock v r' s work final saved b done' ∧
      r'.columns = r.columns ∧ r'.emitGrowth = r.emitGrowth ∧
      (result = .ok () → done' = blockRows (ReducerEngine.groupKey ids) rows ∧
        emits'.overflow = none ∧
        ∃ order, KeepsGroups (ReducerEngine.groupKey ids) rows order ∧
          emits' = emits.pushAll (emissions v (ReducerEngine.groupKey ids)
            (fun k => v.value (work k)) order)) := by
  obtain ⟨r₁, groups, hload, h₁, -, hc₁, he₁, hall⟩ := h.loadGroups ids rows
  obtain ⟨hkeeps, hid⟩ := keepsGroups_groupedRows h₁.inv.nodup_keys hall
  have hlt : ∀ id ∈ ReducerEngine.firstUses groups, id < r₁.all.length := by
    intro id hid
    obtain ⟨row, -, hrow⟩ := exists_row_of_mem hall (ReducerEngine.mem_firstUses.mp hid)
    simpa using (List.getElem?_eq_some_iff.mp hrow).1
  obtain ⟨done₂, h₂, hkeys₂, hc₂, he₂, hget, hne⟩ := h₁.openBlock.changeAll
    (ReducerEngine.firstUses groups) hlt
  have hdone : ∀ k, done₂ k ≠ none ↔
      ∃ id ∈ ReducerEngine.firstUses groups, (r₁.all.map ReducerGroup.key)[id]? = some k := by
    intro k
    rw [hne k]
    simp
  obtain ⟨r', emits', result, done', hloop, hmid, hc, he, hok⟩ :=
    h₂.processItems (ReducerEngine.groupKey ids)
      (ReducerEngine.groupedRows (rows.zipIdx.zip groups) (ReducerEngine.firstUses groups)) emits (by
      intro item hitem
      obtain ⟨id, hmem, hitem⟩ := List.mem_flatMap.mp hitem
      obtain ⟨hitem, heq⟩ := List.mem_filter.mp hitem
      have hkey := hid item hitem
      refine ⟨by rw [hkeys₂]; exact hkey, (hdone _).mpr ⟨item.2, ?_, hkey⟩⟩
      rw [show item.2 = id by simpa using heq]
      exact hmem)
  refine ⟨r', emits', result, done', ?_, hmid, hc.trans (hc₂.trans hc₁), he.trans (he₂.trans he₁),
    ?_⟩
  · rw [ReducerEngine.processBatched, hload]
    dsimp only
    rw [ReducerEngine.processGrouped_eq]
    exact hloop
  · intro hres
    obtain ⟨hd', ho', he'⟩ := hok hres
    refine ⟨?_, ho' hover, _, hkeeps, ?_⟩
    · rw [hd']
      refine addRows_of_keepsGroups hkeeps (fun k => by rw [hget k]; rfl) ?_
      intro k hk
      by_contra hne'
      obtain ⟨id, hmem, hkey⟩ := (hdone k).mp hne'
      obtain ⟨row, hrow, hrel⟩ := exists_row_of_mem hall (ReducerEngine.mem_firstUses.mp hmem)
      rw [hkey] at hrel
      have := List.filter_eq_nil_iff.mp hk row hrow
      simp only [decide_eq_true_eq] at this
      exact this (Option.some.inj hrel).symm
    · rw [he']
      congr 2
      funext k
      rw [valueSoFar, hget k]
      rfl

/-- **A block.** The rows go to their groups, and what the body emits on them, in some order that
keeps the order within each group, goes to the output. A failed block keeps its columns. -/
theorem processBlock (rows : List Row) (h : MidBlock v r s work final saved b fun _ => none) :
    ∃ (r' : ReducerEngine) (result : Except Error (List Row)) (done' : BlockRows),
      r.processBlock v s.store b rows = (r', result) ∧
      MidBlock v r' s work final saved b done' ∧
      (∀ e, result = .error e → r'.columns = r.columns ∧ r'.emitGrowth = r.emitGrowth) ∧
      ∀ out, result = .ok out →
        done' = blockRows (ReducerEngine.groupKey (ReducerEngine.groupByIds v rows)) rows ∧
        ∃ (order : List (Row × Nat)) (emits : Emits),
          KeepsGroups (ReducerEngine.groupKey (ReducerEngine.groupByIds v rows)) rows order ∧
          emits = Emits.pushAll { columns := r.columns }
            (emissions v (ReducerEngine.groupKey (ReducerEngine.groupByIds v rows))
              (fun k => v.value (work k)) order) ∧
          emits.overflow = none ∧
          out = ReducerEngine.takeOutput (ReducerEngine.groupByIds v rows) rows emits ∧
          r'.columns = emits.columns ∧
          r'.emitGrowth = if r.columns.length < emits.columns.length then
            r.emitGrowth.insertIfNew b r.columns.length else r.emitGrowth := by
  set ids := ReducerEngine.groupByIds v rows with hids
  have hpaths : ∃ (r' : ReducerEngine) (emits' : Emits) (result : Except Error Unit)
      (done' : BlockRows),
      (if v.runtime.batched then ReducerEngine.processBatched v s.store b rows ids r
          { columns := r.columns }
        else ReducerEngine.processPerRow v s.store b ids rows.zipIdx
          { r with blockGroups := r.blockGroups.insertIfNew b [] } { columns := r.columns })
        = (r', emits', result) ∧
      MidBlock v r' s work final saved b done' ∧
      r'.columns = r.columns ∧ r'.emitGrowth = r.emitGrowth ∧
      (result = .ok () → done' = blockRows (ReducerEngine.groupKey ids) rows ∧
        emits'.overflow = none ∧
        ∃ order, KeepsGroups (ReducerEngine.groupKey ids) rows order ∧
          emits' = Emits.pushAll { columns := r.columns } (emissions v (ReducerEngine.groupKey ids)
            (fun k => v.value (work k)) order)) := by
    split
    · exact h.processBatched ids rows { columns := r.columns } rfl
    · obtain ⟨r', emits', result, done', hloop, hmid, hc, he, hok⟩ :=
        h.openBlock.processPerRow ids rows.zipIdx { columns := r.columns }
      refine ⟨r', emits', result, done', hloop, hmid, hc, he, ?_⟩
      intro hres
      obtain ⟨hd', ho', he'⟩ := hok hres
      have hkeeps : KeepsGroups (ReducerEngine.groupKey ids) rows rows.zipIdx :=
        ⟨fun e he => he, fun k => rfl⟩
      refine ⟨?_, ho' rfl, _, hkeeps, he'⟩
      rw [hd']
      exact addRows_of_keepsGroups hkeeps (fun _ => rfl) fun _ _ => rfl
  obtain ⟨r', emits', result, done', heq, hmid, hc, he, hok⟩ := hpaths
  have hblock : r.processBlock v s.store b rows = match (r', emits', result) with
      | (r', _, .error e) => ({ r' with columns := r.columns }, .error e)
      | (r', emits, .ok ()) =>
        ({ r' with
            columns := emits.columns
            emitGrowth := if r.columns.length < emits.columns.length then
              r'.emitGrowth.insertIfNew b r.columns.length else r'.emitGrowth },
          .ok (ReducerEngine.takeOutput ids rows emits)) := by
    rw [← heq]
    rfl
  rw [hblock]
  cases result with
  | error e =>
    refine ⟨_, _, done', rfl, hmid.of_eq rfl rfl rfl rfl rfl, fun _ _ => ⟨rfl, he⟩, ?_⟩
    intro out hout
    cases hout
  | ok u =>
    obtain ⟨hd', ho', order, hkeeps, he'⟩ := hok rfl
    refine ⟨_, _, done', rfl, hmid.of_eq rfl rfl rfl rfl rfl, fun e herr => (by cases herr), ?_⟩
    intro out hout
    obtain rfl := Except.ok.inj hout
    refine ⟨hd', order, emits', hkeeps, he', ho', rfl, rfl, ?_⟩
    show (if _ then r'.emitGrowth.insertIfNew b r.columns.length else r'.emitGrowth) = _
    rw [he]

end MidBlock

end Settle
