import Settle.Data.UndoLog
import Settle.Engine.Reducer
import Settle.Engine.ViewFold

/-!
# The state of a reducer group as a fold

`ReducerShape.value` is the from-scratch meaning of a group: the fold of the body over the rows of
the group, block by block, from the defaults. A group keeps its newest state, the state before
each block that is not final yet, and a journal of the changed MAP entries: each of them is an
undo log, and `StateRep` says that the state as of every cut not below finality is the fold of the
blocks below the cut.
-/

namespace Settle

open Std

/-- The STATE values and the MAP entries of a group. -/
structure GroupValue where
  values : List Value
  maps : MapKey → Option Value

/-- A change of the MAP entries, as a function. -/
def MapOp.applyTo (maps : MapKey → Option Value) : MapOp → MapKey → Option Value
  | .set key value => Function.update maps key (if value.isNull then none else some value)
  | .remove key => Function.update maps key none

namespace ReducerShape

variable (v : ReducerShape)

/-- The value of a group without rows. -/
def initial : GroupValue := ⟨v.defaultState, fun _ => none⟩

/-- The body on the value of a group. -/
def body (s : GroupValue) (row : Row) : BodyResult := v.runtime.process s.values s.maps row

/-- The value of a group after one more row. -/
def step (s : GroupValue) (row : Row) : GroupValue :=
  ⟨(v.body s row).values, (v.body s row).maps.foldl MapOp.applyTo s.maps⟩

/-- The fold of the body over the rows of a group. `work` holds the blocks that changed the group,
each with its rows of the group. -/
def value (work : Chain Row) : GroupValue := (work.toList.flatMap Prod.snd).foldl v.step v.initial

/-- The fold of the blocks below `cut`. -/
def valueBelow (work : Chain Row) (cut : Nat) : GroupValue :=
  v.value (OrdMap.keep work (·.toNat < cut))

variable {v} {work : Chain Row} {b p : BlockNumber} {cut : Nat}

@[simp] theorem value_empty : v.value ∅ = v.initial := rfl

theorem value_insert (h : ∀ b' ∈ work, b' < b) (rows : List Row) :
    v.value (work.insert b rows) = rows.foldl v.step (v.value work) := by
  rw [value, OrdMap.toList_insert_of_lt h, List.flatMap_append, List.foldl_append]
  simp [value]

theorem valueBelow_of_lt (h : ∀ b ∈ work, b.toNat < cut) : v.valueBelow work cut = v.value work := by
  rw [valueBelow, OrdMap.keep_eq_self]
  intro b hb
  simpa using h b hb

/-- The newest block shows in the cuts above it. -/
theorem valueBelow_insert (h : ∀ b' ∈ work, b' ≤ b) (rows : List Row) (cut : Nat) :
    v.valueBelow (work.insert b rows) cut
      = if cut ≤ b.toNat then v.valueBelow work cut else v.value (work.insert b rows) := by
  split
  · next hc =>
    rw [valueBelow, valueBelow]
    congr 1
    ext b' r
    grind
  · next hc =>
    apply valueBelow_of_lt
    intro b' hb'
    rcases ExtTreeMap.mem_insert.mp hb' with heq | hb'
    · rw [← compare_eq_iff_eq.mp heq]
      omega
    · have := UInt64.le_iff_toNat_le.mp (h b' hb')
      omega

theorem valueBelow_keep (work : Chain Row) (p : BlockNumber) (cut : Nat) :
    v.valueBelow (OrdMap.keep work (· ≤ p)) cut = v.valueBelow work (min (p.toNat + 1) cut) := by
  rw [valueBelow, valueBelow, OrdMap.keep_keep]
  congr 2
  funext b
  rw [Bool.eq_iff_iff]
  simp only [Bool.and_eq_true, decide_eq_true_eq, UInt64.le_iff_toNat_le]
  omega

/-- The blocks up to `p` are those below the cut after it. -/
theorem value_keep_le (work : Chain Row) (p : BlockNumber) :
    v.value (OrdMap.keep work (· ≤ p)) = v.valueBelow work (p.toNat + 1) := by
  rw [valueBelow]
  congr 2
  funext b
  rw [Bool.eq_iff_iff]
  simp only [decide_eq_true_eq, UInt64.le_iff_toNat_le]
  omega

/-- The lower part of the work is what lies below some cut. -/
theorem exists_cut {final : Chain Row} (h : final.Below work) :
    ∃ cut, (∀ b ∈ final, b.toNat < cut) ∧ (∀ b ∈ work, b ∉ final → cut ≤ b.toNat) ∧
      v.valueBelow work cut = v.value final := by
  have hcut : ∃ cut, (∀ b ∈ final, b.toNat < cut) ∧ ∀ b ∈ work, b ∉ final → cut ≤ b.toNat := by
    by_cases hne : ∃ b, b ∈ final ∧ ∀ b' ∈ final, b' ≤ b
    · obtain ⟨b, hb, hmax⟩ := hne
      refine ⟨b.toNat + 1, ?_, ?_⟩
      · intro b' hb'
        have := UInt64.le_iff_toNat_le.mp (hmax b' hb')
        omega
      · intro b' hb' hn
        have := UInt64.lt_iff_toNat_lt.mp (h.lt b hb b' hb' hn)
        omega
    · refine ⟨0, ?_, fun _ _ _ => Nat.zero_le _⟩
      intro b hb
      exfalso
      -- a map with a key has a newest one
      revert hne hb
      clear h
      induction final using OrdMap.newest_induction generalizing b with
      | empty => intro _ hb; simp at hb
      | newest m k r hk ih =>
        intro hne _
        apply hne
        refine ⟨k, by simp, ?_⟩
        intro b' hb'
        have := hk b'
        grind
  obtain ⟨cut, h₁, h₂⟩ := hcut
  refine ⟨cut, h₁, h₂, ?_⟩
  rw [valueBelow]
  congr 1
  ext b r
  have := h.sub b r
  have := h₁ b
  have := h₂ b
  by_cases hb : b ∈ final
  · obtain ⟨r', hr'⟩ := OrdMap.exists_getElem?_of_mem hb
    have := h.sub b r' hr'
    grind
  · by_cases hw : b ∈ work
    · have := h₂ b hw hb
      grind
    · grind

/-! ### What the body keeps -/

theorem foldl_step_values (rows : List Row) (s : GroupValue) :
    (rows.foldl v.step s).values.length = s.values.length := by
  induction rows generalizing s with
  | nil => rfl
  | cons row rows ih =>
    rw [List.foldl_cons, ih]
    exact v.runtime.values_length s.values s.maps row

theorem value_values_length (work : Chain Row) :
    (v.value work).values.length = v.defaultState.length := foldl_step_values _ _

theorem foldl_applyTo_of_ne {ops : List MapOp} {k : MapKey} (h : ∀ op ∈ ops, op.key ≠ k)
    (maps : MapKey → Option Value) : ops.foldl MapOp.applyTo maps k = maps k := by
  induction ops generalizing maps with
  | nil => rfl
  | cons op ops ih =>
    rw [List.foldl_cons, ih fun op' hop' => h op' (List.mem_cons_of_mem op hop')]
    have hne : k ≠ op.key := (h op (by simp)).symm
    cases op with
    | set key value => exact Function.update_of_ne hne _ _
    | remove key => exact Function.update_of_ne hne _ _

/-- Only MAP fields that the reducer has hold entries. -/
theorem value_maps_lt (work : Chain Row) {k : MapKey} (h : (v.value work).maps k ≠ none) :
    k.1.toNat < v.mapFields := by
  by_contra hk
  apply h
  have hfold : ∀ (rows : List Row) (s : GroupValue), s.maps k = none →
      (rows.foldl v.step s).maps k = none := by
    intro rows
    induction rows with
    | nil => exact fun s hs => hs
    | cons row rows ih =>
      intro s hs
      apply ih
      refine (foldl_applyTo_of_ne ?_ s.maps).trans hs
      intro op hop heq
      have := v.runtime.maps_mem s.values s.maps row op hop
      rw [heq] at this
      exact hk this
  exact hfold _ _ rfl

end ReducerShape

/-! ## MAP entries -/

namespace StateMaps

variable {m : StateMaps} {k : MapKey} {p : BlockNumber} {cut : Nat}

/-- The changes of one entry. -/
def entryLog (m : StateMaps) (k : MapKey) : List (Nat × Option Value) :=
  (m.undo.filter (·.key = k)).map fun c => (c.block.toNat, c.old)

/-- The value of an entry as of a cut. -/
def entryAsOf (m : StateMaps) (k : MapKey) (cut : Nat) : Option Value :=
  UndoLog.asOf (m.entryLog k) m.entries[k]? cut

/-- The changes are in block order. -/
def Ordered (m : StateMaps) : Prop := m.undo.Pairwise fun a b => a.block ≤ b.block

theorem mem_entryLog {e : Nat × Option Value} (h : e ∈ m.entryLog k) :
    ∃ c ∈ m.undo, c.block.toNat = e.1 := by
  obtain ⟨c, hc, rfl⟩ := List.mem_map.mp h
  exact ⟨c, (List.mem_filter.mp hc).1, rfl⟩

theorem Ordered.sorted_entryLog (h : m.Ordered) (k : MapKey) : UndoLog.Sorted (m.entryLog k) := by
  refine List.pairwise_map.mpr ?_
  exact (h.filter _).imp fun hab => UInt64.le_iff_toNat_le.mp hab

theorem entryAsOf_of_lt (h : ∀ c ∈ m.undo, c.block.toNat < cut) :
    m.entryAsOf k cut = m.entries[k]? := by
  apply UndoLog.asOf_of_lt
  intro e he
  obtain ⟨c, hc, heq⟩ := mem_entryLog he
  rw [← heq]
  exact h c hc

/-- `value_at` reads the entry as of the cut above the block. -/
theorem valueAt_eq (m : StateMaps) (p : BlockNumber) (k : MapKey) :
    m.valueAt p k = m.entryAsOf k (p.toNat + 1) := by
  rw [valueAt, entryAsOf, entryLog]
  induction m.undo with
  | nil => rfl
  | cons c cs ih =>
    rw [List.find?_cons, List.filter_cons]
    by_cases hk : c.key = k
    · rw [if_pos (by simpa using hk), List.map_cons, UndoLog.asOf_cons]
      by_cases hp : p < c.block
      · have := UInt64.lt_iff_toNat_lt.mp hp
        simp [hp, hk, this]
      · have : ¬ p.toNat + 1 ≤ c.block.toNat := by
          have := mt UInt64.lt_iff_toNat_lt.mpr hp
          omega
        simpa [hp, this] using ih
    · have hno : (decide (p < c.block) && c.key == k) = false := by simp [hk]
      rw [if_neg (by simpa using hk), hno]
      exact ih

/-! ### A change -/

/-- A change either does nothing, or replaces one entry and logs what it replaced. -/
theorem applyOp_cases (m : StateMaps) (op : MapOp) :
    (m.applyOp op).block = m.block ∧ (m.applyOp op).unsaved = m.unsaved ∧
    (∀ k, (m.applyOp op).entries[k]? = op.applyTo (m.entries[·]?) k) ∧
    ((m.applyOp op).undo = m.undo ∧ (m.applyOp op).entries = m.entries ∨
      (m.applyOp op).undo = m.undo ++ [⟨m.block, op.key, m.entries[op.key]?⟩]) := by
  have hremove : ∀ key, (m.remove key).block = m.block ∧ (m.remove key).unsaved = m.unsaved ∧
      (∀ k, (m.remove key).entries[k]? = Function.update (m.entries[·]?) key none k) ∧
      ((m.remove key).undo = m.undo ∧ (m.remove key).entries = m.entries ∨
        (m.remove key).undo = m.undo ++ [⟨m.block, key, m.entries[key]?⟩]) := by
    intro key
    rw [remove]
    split
    · next h =>
      refine ⟨rfl, rfl, fun k => ?_, .inl ⟨rfl, rfl⟩⟩
      by_cases hk : k = key
      · subst hk
        simp [h]
      · simp [hk]
    · next old h =>
      refine ⟨rfl, rfl, fun k => ?_, .inr (by simp [log, h])⟩
      by_cases hk : k = key
      · subst hk
        simp [log]
      · simp [log, hk, ExtTreeMap.getElem?_erase, Ne.symm hk]
  cases op with
  | remove key => exact hremove key
  | set key value =>
    show (m.set key value).block = _ ∧ _
    by_cases hnull : value.isNull
    · have hset : m.applyOp (.set key value) = m.remove key := by simp [applyOp, set, hnull]
      have happly : (MapOp.set key value).applyTo (m.entries[·]?)
          = Function.update (m.entries[·]?) key none := by simp [MapOp.applyTo, hnull]
      have hset' : m.set key value = m.remove key := hset
      rw [hset, happly, hset']
      exact hremove key
    · have hset : m.applyOp (.set key value)
          = { m with entries := m.entries.insert key value }.log key m.entries[key]? := by
        simp [applyOp, set, hnull]
      rw [hset, show m.set key value = m.applyOp (.set key value) from rfl, hset]
      refine ⟨rfl, rfl, fun k => ?_, .inr rfl⟩
      by_cases hk : k = key
      · subst hk
        simp [log, MapOp.applyTo, hnull]
      · simp [log, MapOp.applyTo, hk, ExtTreeMap.getElem?_insert, Ne.symm hk]

/-- What a run of the body does to the MAP fields. -/
theorem foldl_applyOp (ops : List MapOp) (m : StateMaps) :
    (ops.foldl applyOp m).block = m.block ∧ (ops.foldl applyOp m).unsaved = m.unsaved ∧
    (∀ k, (ops.foldl applyOp m).entries[k]? = ops.foldl MapOp.applyTo (m.entries[·]?) k) ∧
    (∀ c ∈ (ops.foldl applyOp m).undo, c ∈ m.undo ∨ c.block = m.block) ∧
    (m.Ordered → (∀ c ∈ m.undo, c.block ≤ m.block) → (ops.foldl applyOp m).Ordered) ∧
    ((∀ c ∈ m.undo, c.block ≤ m.block) → ∀ k cut, cut ≤ m.block.toNat →
      (ops.foldl applyOp m).entryAsOf k cut = m.entryAsOf k cut) := by
  induction ops generalizing m with
  | nil => exact ⟨rfl, rfl, fun _ => rfl, fun c hc => .inl hc, fun h _ => h, fun _ _ _ _ => rfl⟩
  | cons op ops ih =>
    obtain ⟨hblock, hunsaved, hentries, hundo⟩ := m.applyOp_cases op
    obtain ⟨ihb, ihu, ihe, ihc, iho, iha⟩ := ih (m.applyOp op)
    simp only [List.foldl_cons]
    have hmem : ∀ c ∈ (m.applyOp op).undo, c ∈ m.undo ∨ c.block = m.block := by
      intro c hc
      rcases hundo with ⟨h, -⟩ | h
      · exact .inl (h ▸ hc)
      · rw [h, List.mem_append, List.mem_singleton] at hc
        rcases hc with hc | rfl
        · exact .inl hc
        · exact .inr rfl
    have hle : (∀ c ∈ m.undo, c.block ≤ m.block) →
        ∀ c ∈ (m.applyOp op).undo, c.block ≤ (m.applyOp op).block := by
      intro h c hc
      rw [hblock]
      rcases hmem c hc with hc | hc
      · exact h c hc
      · rw [hc]
        exact UInt64.le_refl _
    refine ⟨ihb.trans hblock, ihu.trans hunsaved, ?_, ?_, ?_, ?_⟩
    · intro k
      rw [ihe k]
      have hfun : (fun k' => (m.applyOp op).entries[k']?) = op.applyTo (m.entries[·]?) :=
        funext hentries
      rw [hfun]
    · intro c hc
      rcases ihc c hc with hc | hc
      · exact hmem c hc
      · exact .inr (hc.trans hblock)
    · intro ho h
      refine iho ?_ (hle h)
      rcases hundo with ⟨hu, -⟩ | hu
      · rw [Ordered, hu]
        exact ho
      · rw [Ordered, hu]
        refine List.pairwise_append.mpr ⟨ho, List.pairwise_singleton _ _, ?_⟩
        intro c hc c' hc'
        obtain rfl := List.mem_singleton.mp hc'
        exact h c hc
    · intro h k cut hcut
      rw [iha (hle h) k cut (by rw [hblock]; exact hcut)]
      rcases hundo with ⟨hu, he⟩ | hu
      · rw [entryAsOf, entryAsOf, entryLog, entryLog, hu, he]
      · rw [entryAsOf, entryAsOf, entryLog, entryLog, hu, List.filter_append, List.map_append]
        by_cases hk : op.key = k
        · rw [List.filter_cons_of_pos (by simpa using hk), List.filter_nil, List.map_singleton, hk,
            UndoLog.asOf_push, if_pos hcut]
          intro e he
          obtain ⟨c, hc, heq⟩ := mem_entryLog he
          rw [← heq]
          exact UInt64.le_iff_toNat_le.mp (h c hc)
        · rw [List.filter_cons_of_neg (by simpa using hk), List.filter_nil, List.map_nil,
            List.append_nil, hentries k]
          congr 1
          cases op with
          | set key value => exact Function.update_of_ne (Ne.symm hk) _ _
          | remove key => exact Function.update_of_ne (Ne.symm hk) _ _

/-! ### Rollback and finality -/

theorem getElem?_undoChange (entries : FxHashMap MapKey Value) (c : MapChange) (k : MapKey) :
    (undoChange entries c)[k]? = if c.key = k then c.old else entries[k]? := by
  rw [undoChange]
  split
  · next old h => rw [ExtTreeMap.getElem?_insert]; simp [h]
  · next h => rw [ExtTreeMap.getElem?_erase]; simp [h]

/-- The loop takes back the changes above the fork point, and leaves each entry as of there. -/
theorem rollbackLoop_spec (p : BlockNumber) (undo : List MapChange)
    (ho : undo.Pairwise fun a b => a.block ≤ b.block) (entries : FxHashMap MapKey Value) :
    (rollbackLoop p undo.reverse entries).1.reverse = undo.filter (·.block ≤ p) ∧
    ∀ k, (rollbackLoop p undo.reverse entries).2[k]?
      = UndoLog.asOf ((undo.filter (·.key = k)).map fun c => (c.block.toNat, c.old))
          entries[k]? (p.toNat + 1) := by
  induction undo using List.reverseRecOn generalizing entries with
  | nil => exact ⟨rfl, fun _ => rfl⟩
  | append_singleton l c ih =>
    obtain ⟨hl, -, hlt⟩ := List.pairwise_append.mp ho
    rw [List.reverse_append, List.reverse_singleton, List.singleton_append, rollbackLoop]
    by_cases hp : p < c.block
    · have hp' := UInt64.lt_iff_toNat_lt.mp hp
      obtain ⟨ih₁, ih₂⟩ := ih hl (undoChange entries c)
      rw [if_pos hp]
      refine ⟨?_, fun k => ?_⟩
      · rw [ih₁, List.filter_append, List.filter_cons_of_neg (by simpa using hp)]
        simp
      · rw [ih₂ k, getElem?_undoChange, List.filter_append, List.map_append, UndoLog.asOf_append]
        by_cases hk : c.key = k
        · rw [if_pos hk, List.filter_cons_of_pos (by simpa using hk), List.filter_nil,
            List.map_singleton, UndoLog.asOf_cons, if_pos (by simpa using hp')]
        · rw [if_neg hk, List.filter_cons_of_neg (by simpa using hk)]
          rfl
    · rw [if_neg hp]
      have hall : ∀ c' ∈ l ++ [c], c'.block ≤ p := by
        intro c' hc'
        rcases List.mem_append.mp hc' with hc' | hc'
        · have := hlt c' hc' c (by simp)
          have := UInt64.not_lt.mp hp
          grind
        · obtain rfl := List.mem_singleton.mp hc'
          exact UInt64.not_lt.mp hp
      refine ⟨?_, fun k => ?_⟩
      · rw [List.reverse_cons, List.reverse_reverse, List.filter_eq_self.mpr]
        intro c' hc'
        simpa using hall c' hc'
      · rw [UndoLog.asOf_of_lt]
        intro e he
        obtain ⟨c', hc', rfl⟩ := List.mem_map.mp he
        have := UInt64.le_iff_toNat_le.mp (hall c' (List.mem_filter.mp hc').1)
        show c'.block.toNat < p.toNat + 1
        omega

theorem Ordered.undo_rollback (h : m.Ordered) (p : BlockNumber) :
    (m.rollback p).undo = m.undo.filter (·.block ≤ p) := (rollbackLoop_spec p m.undo h m.entries).1

/-- **After a rollback every cut sees what the lower of it and the fork point saw.** -/
theorem Ordered.entryAsOf_rollback (h : m.Ordered) (p : BlockNumber) (k : MapKey) (cut : Nat) :
    (m.rollback p).entryAsOf k cut = m.entryAsOf k (min (p.toNat + 1) cut) := by
  have hentry : (m.rollback p).entries[k]? = m.entryAsOf k (p.toNat + 1) :=
    (rollbackLoop_spec p m.undo h m.entries).2 k
  have hlog : (m.rollback p).entryLog k = (m.entryLog k).filter fun e => e.1 < p.toNat + 1 := by
    rw [entryLog, h.undo_rollback, entryLog, List.filter_map, List.filter_filter,
      List.filter_filter]
    congr 2
    funext c
    simp only [Function.comp_apply, UInt64.le_iff_toNat_le, Nat.lt_succ_iff, Bool.and_comm]
  rw [entryAsOf, hlog, hentry]
  exact UndoLog.asOf_rollback (h.sorted_entryLog k)

/-- In a journal in block order, the changes up to a block come first. -/
theorem span_block_le {undo : List MapChange}
    (h : undo.Pairwise fun a b => a.block ≤ b.block) (p : BlockNumber) :
    undo.takeWhile (·.block ≤ p) = undo.filter (·.block ≤ p) ∧
    undo.dropWhile (·.block ≤ p) = undo.filter (p < ·.block) := by
  induction undo with
  | nil => exact ⟨rfl, rfl⟩
  | cons c cs ih =>
    obtain ⟨hle, hcs⟩ := List.pairwise_cons.mp h
    obtain ⟨ih₁, ih₂⟩ := ih hcs
    by_cases hp : c.block ≤ p
    · rw [List.takeWhile_cons_of_pos (by simpa using hp),
        List.dropWhile_cons_of_pos (by simpa using hp),
        List.filter_cons_of_pos (by simpa using hp),
        List.filter_cons_of_neg (by simpa using hp), ih₁, ih₂]
      exact ⟨rfl, rfl⟩
    · rw [List.takeWhile_cons_of_neg (by simpa using hp),
        List.dropWhile_cons_of_neg (by simpa using hp)]
      have hall : ∀ c' ∈ c :: cs, p < c'.block := by
        intro c' hc'
        have hc : p < c.block := UInt64.not_le.mp hp
        rcases List.mem_cons.mp hc' with rfl | hc'
        · exact hc
        · have := hle c' hc'
          grind
      refine ⟨?_, ?_⟩
      · rw [eq_comm, List.filter_eq_nil_iff]
        intro c' hc'
        simpa using hall c' hc'
      · rw [List.filter_eq_self.mpr]
        intro c' hc'
        simpa using hall c' hc'

theorem Ordered.undo_finalize (h : m.Ordered) (p : BlockNumber) :
    (m.finalize p).undo = m.undo.filter (p < ·.block) := (span_block_le h p).2

theorem Ordered.mem_unsaved_finalize (h : m.Ordered) (p : BlockNumber) (k : MapKey) :
    k ∈ (m.finalize p).unsaved ↔ k ∈ m.unsaved ∨ ∃ c ∈ m.undo, c.block ≤ p ∧ c.key = k := by
  show k ∈ (m.undo.takeWhile _).foldl _ _ ↔ _
  rw [(span_block_le h p).1, ← List.foldl_map, OrdMap.mem_foldl_insert, or_comm]
  simp only [List.mem_map, List.mem_filter, decide_eq_true_eq, and_assoc]

/-- Finality changes nothing for the cuts that see no change at or below it. -/
theorem Ordered.entryAsOf_finalize (h : m.Ordered) (p : BlockNumber) (k : MapKey)
    (hcut : ∀ c ∈ m.undo, c.block ≤ p → c.block.toNat < cut) :
    (m.finalize p).entryAsOf k cut = m.entryAsOf k cut := by
  have hlog : (m.finalize p).entryLog k = (m.entryLog k).filter fun e => p.toNat + 1 ≤ e.1 := by
    rw [entryLog, h.undo_finalize, entryLog, List.filter_map, List.filter_filter,
      List.filter_filter]
    congr 2
    funext c
    simp only [Function.comp_apply, UInt64.lt_iff_toNat_lt, Nat.succ_le_iff, Bool.and_comm]
  rw [entryAsOf, hlog]
  show UndoLog.asOf _ m.entries[k]? cut = _
  apply UndoLog.asOf_purge
  intro e he hlt
  obtain ⟨c, hc, heq⟩ := mem_entryLog he
  rw [← heq] at hlt ⊢
  exact hcut c hc (UInt64.le_iff_toNat_le.mpr (by omega))

end StateMaps

end Settle
