import Settle.Engine.ReducerStore
import Settle.Runtime.MapFields

/-!
# MAP state fields against copies

What the MAP fields of a group are for: `Copies` keeps a full copy of the maps after each block
that changed them, and takes a block back by dropping its copy. A run of `begin`, `set`, `remove`,
`rollback`, `finalize` and `write_checkpoint` acts on the data of `src/reducer_runtime/map.rs` and
on the copies at once, and **the entries are those of the newest copy, and storage has those of the
copy at finality** (`maps_are_copies`).
-/

namespace Settle

open Std

/-! ## The model -/

/-- The maps of a group, as a function. -/
abbrev MapsAt := MapKey → Option Value

/-- Whether an operation changes an entry: a set of a value, and a removal of one that is there. -/
def MapOp.changes (maps : MapsAt) : MapOp → Bool
  | .set key value => !value.isNull || (maps key).isSome
  | .remove key => (maps key).isSome

structure Copies where
  /-- the maps after each block that changed them -/
  after : BTreeMap BlockNumber MapsAt := ∅
  /-- the block of the changes that come next -/
  block : BlockNumber := 0
  /-- the keys that each block changed, of the blocks not final yet -/
  changed : List (BlockNumber × MapKey) := []
  finality : Option BlockNumber := none
  /-- the keys changed by a block that became final since the last checkpoint -/
  unsaved : List MapKey := []

namespace Copies

/-- The newest copy of the blocks below `cut`. -/
def below (c : Copies) (cut : Nat) : MapsAt :=
  ((c.after.toList.filter fun e => decide (e.1.toNat < cut)).getLast?.map Prod.snd).getD
    fun _ => none

/-- The copy after block `b`, or after the last one before it. -/
def asOf (c : Copies) (b : BlockNumber) : MapsAt := c.below (b.toNat + 1)

/-- The newest copy. -/
def now (c : Copies) : MapsAt := c.asOf BlockNumber.max

/-- The cut above the final blocks. -/
def finalCut (c : Copies) : Nat :=
  match c.finality with
  | none => 0
  | some f => f.toNat + 1

def begin (c : Copies) (block : BlockNumber) : Copies := { c with block := block }

/-- A change of the current block: its copy is the newest one with the change. -/
def applyOp (c : Copies) (op : MapOp) : Copies :=
  if op.changes c.now then
    { c with
      after := c.after.insert c.block (op.applyTo c.now)
      changed := c.changed ++ [(c.block, op.key)] }
  else c

def rollback (c : Copies) (p : BlockNumber) : Copies :=
  { c with
    after := OrdMap.keep c.after (· ≤ p)
    changed := c.changed.filter fun e => decide (e.1 ≤ p) }

def finalize (c : Copies) (f : BlockNumber) : Copies :=
  { c with
    finality := some f
    changed := c.changed.filter fun e => decide (f < e.1)
    unsaved := c.unsaved ++ (c.changed.filter fun e => decide (e.1 ≤ f)).map Prod.snd }

def saved (c : Copies) : Copies := { c with unsaved := [] }

end Copies

/-! ## Runs -/

/-- The maps of one group, their copies, and the store that takes its checkpoints. -/
structure MapsWorld where
  maps : MapFields.Maps
  copies : Copies := {}
  store : Store := {}

/-- One call, for a group of `n` MAP fields of a reducer. A block starts above the blocks that
changed the maps, and a change is one of a block above finality. -/
inductive MapsStep (n : Nat) (reducer : String) (groupKey : List UInt8) :
    MapsWorld → MapsWorld → Prop
  | begin {w} (block : BlockNumber) (hnew : ∀ b ∈ w.copies.after, b ≤ block)
      (hfinal : ∀ f, w.copies.finality = some f → f < block) :
      MapsStep n reducer groupKey w
        { w with maps := w.maps.begin block, copies := w.copies.begin block }
  | set {w} (map : Nat) (key : String) (value : Value) (hmap : map < n)
      (hfinal : ∀ f, w.copies.finality = some f → f < w.copies.block) :
      MapsStep n reducer groupKey w
        { w with
          maps := w.maps.set map key value
          copies := w.copies.applyOp (.set (UInt16.ofNat map, key) value) }
  | remove {w} (map : Nat) (key : String) (hmap : map < n)
      (hfinal : ∀ f, w.copies.finality = some f → f < w.copies.block) :
      MapsStep n reducer groupKey w
        { w with
          maps := w.maps.remove map key
          copies := w.copies.applyOp (.remove (UInt16.ofNat map, key)) }
  | rollback {w} (p : BlockNumber) (hp : ∀ f, w.copies.finality = some f → f ≤ p) :
      MapsStep n reducer groupKey w
        { w with maps := w.maps.rollback p, copies := w.copies.rollback p }
  | finalize {w} (f : BlockNumber) (hmono : ∀ f', w.copies.finality = some f' → f' ≤ f) :
      MapsStep n reducer groupKey w
        { w with maps := w.maps.finalize f, copies := w.copies.finalize f }
  | writeCheckpoint {w} (f : BlockNumber) (hf : w.copies.finality = some f) :
      MapsStep n reducer groupKey w
        { maps := (w.maps.writeCheckpoint f reducer groupKey).1
          copies := w.copies.saved
          store := w.store.commit (w.maps.writeCheckpoint f reducer groupKey).2 }

/-- The states of a run from empty maps and an empty store. -/
def MapsRun (n : Nat) (reducer : String) (groupKey : List UInt8) (w : MapsWorld) : Prop :=
  Relation.ReflTransGen (MapsStep n reducer groupKey) { maps := MapFields.Maps.new n } w

/-! ## Copies -/

namespace Copies

variable {c : Copies}

/-- A copy that is the newest one shows above its block. -/
theorem below_insert {b : BlockNumber} (h : ∀ b' ∈ c.after, b' ≤ b) (maps : MapsAt) (cut : Nat) :
    { c with after := c.after.insert b maps }.below cut
      = if cut ≤ b.toNat then c.below cut else maps := by
  have hsame : c.after.insert b maps = (OrdMap.keep c.after (· < b)).insert b maps := by
    ext b' r
    have := fun hb => h b' hb
    grind
  have hlist : (c.after.insert b maps).toList
      = c.after.toList.filter (fun e => decide (e.1 < b)) ++ [(b, maps)] := by
    rw [hsame, OrdMap.toList_insert_of_lt fun b' hb' => by grind, OrdMap.toList_keep]
  unfold below
  dsimp only
  rw [hlist, List.filter_append, List.filter_filter]
  by_cases hcut : cut ≤ b.toNat
  · rw [if_pos hcut, List.filter_cons_of_neg (by simpa using hcut), List.filter_nil,
      List.append_nil]
    congr 4
    funext e
    rw [Bool.eq_iff_iff]
    simp only [Bool.and_eq_true, decide_eq_true_eq, UInt64.lt_iff_toNat_lt]
    omega
  · rw [if_neg hcut, List.filter_cons_of_pos (by simpa using hcut), List.filter_nil,
      List.getLast?_concat]
    rfl

theorem below_rollback (c : Copies) (p : BlockNumber) (cut : Nat) :
    (c.rollback p).below cut = c.below (min (p.toNat + 1) cut) := by
  unfold below rollback
  dsimp only
  rw [OrdMap.toList_keep, List.filter_filter]
  congr 4
  funext e
  rw [Bool.eq_iff_iff]
  simp only [Bool.and_eq_true, decide_eq_true_eq, UInt64.le_iff_toNat_le]
  omega

end Copies

namespace StateMaps

variable {m : StateMaps}

theorem applyOp_of_not {op : MapOp} (h : op.changes (m.entries[·]?) = false) :
    m.applyOp op = m := by
  cases op with
  | remove key =>
    have hnone : m.entries[key]? = none := by
      simpa [MapOp.changes, Option.isSome_eq_false_iff, -ExtTreeMap.isSome_getElem?_eq_contains] using h
    simp [applyOp, remove, hnone]
  | set key value =>
    obtain ⟨hnull, hnone⟩ : value.isNull = true ∧ m.entries[key]? = none := by
      simpa [MapOp.changes, Option.isSome_eq_false_iff, -ExtTreeMap.isSome_getElem?_eq_contains]
        using h
    simp [applyOp, set, hnull, remove, hnone]

theorem undo_applyOp {op : MapOp} (h : op.changes (m.entries[·]?) = true) :
    (m.applyOp op).undo = m.undo ++ [⟨m.block, op.key, m.entries[op.key]?⟩] := by
  have hremove : ∀ key, (m.entries[key]?).isSome = true →
      (m.remove key).undo = m.undo ++ [⟨m.block, key, m.entries[key]?⟩] := by
    intro key hsome
    obtain ⟨old, hold⟩ := Option.isSome_iff_exists.mp hsome
    simp [remove, hold, log]
  cases op with
  | remove key => exact hremove key h
  | set key value =>
    by_cases hnull : value.isNull = true
    · have hset : m.applyOp (.set key value) = m.remove key := by simp [applyOp, set, hnull]
      rw [hset]
      apply hremove
      simpa [MapOp.changes, hnull] using h
    · simp [applyOp, set, hnull, log, MapOp.key]

end StateMaps

/-! ## The invariant -/

/-- The stored value of a MAP entry of a group. -/
def Store.mapEntry (s : Store) (reducer : String) (groupKey : List UInt8) (k : MapKey) :
    Option Datum := (s.reducerMaps[(reducer, groupKey)]?.getD ∅)[k]?

/-- The data hold `m`, and `m` as of every cut not below finality is the copy below the cut. -/
structure MapsInv (n : Nat) (reducer : String) (groupKey : List UInt8) (m : StateMaps)
    (w : MapsWorld) : Prop where
  held : MapFields.Represents n w.maps m
  block : m.block = w.copies.block
  newest : ∀ b ∈ w.copies.after, b ≤ w.copies.block
  ordered : m.Ordered
  logged : ∀ c ∈ m.undo, c.block ∈ w.copies.after
  entries : ∀ k cut, w.copies.finalCut ≤ cut → m.entryAsOf k cut = w.copies.below cut k
  changed : m.undo.map (fun c => (c.block, c.key)) = w.copies.changed
  above : ∀ c ∈ m.undo, w.copies.finalCut ≤ c.block.toNat
  unsaved : ∀ k, k ∈ m.unsaved ↔ k ∈ w.copies.unsaved
  fields : ∀ k ∈ m.unsaved, k.1.toNat < n
  noNull : ∀ cut k, w.copies.below cut k ≠ some .null
  stored : ∀ k, k ∉ w.copies.unsaved →
    w.store.mapEntry reducer groupKey k = (w.copies.below w.copies.finalCut k).map Datum.value

namespace MapsInv

variable {n : Nat} {reducer : String} {groupKey : List UInt8} {m : StateMaps} {w : MapsWorld}

theorem finalCut_le (w : MapsWorld) : w.copies.finalCut ≤ BlockNumber.max.toNat + 1 := by
  unfold Copies.finalCut
  split
  · exact Nat.zero_le _
  · next f _ =>
    have := UInt64.le_iff_toNat_le.mp (BlockNumber.le_max f)
    omega

/-- The entries are those of the newest copy. -/
theorem now (h : MapsInv n reducer groupKey m w) : (fun k => m.entries[k]?) = w.copies.now := by
  funext k
  have hall : ∀ c ∈ m.undo, c.block.toNat < BlockNumber.max.toNat + 1 := by
    intro c _
    have := UInt64.le_iff_toNat_le.mp (BlockNumber.le_max c.block)
    omega
  rw [← StateMaps.entryAsOf_of_lt hall, h.entries k _ (finalCut_le w)]
  rfl

theorem undo_le (h : MapsInv n reducer groupKey m w) : ∀ c ∈ m.undo, c.block ≤ m.block := by
  intro c hc
  rw [h.block]
  exact h.newest c.block (h.logged c hc)

/-- A change of an entry. -/
theorem applyOp (h : MapsInv n reducer groupKey m w) {op : MapOp} {maps : MapFields.Maps}
    (hheld : MapFields.Represents n maps (m.applyOp op))
    (hfinal : ∀ f, w.copies.finality = some f → f < w.copies.block) :
    MapsInv n reducer groupKey (m.applyOp op)
      { w with maps := maps, copies := w.copies.applyOp op } := by
  have hnow := h.now
  have hcut : w.copies.finalCut ≤ w.copies.block.toNat := by
    unfold Copies.finalCut
    split
    · exact Nat.zero_le _
    · next f hf => exact UInt64.lt_iff_toNat_lt.mp (hfinal f hf)
  unfold Copies.applyOp
  by_cases hchanges : op.changes w.copies.now = true
  · rw [if_pos hchanges]
    have hlogged : op.changes (m.entries[·]?) = true := by
      rw [hnow]
      exact hchanges
    have hundo := StateMaps.undo_applyOp hlogged
    obtain ⟨hblock, hunsaved, hentries, -⟩ := m.applyOp_cases op
    obtain ⟨-, -, -, hmem, hordered, hbelow⟩ := StateMaps.foldl_applyOp [op] m
    have hbelow := hbelow h.undo_le
    have happly : (fun k => (m.applyOp op).entries[k]?) = op.applyTo w.copies.now := by
      funext k
      rw [hentries k, hnow]
    have hnewest : ∀ b ∈ w.copies.after.insert w.copies.block (op.applyTo w.copies.now),
        b ≤ w.copies.block := by
      intro b hb
      have := h.newest b
      grind
    have hcopy : ∀ cut, ({ w.copies with
          after := w.copies.after.insert w.copies.block (op.applyTo w.copies.now)
          changed := w.copies.changed ++ [(w.copies.block, op.key)] } : Copies).below cut
        = if cut ≤ w.copies.block.toNat then w.copies.below cut else op.applyTo w.copies.now :=
      Copies.below_insert h.newest (op.applyTo w.copies.now)
    refine ⟨hheld, hblock.trans h.block, hnewest, hordered h.ordered h.undo_le, ?_, ?_, ?_, ?_, ?_,
      ?_, ?_, ?_⟩
    · intro c hc
      rw [hundo] at hc
      rcases List.mem_append.mp hc with hc | hc
      · exact ExtTreeMap.mem_insert.mpr (Or.inr (h.logged c hc))
      · rw [List.mem_singleton.mp hc, h.block]
        exact ExtTreeMap.mem_insert_self
    · intro k cut hle
      rw [hcopy]
      split
      · next hc =>
        have hc' : cut ≤ m.block.toNat := by
          rw [h.block]
          exact hc
        rw [← h.entries k cut hle]
        exact hbelow k cut hc'
      · next hc =>
        have hall : ∀ ch ∈ (m.applyOp op).undo, ch.block.toNat < cut := by
          intro ch hch
          have hle' : ch.block ≤ m.block := by
            rcases hmem ch hch with hch | hch
            · exact h.undo_le ch hch
            · rw [hch]
              exact UInt64.le_refl _
          rw [h.block] at hle'
          have := UInt64.le_iff_toNat_le.mp hle'
          omega
        rw [StateMaps.entryAsOf_of_lt hall]
        exact congrFun happly k
    · show (m.applyOp op).undo.map _ = w.copies.changed ++ _
      rw [hundo, List.map_append, h.changed, ← h.block]
      rfl
    · intro c hc
      rw [hundo] at hc
      rcases List.mem_append.mp hc with hc | hc
      · exact h.above c hc
      · rw [List.mem_singleton.mp hc, h.block]
        exact hcut
    · intro k
      rw [hunsaved]
      exact h.unsaved k
    · intro k hk
      rw [hunsaved] at hk
      exact h.fields k hk
    · intro cut k
      rw [hcopy]
      split
      · exact h.noNull cut k
      · have hold : w.copies.now k ≠ some .null := h.noNull _ k
        cases op with
        | remove key =>
          show Function.update w.copies.now key none k ≠ _
          by_cases hk : k = key
          · subst hk
            simp
          · rw [Function.update_of_ne hk]
            exact hold
        | set key value =>
          show Function.update w.copies.now key _ k ≠ _
          by_cases hk : k = key
          · subst hk
            rw [Function.update_self]
            split
            · simp
            · next hnull =>
              intro heq
              cases heq
              exact hnull rfl
          · rw [Function.update_of_ne hk]
            exact hold
    · intro k hk
      show w.store.mapEntry reducer groupKey k = (Copies.below _ w.copies.finalCut k).map _
      rw [h.stored k hk, hcopy, if_pos hcut]
  · rw [if_neg hchanges]
    have hsame : m.applyOp op = m := by
      apply StateMaps.applyOp_of_not
      rw [hnow]
      exact Bool.eq_false_iff.mpr hchanges
    rw [hsame] at hheld ⊢
    exact ⟨hheld, h.block, h.newest, h.ordered, h.logged, h.entries, h.changed, h.above, h.unsaved,
      h.fields, h.noNull, h.stored⟩

theorem begin (h : MapsInv n reducer groupKey m w) {block : BlockNumber}
    (hnew : ∀ b ∈ w.copies.after, b ≤ block) :
    MapsInv n reducer groupKey (m.begin block)
      { w with maps := w.maps.begin block, copies := w.copies.begin block } :=
  ⟨h.held.begin block, rfl, hnew, h.ordered, h.logged, h.entries, h.changed, h.above, h.unsaved,
    h.fields, h.noNull, h.stored⟩

theorem rollback (h : MapsInv n reducer groupKey m w) {p : BlockNumber}
    (hp : ∀ f, w.copies.finality = some f → f ≤ p) :
    MapsInv n reducer groupKey (m.rollback p)
      { w with maps := w.maps.rollback p, copies := w.copies.rollback p } := by
  have hundo := h.ordered.undo_rollback p
  have hmem : ∀ c ∈ (m.rollback p).undo, c ∈ m.undo ∧ c.block ≤ p := by
    intro c hc
    rw [hundo] at hc
    simpa using List.mem_filter.mp hc
  have hcut : w.copies.finalCut ≤ p.toNat + 1 := by
    unfold Copies.finalCut
    split
    · exact Nat.zero_le _
    · next f hf =>
      have := UInt64.le_iff_toNat_le.mp (hp f hf)
      omega
  refine ⟨h.held.rollback p, h.block, ?_, ?_, ?_, ?_, ?_, ?_, h.unsaved, h.fields, ?_, ?_⟩
  · intro b hb
    exact h.newest b ((OrdMap.mem_keep _ _ _).mp hb).1
  · rw [StateMaps.Ordered, hundo]
    exact h.ordered.filter _
  · intro c hc
    obtain ⟨hc, hle⟩ := hmem c hc
    exact (OrdMap.mem_keep _ _ _).mpr ⟨h.logged c hc, by simpa using hle⟩
  · intro k cut hle
    have hle : w.copies.finalCut ≤ cut := hle
    rw [h.ordered.entryAsOf_rollback, Copies.below_rollback]
    exact h.entries k _ (by omega)
  · show (m.rollback p).undo.map _ = w.copies.changed.filter _
    rw [hundo, ← h.changed, List.filter_map]
    rfl
  · intro c hc
    exact h.above c (hmem c hc).1
  · intro cut k
    rw [Copies.below_rollback]
    exact h.noNull _ k
  · intro k hk
    show w.store.mapEntry reducer groupKey k
      = ((w.copies.rollback p).below w.copies.finalCut k).map Datum.value
    rw [Copies.below_rollback, Nat.min_eq_right hcut]
    exact h.stored k hk

theorem finalize (h : MapsInv n reducer groupKey m w) {f : BlockNumber}
    (hmono : ∀ f', w.copies.finality = some f' → f' ≤ f) :
    MapsInv n reducer groupKey (m.finalize f)
      { w with maps := w.maps.finalize f, copies := w.copies.finalize f } := by
  have hundo := h.ordered.undo_finalize f
  have hunsaved := h.ordered.mem_unsaved_finalize f
  have hmem : ∀ c ∈ (m.finalize f).undo, c ∈ m.undo ∧ f < c.block := by
    intro c hc
    rw [hundo] at hc
    simpa using List.mem_filter.mp hc
  have hcut : w.copies.finalCut ≤ f.toNat + 1 := by
    unfold Copies.finalCut
    split
    · exact Nat.zero_le _
    · next f' hf' =>
      have := UInt64.le_iff_toNat_le.mp (hmono f' hf')
      omega
  have hnewly : ∀ k, k ∈ (w.copies.changed.filter fun e => decide (e.1 ≤ f)).map Prod.snd ↔
      ∃ c ∈ m.undo, c.block ≤ f ∧ c.key = k := by
    intro k
    rw [← h.changed]
    simp only [List.mem_map, List.mem_filter, decide_eq_true_eq]
    constructor
    · intro hk
      obtain ⟨e, ⟨⟨c, hc, rfl⟩, hle⟩, rfl⟩ := hk
      exact ⟨c, hc, hle, rfl⟩
    · intro hk
      obtain ⟨c, hc, hle, rfl⟩ := hk
      exact ⟨(c.block, c.key), ⟨⟨c, hc, rfl⟩, hle⟩, rfl⟩
  refine ⟨h.held.finalize f, h.block, h.newest, ?_, ?_, ?_, ?_, ?_, ?_, ?_, h.noNull, ?_⟩
  · rw [StateMaps.Ordered, hundo]
    exact h.ordered.filter _
  · intro c hc
    exact h.logged c (hmem c hc).1
  · intro k cut hle
    have hle : f.toNat + 1 ≤ cut := hle
    rw [h.ordered.entryAsOf_finalize f k fun c _ hc => by
      have := UInt64.le_iff_toNat_le.mp hc
      omega]
    exact h.entries k cut (Nat.le_trans hcut hle)
  · show (m.finalize f).undo.map _ = w.copies.changed.filter _
    rw [hundo, ← h.changed, List.filter_map]
    rfl
  · intro c hc
    show f.toNat + 1 ≤ c.block.toNat
    exact UInt64.lt_iff_toNat_lt.mp (hmem c hc).2
  · intro k
    rw [hunsaved k, h.unsaved k]
    show _ ↔ k ∈ w.copies.unsaved ++ _
    rw [List.mem_append, hnewly k]
  · intro k hk
    rcases (hunsaved k).mp hk with hk | ⟨c, hc, -, rfl⟩
    · exact h.fields k hk
    · exact h.held.changes c hc
  · intro k hk
    show w.store.mapEntry reducer groupKey k = (w.copies.below (f.toNat + 1) k).map Datum.value
    have hk : k ∉ w.copies.unsaved ++ _ := hk
    rw [List.mem_append, not_or, hnewly k] at hk
    -- no block that became final changed the key
    have hsame : m.entryAsOf k (f.toNat + 1) = m.entryAsOf k w.copies.finalCut := by
      apply UndoLog.asOf_congr
      intro e he
      obtain ⟨c, hc, rfl⟩ := List.mem_map.mp he
      obtain ⟨hc, hkey⟩ := List.mem_filter.mp hc
      have hab := h.above c hc
      have hnot : ¬ c.block ≤ f := fun hle => hk.2 ⟨c, hc, hle, by simpa using hkey⟩
      have hlt := UInt64.lt_iff_toNat_lt.mp (UInt64.not_le.mp hnot)
      show f.toNat + 1 ≤ c.block.toNat ↔ w.copies.finalCut ≤ c.block.toNat
      omega
    rw [h.stored k hk.1, ← h.entries k _ hcut, ← h.entries k _ (Nat.le_refl _), hsame]

/-- The write of one entry with the value that `maps` has. -/
def mapWrite (reducer : String) (groupKey : List UInt8) (maps : MapsAt) (k : MapKey) :
    BatchOp Datum :=
  match maps k with
  | some value => .putReducerMapEntry reducer groupKey k.1 k.2 (.value value)
  | none => .deleteReducerMapEntry reducer groupKey k.1 k.2

/-- The keys that a checkpoint writes. -/
theorem keys (h : MapsInv n reducer groupKey m w) (hn : n ≤ 2 ^ 16) :
    w.maps.unsaved.keys.Nodup ∧ ∀ k, k ∈ w.maps.unsaved.keys ↔ k ∈ m.unsaved := by
  obtain ⟨hnodup, hmem⟩ := MapFields.Unsaved.keys_spec h.held.sized hn
  exact ⟨hnodup, fun k => (hmem k).trans (h.held.unsaved k)⟩

/-- What a checkpoint writes: each unsaved key as of finality. -/
theorem writes (h : MapsInv n reducer groupKey m w) (hn : n ≤ 2 ^ 16) {f : BlockNumber}
    (hf : w.copies.finality = some f) :
    (w.maps.writeCheckpoint f reducer groupKey).2
      = w.maps.unsaved.keys.map (mapWrite reducer groupKey (w.copies.asOf f)) := by
  have hcut : w.copies.finalCut = f.toNat + 1 := by
    rw [Copies.finalCut, hf]
  apply List.map_congr_left
  intro k hk
  have hk : k ∈ m.unsaved := ((h.keys hn).2 k).mp hk
  have hvalue : w.maps.savedValue f k = w.copies.asOf f k := by
    rw [h.held.savedValue f hk (h.fields k hk), m.valueAt_eq]
    exact h.entries k _ (Nat.le_of_eq hcut)
  rw [hvalue]
  rfl

/-- After a checkpoint storage has the copy at finality. -/
theorem stored_checkpoint (h : MapsInv n reducer groupKey m w) (hn : n ≤ 2 ^ 16) {f : BlockNumber}
    (hf : w.copies.finality = some f) (k : MapKey) :
    (w.store.commit (w.maps.writeCheckpoint f reducer groupKey).2).mapEntry reducer groupKey k
      = (w.copies.asOf f k).map Datum.value := by
  have hcut : w.copies.finalCut = f.toNat + 1 := by
    rw [Copies.finalCut, hf]
  obtain ⟨-, -, hcommit⟩ := StoreRep.commit_mapEntries reducer (k := groupKey) (w.copies.asOf f)
    w.maps.unsaved.keys w.store
  rw [h.writes hn hf]
  refine (hcommit k).trans ?_
  split
  · rfl
  · next hk =>
    have hk : k ∉ w.copies.unsaved := by
      rw [← h.unsaved k, ← (h.keys hn).2 k]
      exact hk
    have hstored := h.stored k hk
    rw [hcut] at hstored
    exact hstored

theorem writeCheckpoint (h : MapsInv n reducer groupKey m w) (hn : n ≤ 2 ^ 16) {f : BlockNumber}
    (hf : w.copies.finality = some f) :
    MapsInv n reducer groupKey (m.writeCheckpoint f).1
      { maps := (w.maps.writeCheckpoint f reducer groupKey).1
        copies := w.copies.saved
        store := w.store.commit (w.maps.writeCheckpoint f reducer groupKey).2 } := by
  have hcut : w.copies.finalCut = f.toNat + 1 := by
    rw [Copies.finalCut, hf]
  have hheld : MapFields.Represents n (w.maps.writeCheckpoint f reducer groupKey).1
      (m.writeCheckpoint f).1 := by
    refine ⟨h.held.count, h.held.entries, h.held.block, h.held.undo, h.held.changes, trivial, ?_⟩
    intro k
    simp [MapFields.Maps.writeCheckpoint, MapFields.Unsaved.contains, StateMaps.writeCheckpoint]
  refine ⟨hheld, h.block, h.newest, h.ordered, h.logged, h.entries, h.changed, h.above, ?_, ?_,
    h.noNull, ?_⟩
  · intro k
    simp [StateMaps.writeCheckpoint, Copies.saved]
  · intro k hk
    simp [StateMaps.writeCheckpoint] at hk
  · intro k _
    show _ = (w.copies.below w.copies.finalCut k).map Datum.value
    rw [hcut]
    exact h.stored_checkpoint hn hf k

theorem new (n : Nat) : MapsInv n reducer groupKey {} { maps := MapFields.Maps.new n } := by
  have hempty : ∀ cut, ({} : Copies).below cut = fun _ => none := by
    intro cut
    have hlist : (∅ : BTreeMap BlockNumber MapsAt).toList = [] := rfl
    unfold Copies.below
    rw [hlist]
    rfl
  refine ⟨MapFields.Represents.new n, rfl, ?_, List.Pairwise.nil, ?_, ?_, rfl, ?_, ?_, ?_, ?_, ?_⟩
  · intro b hb
    simp at hb
  · intro c hc
    cases hc
  · intro k cut _
    show UndoLog.asOf [] (∅ : FxHashMap MapKey Value)[k]? cut = ({} : Copies).below cut k
    rw [hempty, UndoLog.asOf_nil]
    simp
  · intro c hc
    cases hc
  · intro k
    simp
  · intro k hk
    simp at hk
  · intro cut k
    show ({} : Copies).below cut k ≠ _
    rw [hempty]
    simp
  · intro k _
    show ({} : Store).mapEntry reducer groupKey k = (({} : Copies).below 0 k).map _
    rw [hempty]
    simp [Store.mapEntry]

/-- **Every call keeps the invariant.** -/
theorem step (hn : n ≤ 2 ^ 16) (h : MapsInv n reducer groupKey m w) {w' : MapsWorld}
    (hs : MapsStep n reducer groupKey w w') : ∃ m', MapsInv n reducer groupKey m' w' := by
  have hfield : ∀ {map : Nat}, map < n → (UInt16.ofNat map).toNat = map := by
    intro map hmap
    rw [UInt16.toNat_ofNat', Nat.mod_eq_of_lt (by omega)]
  cases hs with
  | begin block hnew hfinal => exact ⟨_, h.begin hnew⟩
  | set map key value hmap hfinal =>
    have hid := hfield hmap
    have hlt : (UInt16.ofNat map).toNat < n := by rwa [hid]
    have hheld : MapFields.Represents n (w.maps.set (UInt16.ofNat map).toNat key value)
        (m.applyOp (.set (UInt16.ofNat map, key) value)) := h.held.set hlt key value
    rw [hid] at hheld
    exact ⟨_, h.applyOp hheld hfinal⟩
  | remove map key hmap hfinal =>
    have hid := hfield hmap
    have hlt : (UInt16.ofNat map).toNat < n := by rwa [hid]
    have hheld : MapFields.Represents n (w.maps.remove (UInt16.ofNat map).toNat key)
        (m.applyOp (.remove (UInt16.ofNat map, key))) := h.held.remove hlt key
    rw [hid] at hheld
    exact ⟨_, h.applyOp hheld hfinal⟩
  | rollback p hp => exact ⟨_, h.rollback hp⟩
  | finalize f hmono => exact ⟨_, h.finalize hmono⟩
  | writeCheckpoint f hf => exact ⟨_, h.writeCheckpoint hn hf⟩

theorem of_run (hn : n ≤ 2 ^ 16) (hr : MapsRun n reducer groupKey w) :
    ∃ m, MapsInv n reducer groupKey m w := by
  induction hr with
  | refl => exact ⟨_, MapsInv.new n⟩
  | tail _ hs ih =>
    obtain ⟨m, h⟩ := ih
    exact h.step hn hs

end MapsInv

/-! ## The maps are the copies -/

/-- **MAP state is a copy per block.** In every state of a run with at most 2¹⁶ MAP fields, the
entries are those of the newest copy, and none is Null; a checkpoint writes each key changed by a
block that became final since the last one exactly once, with its value in the copy at finality;
and it leaves the copy at finality in storage. -/
theorem maps_are_copies {n : Nat} {reducer : String} {groupKey : List UInt8} {w : MapsWorld}
    (hn : n ≤ 2 ^ 16) (hr : MapsRun n reducer groupKey w) :
    (∀ map < n, ∀ key, w.maps.get map key = w.copies.now (UInt16.ofNat map, key)) ∧
    (∀ map < n, ∀ key, w.maps.get map key ≠ some .null) ∧
    ∀ f, w.copies.finality = some f →
      (∃ keys : List MapKey, keys.Nodup ∧ (∀ k, k ∈ keys ↔ k ∈ w.copies.unsaved) ∧
        (w.maps.writeCheckpoint f reducer groupKey).2
          = keys.map (MapsInv.mapWrite reducer groupKey (w.copies.asOf f))) ∧
      ∀ k, (w.store.commit (w.maps.writeCheckpoint f reducer groupKey).2).mapEntry reducer
          groupKey k = (w.copies.asOf f k).map Datum.value := by
  obtain ⟨m, h⟩ := MapsInv.of_run hn hr
  have hget : ∀ map < n, ∀ key, w.maps.get map key = w.copies.now (UInt16.ofNat map, key) := by
    intro map hmap key
    have hid : (UInt16.ofNat map).toNat = map := by
      rw [UInt16.toNat_ofNat', Nat.mod_eq_of_lt (by omega)]
    have hentry := h.held.entries (UInt16.ofNat map, key) (by rw [hid]; exact hmap)
    rw [hid] at hentry
    rw [hentry, ← h.now]
  refine ⟨hget, ?_, ?_⟩
  · intro map hmap key
    rw [hget map hmap key]
    exact h.noNull _ _
  · intro f hf
    obtain ⟨hnodup, hkeys⟩ := h.keys hn
    refine ⟨⟨w.maps.unsaved.keys, hnodup, fun k => (hkeys k).trans (h.unsaved k), ?_⟩, ?_⟩
    · exact h.writes hn hf
    · exact h.stored_checkpoint hn hf

/-! ### One entry -/

/-- An operation changes the copy of the current block at most. -/
theorem Copies.applyOp_frame (c : Copies) (op : MapOp) :
    (c.applyOp op).finality = c.finality ∧ (c.applyOp op).block = c.block ∧
      ∀ b ∈ (c.applyOp op).after, b ∈ c.after ∨ b = c.block := by
  rw [applyOp]
  split
  · refine ⟨rfl, rfl, fun b hb => ?_⟩
    rcases Std.ExtTreeMap.mem_insert.mp hb with hb | hb
    · exact .inr (Std.LawfulEqCmp.eq_of_compare hb).symm
    · exact .inl hb
  · exact ⟨rfl, rfl, fun b hb => .inl hb⟩

/-- The copies after block 1 set an entry, with block 1 final and stored, and block 2 under way. -/
def oneEntryFinal : Copies :=
  ((((({} : Copies).begin 1).applyOp (.set (0, "k") (.uint64 5))).finalize 1).saved).begin 2

/-- One MAP field: block 1 sets an entry, and is final and stored; block 2 removes the entry and is
rolled back. -/
def oneEntry : MapsWorld where
  maps := (((((((MapFields.Maps.new 1).begin 1).set 0 "k" (.uint64 5)).finalize 1).writeCheckpoint 1
    "r" []).1.begin 2).remove 0 "k").rollback 1
  copies := (oneEntryFinal.applyOp (.remove (0, "k"))).rollback 1
  store := ({} : Store).commit (((((MapFields.Maps.new 1).begin 1).set 0 "k"
    (.uint64 5)).finalize 1).writeCheckpoint 1 "r" []).2

theorem oneEntry_run : MapsRun 1 "r" [] oneEntry := by
  obtain ⟨hfinality, -, hafter⟩ := (({} : Copies).begin 1).applyOp_frame (.set (0, "k") (.uint64 5))
  have hbegin : MapsRun 1 "r" [] _ := .single (.begin 1 (by simp) (by simp))
  have hset := hbegin.tail (.set 0 "k" (.uint64 5) (by decide) (by simp [Copies.begin]))
  have hfinal := hset.tail (.finalize 1 (by
    intro f hf
    have hnone : none = some f := hfinality.symm.trans hf
    cases hnone))
  have hstored := hfinal.tail (.writeCheckpoint 1 rfl)
  have hnext := hstored.tail (.begin 2
    (by
      intro b hb
      rcases hafter b hb with hb | rfl
      · exact absurd hb Std.ExtTreeMap.not_mem_empty
      · decide)
    (by
      intro f hf
      obtain rfl := Option.some.inj hf
      decide))
  have hremove := hnext.tail (.remove 0 "k" (by decide) (by
    intro f hf
    obtain rfl := Option.some.inj hf
    decide))
  obtain ⟨hfinality, -, -⟩ := oneEntryFinal.applyOp_frame (.remove (0, "k"))
  refine hremove.tail (.rollback 1 ?_)
  intro f hf
  have hsome : some 1 = some f := hfinality.symm.trans hf
  obtain rfl := Option.some.inj hsome
  exact UInt64.le_refl 1

theorem maps_are_copies_oneEntry : MapsRun 1 "r" [] oneEntry ∧
    oneEntry.maps.get 0 "k" = some (.uint64 5) ∧
    oneEntry.maps.get 0 "k" = oneEntry.copies.now (0, "k") ∧
    (oneEntry.store.commit (oneEntry.maps.writeCheckpoint 1 "r" []).2).mapEntry "r" [] (0, "k")
      = (oneEntry.copies.asOf 1 (0, "k")).map Datum.value :=
  have hall := maps_are_copies (by decide) oneEntry_run
  ⟨oneEntry_run, by decide +kernel, hall.1 0 (by decide) "k", (hall.2.2 1 rfl).2 (0, "k")⟩

/-- A rollback looks for a change of a field whose index is cut to 0 in field 0, and leaves it. -/
theorem get_rollback_field {entries : List (FxHashMap String Value)} {map : Nat}
    (hmap : map < entries.length) (hcut : UInt16.ofNat map = 0) (hne : 0 ≠ map)
    (hnone : ({ entries } : MapFields.Maps).get map "k" = none) :
    (((({ entries } : MapFields.Maps).begin 1).set map "k" (.uint64 5)).rollback 0).get map "k"
      = some (.uint64 5) := by
  have hset : (({ entries } : MapFields.Maps).begin 1).set map "k" (.uint64 5)
      = { entries := entries.modify map (·.insert "k" (.uint64 5))
          block := 1
          undo := .one ⟨1, (UInt16.ofNat map, "k"), none⟩ } := by
    show MapFields.Maps.log _ _ _ (({ entries } : MapFields.Maps).get map "k") = _
    rw [hnone]
    rfl
  rw [hcut] at hset
  have hroll : ((({ entries } : MapFields.Maps).begin 1).set map "k" (.uint64 5)).rollback 0
      = { entries := (entries.modify map (·.insert "k" (.uint64 5))).modify 0 (·.erase "k")
          block := 1
          undo := .empty } := by
    rw [hset]
    rfl
  rw [hroll]
  unfold MapFields.Maps.get
  dsimp only
  rw [List.getElem?_modify, List.getElem?_modify, List.getElem?_eq_getElem hmap]
  simp [hne]

/-- More MAP fields than a `u16` counts: the change of field 2¹⁶ is not rolled back. -/
theorem rollback_misses_field :
    (MapFields.Maps.new 65537).get 65536 "k" = none ∧
    ((((MapFields.Maps.new 65537).begin 1).set 65536 "k" (.uint64 5)).rollback 0).get 65536 "k"
      = some (.uint64 5) := by
  have hnone : (MapFields.Maps.new 65537).get 65536 "k" = none := by
    unfold MapFields.Maps.get MapFields.Maps.new
    rw [List.getElem?_replicate, if_pos (by decide)]
    simp
  refine ⟨hnone, ?_⟩
  apply get_rollback_field _ (by decide) (by decide) hnone
  rw [List.length_replicate]
  decide

end Settle
