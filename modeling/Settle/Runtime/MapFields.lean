import Settle.Runtime.StateMaps
import Settle.Storage.Batch

/-!
# The representation of MAP state fields

`src/reducer_runtime/map.rs` as it stores its data: the entries of each MAP field in a map of their
own, a `Journal` and an `Unsaved` that keep a single element inline, and the index of a MAP field
cut to a `u16` in both. `Represents` says how they hold a `StateMaps`; **each operation keeps it**
as long as there are at most 2¹⁶ MAP fields, the number of columns that a registry may have.
-/

namespace Settle

open Std

namespace MapFields

/-! ## The journal -/

/-- Changes in block order. One change stays inline. -/
inductive Journal where
  | empty
  | one (change : MapChange)
  | many (changes : List MapChange)

namespace Journal

/-- `iter`: the changes, oldest first. -/
def iter : Journal → List MapChange
  | .empty => []
  | .one change => [change]
  | .many changes => changes

def push (j : Journal) (change : MapChange) : Journal :=
  match j with
  | .many changes => .many (changes ++ [change])
  | .empty => .one change
  | .one first => .many [first, change]

def dropEmpty : Journal → Journal
  | .many [] => .empty
  | j => j

/-- Remove the newest change if its block is above `block`. -/
def popAbove (j : Journal) (block : BlockNumber) : Journal × Option MapChange :=
  match j with
  | .empty => (.empty, none)
  | .one change => if change.block ≤ block then (.one change, none) else (.empty, some change)
  | .many changes =>
    match changes.getLast? with
    | some change =>
      if block < change.block then ((Journal.many changes.dropLast).dropEmpty, some change)
      else ((Journal.many changes).dropEmpty, none)
    | none => ((Journal.many changes).dropEmpty, none)

/-- Remove the changes up to `block`, oldest first. -/
def drainUpTo (j : Journal) (block : BlockNumber) : Journal × List MapChange :=
  match j with
  | .empty => (.empty, [])
  | .one change => if block < change.block then (.one change, []) else (.empty, [change])
  | .many changes =>
    ((Journal.many (changes.dropWhile (·.block ≤ block))).dropEmpty,
      changes.takeWhile (·.block ≤ block))

end Journal

/-! ## The unsaved keys -/

/-- Keys of MAP fields. One key stays inline. -/
inductive Unsaved where
  | empty
  | one (map : UInt16) (key : String)
  /-- the keys of each MAP field -/
  | many (keys : List (FxHashSet String))

namespace Unsaved

/-- Add `key` of MAP field `map`, one of `maps` fields. -/
def insert (u : Unsaved) (map : UInt16) (key : String) (maps : Nat) : Unsaved :=
  match u with
  | .many keys => .many (keys.modify map.toNat (·.insert key))
  | .empty => .one map key
  | .one m k =>
    if m = map ∧ k = key then .one m k
    else
      .many (((List.replicate maps (∅ : FxHashSet String)).modify m.toNat (·.insert k)).modify
        map.toNat (·.insert key))

def contains (u : Unsaved) (map : UInt16) (key : String) : Bool :=
  match u with
  | .empty => false
  | .one m k => m == map && k == key
  | .many keys => (keys[map.toNat]?.map (·.contains key)).getD false

/-- The keys that `for_each` hands out. -/
def keys : Unsaved → List MapKey
  | .empty => []
  | .one map key => [(map, key)]
  | .many keys => keys.zipIdx.flatMap fun e => e.1.toList.map fun key => (UInt16.ofNat e.2, key)

end Unsaved

/-! ## The maps -/

/-- `StateMaps`, with the names of the MAP fields left out: they are known by index. -/
structure Maps where
  /-- the entries of each MAP field -/
  entries : List (FxHashMap String Value)
  block : BlockNumber := 0
  undo : Journal := .empty
  unsaved : Unsaved := .empty

namespace Maps

/-- Empty maps for `count` MAP fields. -/
def new (count : Nat) : Maps := { entries := List.replicate count ∅ }

def get (m : Maps) (map : Nat) (key : String) : Option Value := (m.entries[map]?.getD ∅)[key]?

def log (m : Maps) (map : Nat) (key : String) (old : Option Value) : Maps :=
  { m with undo := m.undo.push ⟨m.block, (UInt16.ofNat map, key), old⟩ }

/-- Remove `key` from MAP field `map`. -/
def remove (m : Maps) (map : Nat) (key : String) : Maps :=
  match m.get map key with
  | none => m
  | some old => { m with entries := m.entries.modify map (·.erase key) }.log map key (some old)

/-- Set `key` in MAP field `map`; Null removes it. -/
def set (m : Maps) (map : Nat) (key : String) (value : Value) : Maps :=
  if value.isNull then m.remove map key
  else
    { m with entries := m.entries.modify map (·.insert key value) }.log map key (m.get map key)

/-- Start the changes of `block`. -/
def begin (m : Maps) (block : BlockNumber) : Maps := { m with block := block }

/-- One turn of the loop of `rollback`. -/
def undoChange (entries : List (FxHashMap String Value)) (c : MapChange) :
    List (FxHashMap String Value) :=
  match c.old with
  | some old => entries.modify c.key.1.toNat (·.insert c.key.2 old)
  | none => entries.modify c.key.1.toNat (·.erase c.key.2)

/-- The loop of `rollback`: every turn takes a change off the journal. -/
def rollbackLoop (forkPoint : BlockNumber) : Nat → Maps → Maps
  | 0, m => m
  | fuel + 1, m =>
    match m.undo.popAbove forkPoint with
    | (undo, none) => { m with undo := undo }
    | (undo, some c) =>
      rollbackLoop forkPoint fuel { m with undo := undo, entries := undoChange m.entries c }

/-- Undo the changes of the blocks after `forkPoint`, newest first. -/
def rollback (m : Maps) (forkPoint : BlockNumber) : Maps :=
  rollbackLoop forkPoint (m.undo.iter.length + 1) m

/-- The blocks up to `block` are final. -/
def finalize (m : Maps) (block : BlockNumber) : Maps :=
  let drained := m.undo.drainUpTo block
  { m with
    undo := drained.1
    unsaved := drained.2.foldl (fun unsaved c => unsaved.insert c.key.1 c.key.2 m.entries.length)
      m.unsaved }

/-- `replaced_after`: what the first change after `finalized` of each unsaved key replaced. -/
def replacedAfter (m : Maps) (finalized : BlockNumber) : FxHashMap MapKey (Option Value) :=
  (m.undo.iter.filter fun c => decide (finalized < c.block)).foldl (fun replaced c =>
    if m.unsaved.contains c.key.1 c.key.2 then
      if replaced.contains c.key then replaced else replaced.insert c.key c.old
    else replaced) ∅

/-- The value that a checkpoint writes for an unsaved key. -/
def savedValue (m : Maps) (finalized : BlockNumber) (key : MapKey) : Option Value :=
  match (m.replacedAfter finalized)[key]? with
  | some old => old
  | none => m.get key.1.toNat key.2

/-- A checkpoint, as of `finalized`. -/
def writeCheckpoint (m : Maps) (finalized : BlockNumber) (reducer : String)
    (groupKey : List UInt8) : Maps × WriteBatch :=
  ({ m with unsaved := .empty }, m.unsaved.keys.map fun key =>
    match m.savedValue finalized key with
    | some value => .putReducerMapEntry reducer groupKey key.1 key.2 (.value value)
    | none => .deleteReducerMapEntry reducer groupKey key.1 key.2)

end Maps

/-! ## The journal is a list -/

namespace Journal

theorem iter_push (j : Journal) (c : MapChange) : (j.push c).iter = j.iter ++ [c] := by
  cases j <;> rfl

theorem iter_dropEmpty (j : Journal) : j.dropEmpty.iter = j.iter := by
  unfold dropEmpty
  split <;> rfl

/-- The newest change goes if it is above the block. -/
theorem popAbove_spec (j : Journal) (block : BlockNumber) :
    (j.popAbove block).1.iter
      = (if (j.popAbove block).2.isSome then j.iter.dropLast else j.iter) ∧
    (j.popAbove block).2 = j.iter.getLast?.filter fun c => decide (block < c.block) := by
  cases j with
  | empty => exact ⟨rfl, rfl⟩
  | one c =>
    unfold popAbove
    by_cases h : c.block ≤ block
    · have hn : ¬ block < c.block := UInt64.not_lt.mpr h
      simp [h, hn, iter, Option.filter]
    · have hn : block < c.block := UInt64.not_le.mp h
      simp [h, hn, iter, Option.filter]
  | many changes =>
    have hiter : ∀ l : List MapChange, (Journal.many l).dropEmpty.iter = l := fun l =>
      iter_dropEmpty (.many l)
    have hmany : (Journal.many changes).iter = changes := rfl
    cases hlast : changes.getLast? with
    | none => simp [popAbove, hlast, hiter, hmany]
    | some c =>
      by_cases h : block < c.block
      · simp [popAbove, hlast, hiter, hmany, h, Option.filter]
      · simp [popAbove, hlast, hiter, hmany, h, Option.filter]

theorem drainUpTo_spec (j : Journal) (block : BlockNumber) :
    (j.drainUpTo block).1.iter = j.iter.dropWhile (·.block ≤ block) ∧
    (j.drainUpTo block).2 = j.iter.takeWhile (·.block ≤ block) := by
  cases j with
  | empty => exact ⟨rfl, rfl⟩
  | one c =>
    unfold drainUpTo
    by_cases h : c.block ≤ block
    · have hn : ¬ block < c.block := UInt64.not_lt.mpr h
      simp [h, hn, iter]
    · have hn : block < c.block := UInt64.not_le.mp h
      simp [h, hn, iter]
  | many changes => exact ⟨iter_dropEmpty _, rfl⟩

end Journal

/-! ## The unsaved keys are a set -/

namespace Unsaved

/-- The keys are of `n` MAP fields. -/
def Sized (n : Nat) : Unsaved → Prop
  | .empty => True
  | .one map _ => map.toNat < n
  | .many keys => keys.length = n

theorem contains_many (keys : List (FxHashSet String)) (map : UInt16) (key : String) :
    (Unsaved.many keys).contains map key = true ↔ ∃ set, keys[map.toNat]? = some set ∧ key ∈ set := by
  unfold contains
  cases h : keys[map.toNat]? with
  | none => simp [h]
  | some set => simp [h]

theorem contains_modify {keys : List (FxHashSet String)} {map : UInt16} {key : String}
    (hlt : map.toNat < keys.length) (k : MapKey) :
    (Unsaved.many (keys.modify map.toNat (·.insert key))).contains k.1 k.2 = true ↔
      k = (map, key) ∨ (Unsaved.many keys).contains k.1 k.2 = true := by
  rw [contains_many, contains_many, List.getElem?_modify]
  by_cases hmap : map = k.1
  · subst hmap
    have hget : keys[k.1.toNat]? = some keys[k.1.toNat] := List.getElem?_eq_getElem hlt
    simp only [hget, if_true, Option.map_eq_map, Option.map_some]
    simp only [Option.some.injEq, exists_eq_left', ExtTreeSet.mem_insert]
    constructor
    · intro h
      rcases h with h | h
      · exact Or.inl (Prod.ext rfl (Std.compare_eq_iff_eq.mp h).symm)
      · exact Or.inr h
    · intro h
      rcases h with h | h
      · exact Or.inl (Std.compare_eq_iff_eq.mpr (congrArg Prod.snd h).symm)
      · exact Or.inr h
  · have hne : map.toNat ≠ k.1.toNat := fun heq => hmap (UInt16.toNat_inj.mp heq)
    have hkey : k ≠ (map, key) := fun heq => hmap (congrArg Prod.fst heq).symm
    simp only [if_neg hne, Option.map_eq_map, Option.map_id_fun', id_eq, hkey, false_or]

theorem contains_one (map : UInt16) (key : String) (k : MapKey) :
    (Unsaved.one map key).contains k.1 k.2 = true ↔ k = (map, key) := by
  unfold contains
  rw [Bool.and_eq_true, beq_iff_eq, beq_iff_eq]
  constructor
  · intro h
    exact Prod.ext h.1.symm h.2.symm
  · intro h
    rw [h]
    exact ⟨rfl, rfl⟩

theorem contains_replicate (n : Nat) (k : MapKey) :
    (Unsaved.many (List.replicate n ∅)).contains k.1 k.2 = false := by
  rw [← Bool.not_eq_true, contains_many]
  intro h
  obtain ⟨set, hset, hmem⟩ := h
  rw [List.getElem?_replicate] at hset
  split at hset
  · cases hset
    simp at hmem
  · cases hset

theorem insert_spec {u : Unsaved} {n : Nat} (hu : u.Sized n) {map : UInt16} (hmap : map.toNat < n)
    (key : String) :
    (u.insert map key n).Sized n ∧
    ∀ k : MapKey, (u.insert map key n).contains k.1 k.2 = true ↔
      k = (map, key) ∨ u.contains k.1 k.2 = true := by
  cases u with
  | empty =>
    refine ⟨hmap, ?_⟩
    intro k
    show (Unsaved.one map key).contains k.1 k.2 = true ↔ _
    rw [contains_one]
    simp [contains]
  | one m k₀ =>
    unfold insert
    dsimp only
    split
    · next hsame =>
      obtain ⟨rfl, rfl⟩ := hsame
      refine ⟨hu, ?_⟩
      intro k
      rw [contains_one, or_self]
    · refine ⟨by simp [Sized], ?_⟩
      intro k
      have hm : m.toNat < n := hu
      rw [contains_modify (by simpa using hmap), contains_modify (by simpa using hm),
        contains_replicate, contains_one]
      simp
  | many keys =>
    have hlen : keys.length = n := hu
    refine ⟨by simpa [insert, Sized] using hlen, ?_⟩
    intro k
    exact contains_modify (by rw [hlen]; exact hmap) k

/-- The keys that are handed out are those that the set contains, each once. -/
theorem keys_spec {u : Unsaved} {n : Nat} (hu : u.Sized n) (hn : n ≤ 2 ^ 16) :
    u.keys.Nodup ∧ ∀ k : MapKey, k ∈ u.keys ↔ u.contains k.1 k.2 = true := by
  cases u with
  | empty =>
    refine ⟨List.nodup_nil, ?_⟩
    intro k
    simp [keys, contains]
  | one map key =>
    refine ⟨List.nodup_singleton _, ?_⟩
    intro k
    rw [contains_one]
    exact List.mem_singleton
  | many sets =>
    have hlen : sets.length = n := hu
    have hid : ∀ e ∈ sets.zipIdx, (UInt16.ofNat e.2).toNat = e.2 := by
      intro e he
      have hlt := List.snd_lt_of_mem_zipIdx he
      rw [UInt16.toNat_ofNat', Nat.mod_eq_of_lt (by omega)]
    constructor
    · unfold keys
      rw [List.nodup_flatMap]
      constructor
      · intro e _
        refine List.Nodup.map ?_ (OrdMap.nodup_toList e.1)
        intro a b hab
        exact (Prod.mk.inj hab).2
      · have hpair : sets.zipIdx.Pairwise fun a b => a.2 ≠ b.2 := by
          have hnodup : (sets.zipIdx.map Prod.snd).Nodup := by
            rw [List.zipIdx_map_snd]
            exact List.nodup_range'
          exact List.pairwise_map.mp hnodup
        refine hpair.imp_of_mem ?_
        intro a b ha hb hne k hka hkb
        obtain ⟨x, -, rfl⟩ := List.mem_map.mp hka
        obtain ⟨y, -, heq⟩ := List.mem_map.mp hkb
        apply hne
        rw [← hid a ha, ← hid b hb, (Prod.mk.inj heq).1]
    · intro k
      rw [contains_many]
      unfold keys
      rw [List.mem_flatMap]
      constructor
      · intro h
        obtain ⟨e, he, hk⟩ := h
        obtain ⟨x, hx, rfl⟩ := List.mem_map.mp hk
        refine ⟨e.1, ?_, ExtTreeSet.mem_toList.mp hx⟩
        show sets[(UInt16.ofNat e.2).toNat]? = some e.1
        rw [hid e he]
        exact List.mem_zipIdx_iff_getElem?.mp he
      · intro h
        obtain ⟨set, hset, hmem⟩ := h
        refine ⟨(set, k.1.toNat), List.mem_zipIdx_iff_getElem?.mpr hset, ?_⟩
        refine List.mem_map.mpr ⟨k.2, ExtTreeSet.mem_toList.mpr hmem, ?_⟩
        rw [UInt16.ofNat_toNat]

end Unsaved

/-! ## The maps hold a `StateMaps` -/

/-- The data of `n` MAP fields hold `m`. -/
structure Represents (n : Nat) (c : Maps) (m : StateMaps) : Prop where
  count : c.entries.length = n
  entries : ∀ k : MapKey, k.1.toNat < n → c.get k.1.toNat k.2 = m.entries[k]?
  block : c.block = m.block
  undo : c.undo.iter = m.undo
  /-- changes are of MAP fields that there are -/
  changes : ∀ ch ∈ m.undo, ch.key.1.toNat < n
  sized : c.unsaved.Sized n
  unsaved : ∀ k : MapKey, c.unsaved.contains k.1 k.2 = true ↔ k ∈ m.unsaved

namespace Represents

variable {n : Nat} {c : Maps} {m : StateMaps}

theorem new (n : Nat) : Represents n (Maps.new n) {} := by
  refine ⟨List.length_replicate, ?_, rfl, rfl, ?_, trivial, ?_⟩
  · intro k hk
    show ((List.replicate n ∅)[k.1.toNat]?.getD ∅)[k.2]? = _
    rw [List.getElem?_replicate, if_pos hk]
    simp
  · intro ch hch
    cases hch
  · intro k
    simp [Maps.new, Unsaved.contains]

/-- The entries after a change of one of them. -/
theorem entries_modify (h : Represents n c m) {map : UInt16} (hmap : map.toNat < n)
    {f : FxHashMap String Value → FxHashMap String Value} {key : String}
    {entries : FxHashMap MapKey Value} {new : Option Value}
    (hf : ∀ e : FxHashMap String Value, ∀ k, (f e)[k]? = if k = key then new else e[k]?)
    (hentries : ∀ k : MapKey, entries[k]? = if k = (map, key) then new else m.entries[k]?)
    (k : MapKey) (hk : k.1.toNat < n) :
    ((c.entries.modify map.toNat f)[k.1.toNat]?.getD ∅)[k.2]? = entries[k]? := by
  have hget : c.entries[k.1.toNat]? = some (c.entries[k.1.toNat]?.getD ∅) := by
    have hlt : k.1.toNat < c.entries.length := by
      rw [h.count]
      exact hk
    rw [List.getElem?_eq_getElem hlt]
    rfl
  have hold : (c.entries[k.1.toNat]?.getD ∅)[k.2]? = m.entries[k]? := h.entries k hk
  rw [List.getElem?_modify, hget, hentries]
  by_cases hm : map = k.1
  · subst hm
    simp only [if_true, Option.map_eq_map, Option.map_some, Option.getD_some]
    rw [hf, hold]
    by_cases hkey : k.2 = key
    · have hpair : k = (k.1, key) := Prod.ext rfl hkey
      rw [if_pos hkey, if_pos hpair]
    · rw [if_neg hkey, if_neg fun heq => hkey (congrArg Prod.snd heq)]
  · have hne : map.toNat ≠ k.1.toNat := fun heq => hm (UInt16.toNat_inj.mp heq)
    rw [if_neg fun heq => hm (congrArg Prod.fst heq).symm]
    simp only [if_neg hne, Option.map_eq_map, Option.map_some, Option.getD_some]
    exact hold

section Entries

variable {α β : Type} [Ord α] [TransOrd α] [LawfulEqOrd α] [DecidableEq α]

theorem getElem?_insert_key (e : ExtTreeMap α β compare) (key k : α) (v : β) :
    (e.insert key v)[k]? = if k = key then some v else e[k]? := by
  rw [ExtTreeMap.getElem?_insert]
  by_cases h : k = key
  · subst h
    simp
  · have hne : compare key k ≠ .eq := fun heq => h (Std.compare_eq_iff_eq.mp heq).symm
    rw [if_neg hne, if_neg h]

theorem getElem?_erase_key (e : ExtTreeMap α β compare) (key k : α) :
    (e.erase key)[k]? = if k = key then none else e[k]? := by
  rw [ExtTreeMap.getElem?_erase]
  by_cases h : k = key
  · subst h
    simp
  · have hne : compare key k ≠ .eq := fun heq => h (Std.compare_eq_iff_eq.mp heq).symm
    rw [if_neg hne, if_neg h]

end Entries

theorem log (h : Represents n c m) {map : UInt16} (hmap : map.toNat < n) (key : String)
    (old : Option Value) : Represents n (c.log map.toNat key old) (m.log (map, key) old) := by
  refine ⟨h.count, h.entries, h.block, ?_, ?_, h.sized, h.unsaved⟩
  · show (c.undo.push _).iter = m.undo ++ _
    rw [Journal.iter_push, h.undo, h.block, UInt16.ofNat_toNat]
  · intro ch hch
    rcases List.mem_append.mp hch with hch | hch
    · exact h.changes ch hch
    · rw [List.mem_singleton.mp hch]
      exact hmap

theorem remove (h : Represents n c m) {map : UInt16} (hmap : map.toNat < n) (key : String) :
    Represents n (c.remove map.toNat key) (m.remove (map, key)) := by
  have hget := h.entries (map, key) hmap
  unfold Maps.remove StateMaps.remove
  rw [hget]
  cases hold : m.entries[(map, key)]? with
  | none => exact h
  | some old =>
    have hbase : Represents n { c with entries := c.entries.modify map.toNat (·.erase key) }
        { m with entries := m.entries.erase (map, key) } := by
      refine ⟨by simpa using h.count, ?_, h.block, h.undo, h.changes, h.sized, h.unsaved⟩
      intro k hk
      exact h.entries_modify hmap (fun e k => getElem?_erase_key e key k)
        (fun k => getElem?_erase_key m.entries (map, key) k) k hk
    exact hbase.log hmap key (some old)

theorem set (h : Represents n c m) {map : UInt16} (hmap : map.toNat < n) (key : String)
    (value : Value) : Represents n (c.set map.toNat key value) (m.set (map, key) value) := by
  unfold Maps.set StateMaps.set
  split
  · exact h.remove hmap key
  · have hbase : Represents n
        { c with entries := c.entries.modify map.toNat (·.insert key value) }
        { m with entries := m.entries.insert (map, key) value } := by
      refine ⟨by simpa using h.count, ?_, h.block, h.undo, h.changes, h.sized, h.unsaved⟩
      intro k hk
      exact h.entries_modify hmap (fun e k => getElem?_insert_key e key k value)
        (fun k => getElem?_insert_key m.entries (map, key) k value) k hk
    rw [h.entries (map, key) hmap]
    exact hbase.log hmap key m.entries[(map, key)]?

theorem begin (h : Represents n c m) (block : BlockNumber) :
    Represents n (c.begin block) (m.begin block) :=
  ⟨h.count, h.entries, rfl, h.undo, h.changes, h.sized, h.unsaved⟩

theorem finalize (h : Represents n c m) (block : BlockNumber) :
    Represents n (c.finalize block) (m.finalize block) := by
  obtain ⟨hkept, hdrained⟩ := c.undo.drainUpTo_spec block
  rw [h.undo] at hkept hdrained
  have hfold : ∀ (changes : List MapChange) (u : Unsaved) (s : FxHashSet MapKey), u.Sized n →
      (∀ ch ∈ changes, ch.key.1.toNat < n) →
      (∀ k : MapKey, u.contains k.1 k.2 = true ↔ k ∈ s) →
      (changes.foldl (fun u ch => u.insert ch.key.1 ch.key.2 n) u).Sized n ∧
      ∀ k : MapKey, (changes.foldl (fun u ch => u.insert ch.key.1 ch.key.2 n) u).contains k.1 k.2
        = true ↔ k ∈ changes.foldl (fun s ch => s.insert ch.key) s := by
    intro changes
    induction changes with
    | nil => exact fun u s hu _ hs => ⟨hu, hs⟩
    | cons ch changes ih =>
      intro u s hu hlt hs
      obtain ⟨hsized, hcontains⟩ := Unsaved.insert_spec hu (hlt ch List.mem_cons_self) ch.key.2
      apply ih _ _ hsized fun ch' hch' => hlt ch' (List.mem_cons_of_mem ch hch')
      intro k
      rw [hcontains k, hs k, ExtTreeSet.mem_insert]
      constructor
      · intro h
        rcases h with h | h
        · exact Or.inl (Std.compare_eq_iff_eq.mpr h.symm)
        · exact Or.inr h
      · intro h
        rcases h with h | h
        · exact Or.inl (Std.compare_eq_iff_eq.mp h).symm
        · exact Or.inr h
  have htaken : ∀ ch ∈ m.undo.takeWhile (·.block ≤ block), ch.key.1.toNat < n := fun ch hch =>
    h.changes ch ((List.takeWhile_sublist _).mem hch)
  obtain ⟨hsized, hcontains⟩ := hfold _ _ _ h.sized htaken h.unsaved
  refine ⟨h.count, h.entries, h.block, hkept, ?_, ?_, ?_⟩
  · intro ch hch
    exact h.changes ch ((List.dropWhile_sublist _).mem hch)
  · show ((c.undo.drainUpTo block).2.foldl _ c.unsaved).Sized n
    rw [hdrained, h.count]
    exact hsized
  · intro k
    show ((c.undo.drainUpTo block).2.foldl _ c.unsaved).contains k.1 k.2 = true ↔ _
    rw [hdrained, h.count]
    exact hcontains k

theorem undoChange (h : Represents n c m) {ch : MapChange} (hlt : ch.key.1.toNat < n)
    (k : MapKey) (hk : k.1.toNat < n) :
    ((Maps.undoChange c.entries ch)[k.1.toNat]?.getD ∅)[k.2]?
      = (StateMaps.undoChange m.entries ch)[k]? := by
  unfold Maps.undoChange StateMaps.undoChange
  cases ch.old with
  | some old =>
    exact h.entries_modify hlt (fun e k => getElem?_insert_key e ch.key.2 k old)
      (fun k => getElem?_insert_key m.entries ch.key k old) k hk
  | none =>
    exact h.entries_modify hlt (fun e k => getElem?_erase_key e ch.key.2 k)
      (fun k => getElem?_erase_key m.entries ch.key k) k hk

/-- A rollback of a journal that ends in a change above the fork point takes it back first. -/
theorem rollback_concat (m : StateMaps) {undo : List MapChange} {ch : MapChange}
    (hundo : m.undo = undo ++ [ch]) (p : BlockNumber) :
    m.rollback p = if p < ch.block then
        { m with undo := undo, entries := StateMaps.undoChange m.entries ch }.rollback p
      else m := by
  unfold StateMaps.rollback
  rw [hundo, List.reverse_append, List.reverse_singleton, List.singleton_append,
    StateMaps.rollbackLoop]
  split
  · rfl
  · dsimp only
    rw [List.reverse_cons, List.reverse_reverse, ← hundo]

theorem rollbackLoop (p : BlockNumber) (fuel : Nat) (h : Represents n c m)
    (hfuel : m.undo.length < fuel) : Represents n (Maps.rollbackLoop p fuel c) (m.rollback p) := by
  induction fuel generalizing c m with
  | zero => exact absurd hfuel (Nat.not_lt_zero _)
  | succ fuel ih =>
    obtain ⟨hrest, hpopped⟩ := c.undo.popAbove_spec p
    rw [h.undo] at hrest hpopped
    unfold Maps.rollbackLoop
    rcases List.eq_nil_or_concat m.undo with hnil | ⟨undo, ch, hundo⟩
    · -- nothing to take back
      have hnone : (c.undo.popAbove p).2 = none := by
        rw [hpopped, hnil]
        rfl
      have hsame : m.rollback p = m := by
        unfold StateMaps.rollback
        rw [hnil]
        show { m with undo := [], entries := m.entries } = m
        rw [← hnil]
      split
      · next rest hpop =>
        rw [hpop] at hrest
        rw [hsame]
        exact ⟨h.count, h.entries, h.block, by simpa using hrest, h.changes, h.sized, h.unsaved⟩
      · next rest ch hpop =>
        rw [hpop] at hnone
        cases hnone
    · rw [List.concat_eq_append] at hundo
      have hlast : m.undo.getLast? = some ch := by
        rw [hundo, List.getLast?_concat]
      have hmem : ch ∈ m.undo := by
        rw [hundo]
        exact List.mem_append_right _ List.mem_cons_self
      rw [rollback_concat m hundo p]
      rw [hlast] at hpopped
      by_cases hp : p < ch.block
      · have hsome : (c.undo.popAbove p).2 = some ch := by
          rw [hpopped]
          simp [hp, Option.filter]
        rw [if_pos hp]
        split
        · next rest hpop =>
          rw [hpop] at hsome
          cases hsome
        · next rest ch' hpop =>
          rw [hpop] at hsome hrest
          cases hsome
          apply ih
          · refine ⟨?_, ?_, h.block, ?_, ?_, h.sized, h.unsaved⟩
            · show (Maps.undoChange c.entries ch).length = n
              unfold Maps.undoChange
              split <;> simpa using h.count
            · exact fun k hk => h.undoChange (h.changes ch hmem) k hk
            · show rest.iter = undo
              rw [hundo] at hrest
              simpa using hrest
            · intro ch' hch'
              apply h.changes ch'
              rw [hundo]
              exact List.mem_append_left _ hch'
          · rw [hundo, List.length_append, List.length_singleton] at hfuel
            show undo.length < fuel
            omega
      · have hnone : (c.undo.popAbove p).2 = none := by
          rw [hpopped]
          simp [hp, Option.filter]
        rw [if_neg hp]
        split
        · next rest hpop =>
          rw [hpop] at hrest
          exact ⟨h.count, h.entries, h.block, by simpa using hrest, h.changes, h.sized, h.unsaved⟩
        · next rest ch' hpop =>
          rw [hpop] at hnone
          cases hnone

theorem rollback (h : Represents n c m) (p : BlockNumber) :
    Represents n (c.rollback p) (m.rollback p) := by
  apply rollbackLoop p _ h
  rw [h.undo]
  omega

/-- What a checkpoint writes for an unsaved key is its value as of finality. -/
theorem savedValue (h : Represents n c m) (finalized : BlockNumber) {k : MapKey}
    (hk : k ∈ m.unsaved) (hlt : k.1.toNat < n) :
    c.savedValue finalized k = m.valueAt finalized k := by
  have hfold : ∀ (changes : List MapChange) (replaced : FxHashMap MapKey (Option Value)),
      (changes.foldl (fun replaced ch =>
        if c.unsaved.contains ch.key.1 ch.key.2 then
          if replaced.contains ch.key then replaced else replaced.insert ch.key ch.old
        else replaced) replaced)[k]?
      = replaced[k]?.or ((changes.find? (·.key == k)).map MapChange.old) := by
    intro changes
    induction changes with
    | nil => intro replaced; simp
    | cons ch changes ih =>
      intro replaced
      rw [List.foldl_cons, ih, List.find?_cons]
      by_cases hkey : ch.key = k
      · subst hkey
        rw [(h.unsaved ch.key).mpr hk]
        cases hold : replaced[ch.key]? with
        | some old =>
          have hcontains : replaced.contains ch.key = true := by
            rw [ExtTreeMap.contains_eq_isSome_getElem?, hold]
            rfl
          simp [hcontains, hold]
        | none =>
          have hcontains : replaced.contains ch.key = false := by
            rw [ExtTreeMap.contains_eq_isSome_getElem?, hold]
            rfl
          simp [hcontains]
      · have hbeq : (ch.key == k) = false := beq_false_of_ne hkey
        have hne : compare ch.key k ≠ .eq := fun heq => hkey (Std.compare_eq_iff_eq.mp heq)
        rw [hbeq]
        congr 1
        split
        · split
          · rfl
          · rw [ExtTreeMap.getElem?_insert, if_neg hne]
        · rfl
  unfold Maps.savedValue Maps.replacedAfter StateMaps.valueAt
  rw [h.undo, hfold]
  have hfind : (m.undo.filter fun ch => decide (finalized < ch.block)).find? (·.key == k)
      = m.undo.find? fun ch => decide (finalized < ch.block) && ch.key == k := by
    rw [List.find?_filter]
    congr 1
    funext ch
    simp only [Bool.decide_and, Bool.decide_eq_true]
  rw [hfind]
  cases m.undo.find? fun ch => decide (finalized < ch.block) && ch.key == k with
  | none => simpa using h.entries k hlt
  | some ch => simp

end Represents

end MapFields

end Settle
