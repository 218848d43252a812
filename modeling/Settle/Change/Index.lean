import Settle.Change

/-!
# The hash index of a flush

`ChangeBuffer::flush` finds the record of a row through an index by `hash_change_key`. Rows with
the same hash share a bucket, and a record that cancels out leaves its bucket by `swap_remove`.

`flushIndexed` is the flush with this index, for any hash. The index lists the records that did
not cancel out (`IndexOf`), and each row has at most one of them. So a lookup through the index
finds what the search over the listed records finds, and **the flush does not depend on the
hash** (`flushIndexed_eq_flush`).
-/

namespace Settle

open Std

/-- `SmallVec::swap_remove`: the last element takes the place of the removed one. -/
def swapRemove {α : Type} (l : List α) (i : Nat) : List α :=
  match l.getLast? with
  | none => []
  | some last => (l.set i last).dropLast

theorem perm_swapRemove {α : Type} (pre post : List α) (a : α) :
    (swapRemove (pre ++ a :: post) pre.length).Perm (pre ++ post) := by
  rcases List.eq_nil_or_concat post with rfl | ⟨post, z, rfl⟩
  · simp [swapRemove]
  · have hlast : (pre ++ a :: (post ++ [z])).getLast? = some z := by
      rw [← List.cons_append, ← List.append_assoc, List.getLast?_concat]
    rw [List.concat_eq_append, swapRemove, hlast]
    dsimp only
    have hset : (pre ++ a :: (post ++ [z])).set pre.length z = (pre ++ z :: post) ++ [z] := by
      simp
    rw [hset, List.dropLast_concat, ← List.append_assoc]
    calc (pre ++ z :: post).Perm (z :: (pre ++ post)) := List.perm_middle
      List.Perm _ (pre ++ post ++ [z]) := (List.perm_append_singleton z (pre ++ post)).symm

/-- The hash of a row: `hash_change_key`. -/
abbrev RowHash := String → GroupKey → UInt64

/-- The merge of a flush: the index by hash, and the records. -/
structure MergeIndex where
  index : FxHashMap UInt64 (List Nat) := ∅
  merged : List ChangeRecord := []

/-- The mark of a record that cancelled out. -/
def cancelRecord (r : ChangeRecord) : ChangeRecord :=
  { r with operation := .delete, prevValues := none, values := [] }

/-- One pass of the loop of `flush`. -/
def MergeIndex.merge (hash : RowHash) (s : MergeIndex) (record : ChangeRecord) : MergeIndex :=
  let keyHash := hash record.table record.key
  let bucket := s.index[keyHash]?.getD []
  match bucket.findIdx? fun idx => s.merged[idx]?.any (sameRow · record) with
  | none =>
    { index := s.index.insert keyHash (bucket ++ [s.merged.length])
      merged := s.merged ++ [record] }
  | some slot =>
    let idx := bucket.getD slot 0
    match s.merged[idx]?.bind (mergeInPlace · record) with
    | some r => { s with merged := s.merged.set idx r }
    | none =>
      let bucket := swapRemove bucket slot
      { index := if bucket.isEmpty then s.index.erase keyHash else s.index.insert keyHash bucket
        merged := s.merged.modify idx cancelRecord }

namespace ChangeBuffer

/-- The records that `flush` puts into the batch, by the index. -/
def mergedIndexed (hash : RowHash) (b : ChangeBuffer) : List ChangeRecord :=
  (b.pending.foldl (MergeIndex.merge hash) {}).merged.filter (!isCancelled ·)

/-- `flush`. -/
def flushIndexed (hash : RowHash) (b : ChangeBuffer) : ChangeBuffer × Option ChangeBatch :=
  if b.pending.isEmpty then (b, none)
  else
    let drained := { b with pending := [] }
    let tables := groupByTable (b.mergedIndexed hash)
    if tables.isEmpty then (drained, none)
    else
      ({ drained with nextSequence := b.nextSequence + 1 },
        some { sequence := b.nextSequence, finalizedHead := b.finalizedHead,
               latestHead := b.latestHead, tables := tables })

end ChangeBuffer

/-! ## The index lists the live records -/

theorem sameRow_iff {a b : ChangeRecord} : sameRow a b ↔ a.table = b.table ∧ a.key = b.key := by
  rw [sameRow, Bool.and_eq_true, beq_iff_eq, beq_iff_eq]

/-- A merge keeps the row. -/
theorem sameRow_mergeInPlace {e r x : ChangeRecord} (h : mergeInPlace e r = some x)
    (hrow : sameRow e r) : sameRow x e := by
  have hrow := sameRow_iff.mp hrow
  rw [sameRow_iff]
  unfold mergeInPlace at h
  split at h <;> cases h <;> first | exact ⟨rfl, rfl⟩ | exact ⟨hrow.1.symm, hrow.2.symm⟩

/-- The index and the records against the slots of the search. -/
structure IndexOf (hash : RowHash) (s : MergeIndex) (slots : List MergeSlot) : Prop where
  merged : s.merged = slots.map MergeSlot.record
  listed : ∀ (h : UInt64) (i : Nat), i ∈ s.index[h]?.getD [] ↔
    ∃ slot, slots[i]? = some slot ∧ slot.live ∧ hash slot.record.table slot.record.key = h
  nodup : ∀ h : UInt64, (s.index[h]?.getD []).Nodup
  /-- a row has at most one live record -/
  single : ∀ (i j : Nat) (a b : MergeSlot), slots[i]? = some a → slots[j]? = some b →
    a.live → b.live → sameRow a.record b.record → i = j

theorem IndexOf.empty (hash : RowHash) : IndexOf hash {} [] where
  merged := rfl
  listed := by simp
  nodup := by simp
  single := by simp

variable {hash : RowHash} {s : MergeIndex} {slots : List MergeSlot} {record : ChangeRecord}

/-- The lookup through the index finds the live record of the row. -/
theorem IndexOf.lookup (hi : IndexOf hash s slots) {i : Nat} :
    (i ∈ s.index[hash record.table record.key]?.getD [] ∧
      s.merged[i]?.any (sameRow · record)) ↔
      ∃ slot, slots[i]? = some slot ∧ slot.live ∧ sameRow slot.record record := by
  rw [hi.listed, hi.merged, List.getElem?_map]
  constructor
  · rintro ⟨⟨slot, hslot, hlive, -⟩, hany⟩
    rw [hslot] at hany
    exact ⟨slot, hslot, hlive, by simpa using hany⟩
  · rintro ⟨slot, hslot, hlive, hrow⟩
    have hrow' := sameRow_iff.mp hrow
    refine ⟨⟨slot, hslot, hlive, ?_⟩, ?_⟩
    · rw [hrow'.1, hrow'.2]
    · simp [hslot, hrow]

/-- A row that the search does not find gets a new record. -/
theorem IndexOf.push (hi : IndexOf hash s slots)
    (hnew : ∀ slot ∈ slots, slot.live → ¬ sameRow slot.record record) :
    IndexOf hash
      { index := s.index.insert (hash record.table record.key)
          (s.index[hash record.table record.key]?.getD [] ++ [s.merged.length])
        merged := s.merged ++ [record] }
      (slots ++ [{ record := record }]) := by
  have hlen : s.merged.length = slots.length := by rw [hi.merged, List.length_map]
  have hlt : ∀ (h : UInt64) (i : Nat), i ∈ s.index[h]?.getD [] → i < slots.length := by
    intro h i hmem
    obtain ⟨slot, hslot, -⟩ := (hi.listed h i).mp hmem
    exact (List.getElem?_eq_some_iff.mp hslot).1
  have hget : ∀ (i : Nat) (a : MergeSlot), (slots ++ [{ record := record }])[i]? = some a ↔
      slots[i]? = some a ∨ (i = slots.length ∧ a = { record := record }) := by
    intro i a
    rw [List.getElem?_append]
    split
    · next h => simp [show i ≠ slots.length by omega]
    · next h =>
      rw [List.getElem?_eq_none (Nat.not_lt.mp h), List.getElem?_singleton]
      split
      · next h' => simp [show i = slots.length by omega, eq_comm]
      · next h' => simp [show i ≠ slots.length by omega]
  refine ⟨by simp [hi.merged], ?_, ?_, ?_⟩
  · intro h i
    simp only [hget]
    rw [ExtTreeMap.getElem?_insert]
    split
    · next heq =>
      have heq : hash record.table record.key = h := LawfulEqCmp.eq_of_compare heq
      rw [Option.getD_some, List.mem_append, List.mem_singleton, heq, hi.listed, hlen]
      constructor
      · rintro (⟨slot, hslot, hrest⟩ | rfl)
        · exact ⟨slot, Or.inl hslot, hrest⟩
        · exact ⟨_, Or.inr ⟨rfl, rfl⟩, rfl, heq⟩
      · rintro ⟨slot, hslot | ⟨rfl, rfl⟩, hrest⟩
        · exact Or.inl ⟨slot, hslot, hrest⟩
        · exact Or.inr rfl
    · next hne =>
      rw [hi.listed]
      constructor
      · rintro ⟨slot, hslot, hrest⟩
        exact ⟨slot, Or.inl hslot, hrest⟩
      · rintro ⟨slot, hslot | ⟨rfl, rfl⟩, hlive, hhash⟩
        · exact ⟨slot, hslot, hlive, hhash⟩
        · exact absurd (by rw [← hhash]; exact ReflCmp.compare_self) hne
  · intro h
    rw [ExtTreeMap.getElem?_insert]
    split
    · next heq =>
      rw [Option.getD_some, List.nodup_append]
      refine ⟨hi.nodup _, List.nodup_singleton _, ?_⟩
      intro i hmem j hj
      rw [List.mem_singleton.mp hj, hlen]
      exact Nat.ne_of_lt (hlt _ _ hmem)
    · exact hi.nodup h
  · intro i j a b ha hb hal hbl hrow
    rw [hget] at ha hb
    rcases ha with ha | ⟨rfl, rfl⟩ <;> rcases hb with hb | ⟨rfl, rfl⟩
    · exact hi.single i j a b ha hb hal hbl hrow
    · exact absurd hrow (hnew a (List.mem_of_getElem? ha) hal)
    · refine absurd ?_ (hnew b (List.mem_of_getElem? hb) hbl)
      rw [sameRow_iff] at hrow ⊢
      exact ⟨hrow.1.symm, hrow.2.symm⟩
    · rfl

/-- A record that merges into the one of its row. -/
theorem IndexOf.set (hi : IndexOf hash s slots) {idx : Nat} {slot : MergeSlot} {r : ChangeRecord}
    (hslot : slots[idx]? = some slot) (hrow : sameRow r slot.record) :
    IndexOf hash { s with merged := s.merged.set idx r }
      (slots.set idx { slot with record := r }) := by
  have hrow := sameRow_iff.mp hrow
  have hidx : idx < slots.length := (List.getElem?_eq_some_iff.mp hslot).1
  -- the slot at a position, up to its record
  have hget : ∀ (i : Nat) (a : MergeSlot), (slots.set idx { slot with record := r })[i]? = some a →
      ∃ a', slots[i]? = some a' ∧ a'.live = a.live ∧ a'.record.table = a.record.table ∧
        a'.record.key = a.record.key := by
    intro i a ha
    rw [List.getElem?_set] at ha
    split at ha
    · next h =>
      subst h
      cases ha
      exact ⟨slot, hslot, rfl, hrow.1.symm, hrow.2.symm⟩
    · exact ⟨a, ha, rfl, rfl, rfl⟩
  have hget' : ∀ (i : Nat) (a' : MergeSlot), slots[i]? = some a' →
      ∃ a, (slots.set idx { slot with record := r })[i]? = some a ∧ a.live = a'.live ∧
        a.record.table = a'.record.table ∧ a.record.key = a'.record.key := by
    intro i a' ha'
    rw [List.getElem?_set]
    split
    · next h =>
      subst h
      rw [hslot] at ha'
      cases ha'
      exact ⟨_, rfl, rfl, hrow.1, hrow.2⟩
    · exact ⟨a', ha', rfl, rfl, rfl⟩
  refine ⟨by rw [hi.merged, List.map_set], ?_, hi.nodup, ?_⟩
  · intro h i
    rw [hi.listed]
    constructor
    · rintro ⟨a', ha', hlive, hhash⟩
      obtain ⟨a, ha, hl, ht, hk⟩ := hget' i a' ha'
      exact ⟨a, ha, by rw [hl]; exact hlive, by rw [ht, hk]; exact hhash⟩
    · rintro ⟨a, ha, hlive, hhash⟩
      obtain ⟨a', ha', hl, ht, hk⟩ := hget i a ha
      exact ⟨a', ha', by rw [hl]; exact hlive, by rw [ht, hk]; exact hhash⟩
  · intro i j a b ha hb hal hbl hab
    obtain ⟨a', ha', hl, ht, hk⟩ := hget i a ha
    obtain ⟨b', hb', hl', ht', hk'⟩ := hget j b hb
    refine hi.single i j a' b' ha' hb' (by rw [hl]; exact hal) (by rw [hl']; exact hbl) ?_
    rw [sameRow_iff] at hab ⊢
    exact ⟨by rw [ht, ht', hab.1], by rw [hk, hk', hab.2]⟩

/-- A record that cancels out leaves its bucket. -/
theorem IndexOf.cancel (hi : IndexOf hash s slots) {keyHash : UInt64} {idx : Nat}
    {pre post bucket : List Nat} {slot : MergeSlot} (hslot : slots[idx]? = some slot)
    (hbucket : s.index[keyHash]?.getD [] = pre ++ idx :: post)
    (hperm : bucket.Perm (pre ++ post)) :
    IndexOf hash
      { index := if bucket.isEmpty then s.index.erase keyHash else s.index.insert keyHash bucket
        merged := s.merged.modify idx cancelRecord }
      (slots.set idx { record := cancelRecord slot.record, live := false }) := by
  have hidx : idx < slots.length := (List.getElem?_eq_some_iff.mp hslot).1
  -- the buckets after the step
  have hbuckets : ∀ h : UInt64,
      (if bucket.isEmpty then s.index.erase keyHash else s.index.insert keyHash bucket)[h]?.getD []
        = if keyHash = h then bucket else s.index[h]?.getD [] := by
    intro h
    split
    · next hempty =>
      rw [ExtTreeMap.getElem?_erase]
      simp only [Std.compare_eq_iff_eq]
      split
      · rw [List.isEmpty_iff.mp hempty]; rfl
      · rfl
    · rw [ExtTreeMap.getElem?_insert]
      simp only [Std.compare_eq_iff_eq]
      split <;> rfl
  have hnodup := hi.nodup keyHash
  rw [hbucket] at hnodup
  have hmiddle : (idx :: (pre ++ post)).Nodup := List.perm_middle.nodup_iff.mp hnodup
  have hmem : ∀ i, i ∈ bucket ↔ i ∈ s.index[keyHash]?.getD [] ∧ i ≠ idx := by
    intro i
    rw [hperm.mem_iff, hbucket]
    have hnot : idx ∉ pre ++ post := (List.nodup_cons.mp hmiddle).1
    constructor
    · intro h
      refine ⟨?_, fun heq => hnot (heq ▸ h)⟩
      rcases List.mem_append.mp h with h | h
      · exact List.mem_append_left _ h
      · exact List.mem_append_right _ (List.mem_cons_of_mem _ h)
    · rintro ⟨h, hne⟩
      rcases List.mem_append.mp h with h | h
      · exact List.mem_append_left _ h
      · rcases List.mem_cons.mp h with h | h
        · exact absurd h hne
        · exact List.mem_append_right _ h
  have hat : hash slot.record.table slot.record.key = keyHash := by
    have : idx ∈ s.index[keyHash]?.getD [] := by simp [hbucket]
    obtain ⟨slot', hslot', -, hhash⟩ := (hi.listed keyHash idx).mp this
    rw [hslot] at hslot'
    cases hslot'
    exact hhash
  have hget : ∀ (i : Nat) (a : MergeSlot),
      (slots.set idx { record := cancelRecord slot.record, live := false })[i]? = some a ∧ a.live ↔
        i ≠ idx ∧ slots[i]? = some a ∧ a.live := by
    intro i a
    rw [List.getElem?_set]
    by_cases h : idx = i
    · subst h
      rw [if_pos rfl, if_pos hidx]
      constructor
      · rintro ⟨ha, hlive⟩
        cases ha
        cases hlive
      · rintro ⟨hne, -⟩
        exact absurd rfl hne
    · rw [if_neg h]
      simp [Ne.symm h]
  refine ⟨?_, ?_, ?_, ?_⟩
  · show s.merged.modify idx cancelRecord = _
    rw [hi.merged, List.map_set]
    apply List.ext_getElem?
    intro i
    rw [List.getElem?_modify, List.getElem?_set, List.length_map, List.getElem?_map]
    by_cases h : idx = i
    · subst h
      rw [hslot]
      simp [hidx]
    · simp [h]
  · intro h i
    rw [hbuckets]
    constructor
    · intro hin
      have hlisted : i ∈ s.index[h]?.getD [] ∧ i ≠ idx := by
        split at hin
        · next heq =>
          subst heq
          exact (hmem i).mp hin
        · next hne =>
          refine ⟨hin, fun heq => hne ?_⟩
          obtain ⟨slot', hslot', -, hhash⟩ := (hi.listed h i).mp hin
          rw [heq, hslot] at hslot'
          cases hslot'
          rw [← hat, hhash]
      obtain ⟨slot', hslot', hlive, hhash⟩ := (hi.listed h i).mp hlisted.1
      have := (hget i slot').mpr ⟨hlisted.2, hslot', hlive⟩
      exact ⟨slot', this.1, this.2, hhash⟩
    · rintro ⟨slot', hslot', hlive, hhash⟩
      obtain ⟨hne, hold, -⟩ := (hget i slot').mp ⟨hslot', hlive⟩
      have hlisted := (hi.listed h i).mpr ⟨slot', hold, hlive, hhash⟩
      split
      · next heq =>
        subst heq
        exact (hmem i).mpr ⟨hlisted, hne⟩
      · exact hlisted
  · intro h
    rw [hbuckets]
    split
    · exact hperm.nodup_iff.mpr (List.nodup_cons.mp hmiddle).2
    · exact hi.nodup h
  · intro i j a b ha hb hal hbl hab
    exact hi.single i j a b ((hget i a).mp ⟨ha, hal⟩).2.1 ((hget j b).mp ⟨hb, hbl⟩).2.1 hal hbl hab

/-- A position that a search finds splits the list there. -/
theorem split_of_findIdx? {α : Type} {p : α → Bool} {l : List α} {i : Nat}
    (h : l.findIdx? p = some i) : ∃ pre a post, l = pre ++ a :: post ∧ pre.length = i ∧ p a := by
  obtain ⟨hi, hp, -⟩ := List.findIdx?_eq_some_iff_getElem.mp h
  refine ⟨l.take i, l[i], l.drop (i + 1), ?_, ?_, hp⟩
  · rw [← List.drop_eq_getElem_cons hi, List.take_append_drop]
  · rw [List.length_take]
    omega

/-- **One pass through the index is one pass of the search.** -/
theorem IndexOf.merge (hi : IndexOf hash s slots) :
    IndexOf hash (s.merge hash record) (mergeRecord slots record) := by
  cases hfind : slots.findIdx? fun slot => slot.live && sameRow slot.record record with
  | none =>
    have hnone : ∀ slot ∈ slots, slot.live → ¬ sameRow slot.record record := by
      intro slot hmem hlive hrow
      have := List.findIdx?_eq_none_iff.mp hfind slot hmem
      simp [hlive, hrow] at this
    have hbucket : (s.index[hash record.table record.key]?.getD []).findIdx?
        (fun idx => s.merged[idx]?.any (sameRow · record)) = none := by
      rw [List.findIdx?_eq_none_iff]
      intro i hmem
      rw [Bool.eq_false_iff]
      intro hany
      obtain ⟨slot, hslot, hlive, hrow⟩ := hi.lookup.mp ⟨hmem, hany⟩
      exact hnone slot (List.mem_of_getElem? hslot) hlive hrow
    rw [MergeIndex.merge, mergeRecord, hfind]
    dsimp only
    rw [hbucket]
    exact hi.push hnone
  | some i =>
    obtain ⟨hlt, hp, -⟩ := List.findIdx?_eq_some_iff_getElem.mp hfind
    rw [Bool.and_eq_true] at hp
    have hslot : slots[i]? = some slots[i] := List.getElem?_eq_getElem hlt
    have hmem := hi.lookup.mpr ⟨slots[i], hslot, hp.1, hp.2⟩
    cases hbucket : (s.index[hash record.table record.key]?.getD []).findIdx?
        (fun idx => s.merged[idx]?.any (sameRow · record)) with
    | none =>
      have := List.findIdx?_eq_none_iff.mp hbucket i hmem.1
      rw [hmem.2] at this
      cases this
    | some at_ =>
      obtain ⟨pre, idx, post, hsplit, hlen, hany⟩ := split_of_findIdx? hbucket
      -- both found the one live record of the row
      have hidx : idx = i := by
        obtain ⟨slot, hslot', hlive, hrow⟩ := hi.lookup.mp ⟨by rw [hsplit]; simp, hany⟩
        refine hi.single idx i slot slots[i] hslot' hslot hlive hp.1 ?_
        have h₁ := sameRow_iff.mp hrow
        have h₂ := sameRow_iff.mp hp.2
        exact sameRow_iff.mpr ⟨h₁.1.trans h₂.1.symm, h₁.2.trans h₂.2.symm⟩
      subst hidx
      have hgetD : (s.index[hash record.table record.key]?.getD []).getD at_ 0 = idx := by
        rw [hsplit, ← hlen]
        simp
      have hmerged : s.merged[idx]? = some slots[idx].record := by
        rw [hi.merged, List.getElem?_map, hslot]
        rfl
      have hmodify : ∀ f : MergeSlot → MergeSlot,
          slots.modify idx f = slots.set idx (f slots[idx]) := by
        intro f
        rw [List.modify_eq_set_getElem?, hslot]
        rfl
      rw [MergeIndex.merge, mergeRecord, hfind]
      dsimp only
      rw [hbucket]
      dsimp only
      rw [hgetD, hmerged, Option.bind_some, hmodify]
      cases hm : mergeInPlace slots[idx].record record with
      | some r => exact hi.set hslot (sameRow_mergeInPlace hm hp.2)
      | none =>
        refine hi.cancel hslot hsplit ?_
        rw [hsplit, ← hlen]
        exact perm_swapRemove pre post idx

theorem indexOf_foldl (hash : RowHash) (records : List ChangeRecord) :
    IndexOf hash (records.foldl (MergeIndex.merge hash) {}) (records.foldl mergeRecord []) := by
  have hrun : ∀ (records : List ChangeRecord) (s : MergeIndex) (slots : List MergeSlot),
      IndexOf hash s slots →
        IndexOf hash (records.foldl (MergeIndex.merge hash) s) (records.foldl mergeRecord slots) := by
    intro records
    induction records with
    | nil => exact fun _ _ hi => hi
    | cons r records ih => exact fun _ _ hi => ih _ _ hi.merge
  exact hrun records {} [] (IndexOf.empty hash)

/-- **The flush is the same for every hash**: the one that searches the listed records. -/
theorem ChangeBuffer.flushIndexed_eq_flush (hash : RowHash) (b : ChangeBuffer) :
    b.flushIndexed hash = b.flush := by
  have hmerged : b.mergedIndexed hash = b.merged := by
    rw [ChangeBuffer.mergedIndexed, (indexOf_foldl hash b.pending).merged]
    rfl
  rw [ChangeBuffer.flushIndexed, ChangeBuffer.flush, hmerged]

end Settle
