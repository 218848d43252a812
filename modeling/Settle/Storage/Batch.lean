import Settle.Engine.View

/-!
# Write batches and the store

The operations of a `StorageWriteBatch` (`src/storage/mod.rs`) and what a commit of them does
to a store (`src/storage/memory.rs`). A commit is atomic: it applies every operation of the
batch in order, or none.

The payload of an operation is a `Datum`: what the source encodes to bytes, before its
encoding. The journal keeps the operations of whole batches, so a `Datum` may hold
operations again.

`Store.content` is the store without its journal. Journal operations do not change it, and
`Store.content_commit` says so for whole batches: the content after a commit is the one that
the data operations give.
-/

namespace Settle

open Std

/-- An operation to be committed atomically as part of a write batch, with payloads in `D`. -/
inductive BatchOp (D : Type) where
  | putRawRows (table : String) (block : BlockNumber) (data : D)
  | setReducerFinalized (reducer : String) (groupKey : List UInt8) (state : D)
  | putReducerMapEntry (reducer : String) (groupKey : List UInt8) (map : UInt16) (key : String)
      (value : D)
  | deleteReducerMapEntry (reducer : String) (groupKey : List UInt8) (map : UInt16)
      (key : String)
  | putMvState (view : String) (groupKey : List UInt8) (state : D)
  | putMeta (key : String) (value : D)
  | deleteMvState (view : String) (groupKey : List UInt8)
  | deleteRawRowsAfter (table : String) (afterBlock : BlockNumber)
  | deleteRawRows (table : String) (fromBlock toBlock : BlockNumber)
  | putBlockHash (block : BlockNumber) (hash : String)
  | deleteBlockHash (block : BlockNumber)
  | putJournal (sequence part : Nat) (entry : D)
  | deleteJournal (sequence part : Nat)

/-- What a payload encodes. -/
inductive Datum where
  /-- `encode_rows` -/
  | rows (rows : List Row)
  /-- `encode_values`: the state of a reducer group -/
  | values (values : List Value)
  /-- `encode_value_bytes`: an entry of a MAP field -/
  | value (value : Value)
  /-- `serialize_mv_group` -/
  | aggs (stored : List StoredAgg)
  /-- `window_record` -/
  | window (record : WindowRecord)
  /-- `to_be_bytes` of a `u64` -/
  | number (n : Nat)
  /-- the format version and the layouts -/
  | text (text : String)
  /-- `journal::encode` -/
  | writes (ops : List (BatchOp Datum))

/-- `StorageWriteBatch`: its operations. -/
abbrev WriteBatch := List (BatchOp Datum)

namespace BatchOp

variable {D : Type}

/-- An operation on the journal. -/
def isJournal : BatchOp D → Bool
  | .putJournal .. | .deleteJournal .. => true
  | _ => false

@[simp] theorem isJournal_putJournal (sequence part : Nat) (entry : D) :
    (putJournal sequence part entry).isJournal = true := rfl

@[simp] theorem isJournal_deleteJournal (sequence part : Nat) :
    (deleteJournal sequence part : BatchOp D).isJournal = true := rfl

/-- The operations that the engine writes: rows and the states of the nodes. -/
def isNodeData : BatchOp D → Bool
  | .putMeta .. | .putBlockHash .. | .deleteBlockHash .. | .putJournal .. | .deleteJournal .. =>
    false
  | _ => true

end BatchOp

/-- The order of the keys of the group records: a name and a group key. -/
instance instTransOrdGroup : TransOrd (String × List UInt8) := inferInstance

/-- What storage holds (`MemoryInner`). -/
structure Store where
  /-- (table, block) -/
  raw : BTreeMap (String × BlockNumber) Datum := ∅
  reducerFinalized : BTreeMap (String × List UInt8) Datum := ∅
  /-- (reducer, group key) to (MAP field index, key) -/
  reducerMaps : BTreeMap (String × List UInt8) (BTreeMap (UInt16 × String) Datum) := ∅
  mvStates : BTreeMap (String × List UInt8) Datum := ∅
  metas : BTreeMap String Datum := ∅
  blockHashes : BTreeMap BlockNumber String := ∅
  /-- (sequence, part) -/
  journal : BTreeMap (Nat × Nat) Datum := ∅

namespace Store

/-- One arm of the loop of `commit`. -/
def apply (s : Store) : BatchOp Datum → Store
  | .putRawRows table block data => { s with raw := s.raw.insert (table, block) data }
  | .setReducerFinalized reducer groupKey state =>
    { s with reducerFinalized := s.reducerFinalized.insert (reducer, groupKey) state }
  | .putReducerMapEntry reducer groupKey map key value =>
    let entries := s.reducerMaps[(reducer, groupKey)]?.getD ∅
    { s with reducerMaps := s.reducerMaps.insert (reducer, groupKey) (entries.insert (map, key) value) }
  | .deleteReducerMapEntry reducer groupKey map key =>
    { s with reducerMaps := s.reducerMaps.modify (reducer, groupKey) (·.erase (map, key)) }
  | .putMvState view groupKey state =>
    { s with mvStates := s.mvStates.insert (view, groupKey) state }
  | .putMeta key value => { s with metas := s.metas.insert key value }
  | .deleteMvState view groupKey => { s with mvStates := s.mvStates.erase (view, groupKey) }
  | .deleteRawRowsAfter table after =>
    -- nothing is above `u64::MAX`, where the source deletes nothing
    { s with raw := OrdMap.keep s.raw fun k => !(k.1 == table && decide (after < k.2)) }
  | .deleteRawRows table fromBlock toBlock =>
    { s with
      raw := OrdMap.keep s.raw fun k =>
        !(k.1 == table && decide (fromBlock ≤ k.2 ∧ k.2 ≤ toBlock)) }
  | .putBlockHash block hash => { s with blockHashes := s.blockHashes.insert block hash }
  | .deleteBlockHash block => { s with blockHashes := s.blockHashes.erase block }
  | .putJournal sequence part entry =>
    { s with journal := s.journal.insert (sequence, part) entry }
  | .deleteJournal sequence part => { s with journal := s.journal.erase (sequence, part) }

/-- A commit that storage accepts. -/
def commit (s : Store) (batch : WriteBatch) : Store := batch.foldl apply s

@[simp] theorem commit_nil (s : Store) : s.commit [] = s := rfl

theorem commit_append (s : Store) (b b' : WriteBatch) :
    s.commit (b ++ b') = (s.commit b).commit b' := List.foldl_append

theorem commit_cons (s : Store) (op : BatchOp Datum) (b : WriteBatch) :
    s.commit (op :: b) = (s.apply op).commit b := rfl

/-! ## Content and journal -/

/-- The store without its journal. -/
def content (s : Store) : Store := { s with journal := ∅ }

@[simp] theorem content_content (s : Store) : s.content.content = s.content := rfl

theorem content_apply (s : Store) (op : BatchOp Datum) :
    (s.apply op).content = if op.isJournal then s.content else s.content.apply op := by
  cases op <;> rfl

theorem journal_apply_of_not {op : BatchOp Datum} (h : op.isJournal = false) (s : Store) :
    (s.apply op).journal = s.journal := by
  cases op <;> first | rfl | cases h

/-- The content after a commit is what the data operations of the batch give. -/
theorem content_commit (s : Store) (batch : WriteBatch) :
    (s.commit batch).content = s.content.commit (batch.filter (!·.isJournal)) := by
  induction batch generalizing s with
  | nil => rfl
  | cons op batch ih =>
    rw [commit_cons, ih, content_apply, List.filter_cons]
    by_cases h : op.isJournal
    · rw [if_pos h, if_neg (by simp [h])]
    · rw [if_neg h, if_pos (by simp [h]), commit_cons]

theorem journal_commit_of_not {batch : WriteBatch} (h : ∀ op ∈ batch, op.isJournal = false)
    (s : Store) : (s.commit batch).journal = s.journal := by
  induction batch generalizing s with
  | nil => rfl
  | cons op batch ih =>
    rw [commit_cons, ih fun op' hop' => h op' (List.mem_cons_of_mem op hop'),
      journal_apply_of_not (h op (by simp))]

/-- A commit on the content of a store: data operations do not read the journal. -/
theorem content_commit_of_not {batch : WriteBatch} (h : ∀ op ∈ batch, op.isJournal = false)
    (s : Store) : (s.commit batch).content = s.content.commit batch := by
  rw [content_commit, List.filter_eq_self.mpr]
  intro op hop
  simp [h op hop]

end Store

end Settle
