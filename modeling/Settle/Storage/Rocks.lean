import Settle.Data.ByteKeys
import Settle.Storage.Codec
import Settle.Storage.RawReads
import Settle.Db.Calls

/-!
# The RocksDB backend

`src/storage/rocks.rs` beside the memory backend of `src/storage/memory.rs`. RocksDB is a parameter
(`RocksDb`) with three hypotheses: a batch applies its operations in order, all of them, and
`delete_range` covers the keys from its start up to its end; an iterator lists the keys of its range
in the order of their bytes, each once (`RocksDb.Lawful`). So its column families are ordered maps
(`Families`).

`Represents` says how the column families hold a `Store`: each under the encoding of its keys. A
commit keeps it (`Represents.commit`), and under it **every read of the RocksDB backend is the one
of the memory backend** (`rocks_agrees`).
-/

namespace Settle

open Std ByteKeys

/-! ## Keys -/

/-- `raw_table_prefix`, `name_prefix`. -/
def namePrefix (name : String) : Bytes := utf8 name ++ [0]

def rawKey (table : String) (block : BlockNumber) : Bytes := utf8 table ++ 0 :: be 8 block.toNat

/-- `fin_key`, `kv_key`. -/
def kvKey (name : String) (groupKey : Bytes) : Bytes := utf8 name ++ 0 :: groupKey

/-- The prefix of the MAP entries of one group. -/
def mapGroupPrefix (reducer : String) (groupKey : Bytes) : Bytes :=
  utf8 reducer ++ 0 :: (be 4 groupKey.length ++ groupKey)

def mapEntryKey (reducer : String) (groupKey : Bytes) (map : UInt16) (key : String) : Bytes :=
  mapGroupPrefix reducer groupKey ++ (be 2 map.toNat ++ utf8 key)

def journalPrefix : Bytes := namePrefix "journal"

def journalKey (sequence part : Nat) : Bytes := journalPrefix ++ (be 8 sequence ++ be 8 part)

/-- The end of a range of raw rows that goes up to `toBlock`. -/
def rawEnd (table : String) (toBlock : BlockNumber) : Bytes :=
  if toBlock < BlockNumber.max then rawKey table (toBlock + 1) else upperBound (namePrefix table)

/-! ## RocksDB -/

/-- The column families. -/
inductive Family where
  | raw | reducerFin | reducerMap | mv
  /-- the meta keys, and the journal -/
  | metas
  | blockHash
deriving DecidableEq

/-- An operation of a `WriteBatch`. -/
inductive FamilyOp where
  | put (cf : Family) (key : Bytes) (value : Datum)
  | delete (cf : Family) (key : Bytes)
  | deleteRange (cf : Family) (first last : Bytes)

/-- RocksDB, as far as the backend uses it. -/
structure RocksDb where
  State : Type
  empty : State
  /-- `write` -/
  write : State → List FamilyOp → State
  /-- `get_cf` -/
  get : State → Family → Bytes → Option Datum
  /-- an iterator from a key on, with the exclusive upper bound of its read options -/
  iterate : State → Family → Bytes → Option Bytes → List (Bytes × Datum)

/-- The keys from `first` up to the exclusive bound `last`. -/
def inRange (first last k : Bytes) : Bool := (compare first k).isLE && compare k last == .lt

/-- The keys of an iterator. -/
def inBounds (first : Bytes) (last : Option Bytes) (k : Bytes) : Bool :=
  match last with
  | some last => inRange first last k
  | none => (compare first k).isLE

/-- What an operation leaves under a key. -/
def FamilyOp.effect (cf : Family) (key : Bytes) (old : Option Datum) : FamilyOp → Option Datum
  | .put cf' key' value => if cf' = cf ∧ key' = key then some value else old
  | .delete cf' key' => if cf' = cf ∧ key' = key then none else old
  | .deleteRange cf' first last => if cf' = cf ∧ inRange first last key then none else old

/-- What the backend relies on. -/
structure RocksDb.Lawful (db : RocksDb) : Prop where
  get_empty : ∀ cf key, db.get db.empty cf key = none
  /-- a batch applies its operations in order, and all of them; a range has its start and not its
  end -/
  get_write : ∀ s ops cf key,
    db.get (db.write s ops) cf key = ops.foldl (FamilyOp.effect cf key) (db.get s cf key)
  /-- an iterator goes in the order of the bytes -/
  iterate_ordered : ∀ s cf first last,
    (db.iterate s cf first last).Pairwise fun a b => compare a.1 b.1 = .lt
  /-- an iterator lists what is stored in its bounds -/
  iterate_stored : ∀ s cf first last key value, (key, value) ∈ db.iterate s cf first last ↔
    db.get s cf key = some value ∧ inBounds first last key

/-- The operations of the `WriteBatch` for one operation: an arm of the loop of `commit`. -/
def BatchOp.familyOps : BatchOp Datum → List FamilyOp
  | .putRawRows table block data => [.put .raw (rawKey table block) data]
  | .setReducerFinalized reducer groupKey state => [.put .reducerFin (kvKey reducer groupKey) state]
  | .putReducerMapEntry reducer groupKey map key value =>
    [.put .reducerMap (mapEntryKey reducer groupKey map key) value]
  | .deleteReducerMapEntry reducer groupKey map key =>
    [.delete .reducerMap (mapEntryKey reducer groupKey map key)]
  | .putMvState view groupKey state => [.put .mv (kvKey view groupKey) state]
  | .putMeta key value => [.put .metas (utf8 key) value]
  | .deleteMvState view groupKey => [.delete .mv (kvKey view groupKey)]
  | .deleteRawRowsAfter table after =>
    if after < BlockNumber.max then
      [.deleteRange .raw (rawKey table (after + 1)) (upperBound (namePrefix table))]
    else []
  | .deleteRawRows table fromBlock toBlock =>
    if fromBlock ≤ toBlock then [.deleteRange .raw (rawKey table fromBlock) (rawEnd table toBlock)]
    else []
  | .putBlockHash block hash => [.put .blockHash (be 8 block.toNat) (.text hash)]
  | .deleteBlockHash block => [.delete .blockHash (be 8 block.toNat)]
  | .putJournal sequence part entry => [.put .metas (journalKey sequence part) entry]
  | .deleteJournal sequence part => [.delete .metas (journalKey sequence part)]

/-- The loop of `get_raw_rows_limited` over the items of its iterator. -/
def rawItems (start : Bytes) : List (Bytes × Datum) → Except Error (List (BlockNumber × Datum))
  | [] => .ok []
  | (k, data) :: rest =>
    if start.isPrefixOf k then
      let suffix := (k.drop start.length).take 8
      if suffix.length = 8 then do
        let more ← rawItems start rest
        .ok ((UInt64.ofNat (ofBe suffix), data) :: more)
      else .error (.storage "corrupt key: missing block number suffix")
    else .ok []

/-- The loop of `get_reducer_map_entries`. -/
def mapItems (start : Bytes) :
    List (Bytes × Datum) → Except Error (List (UInt16 × String × Datum))
  | [] => .ok []
  | (k, value) :: rest =>
    let corrupt := Error.storage "corrupt key of a MAP entry"
    if start.isPrefixOf k then
      let rest' := k.drop start.length
      if (rest'.take 2).length = 2 then
        match fromUtf8 (rest'.drop 2) with
        | some key => do
          let more ← mapItems start rest
          .ok ((UInt16.ofNat (ofBe (rest'.take 2)), key, value) :: more)
        | none => .error corrupt
      else .error corrupt
    else .error corrupt

/-- The loop of `list_mv_group_keys`. -/
def groupKeyItems (start : Bytes) : List (Bytes × Datum) → List Bytes
  | [] => []
  | (k, _) :: rest =>
    if start.isPrefixOf k then k.drop start.length :: groupKeyItems start rest else []

/-- The loop of `get_block_hashes`. -/
def hashItems : List (Bytes × Datum) → Except Error (List (BlockNumber × String))
  | [] => .ok []
  | (k, data) :: rest =>
    if k.length = 8 then
      match data with
      | .text hash => do
        let more ← hashItems rest
        .ok ((UInt64.ofNat (ofBe k), hash) :: more)
      -- no other payload is the text of a hash
      | _ => .error (.storage ("corrupt hash of block " ++ toString (ofBe k)))
    else .error (.storage "corrupt block hash key")

/-- The loop of `journal`. -/
def journalItems : List (Bytes × Datum) → Except Error (List JournalPart)
  | [] => .ok []
  | (k, entry) :: rest =>
    let numbers := k.drop journalPrefix.length
    if journalPrefix.isPrefixOf k && numbers.length == 16 then do
      let more ← journalItems rest
      .ok ({ sequence := ofBe (numbers.take 8), part := ofBe (numbers.drop 8), entry } :: more)
    else .error (.storage "corrupt journal key")

namespace RocksDb

variable (db : RocksDb)

def commit (s : db.State) (batch : WriteBatch) : db.State :=
  db.write s (batch.flatMap BatchOp.familyOps)

variable (s : db.State)

def getRawRowsLimited (table : String) (fromBlock toBlock : BlockNumber) (maxBlocks : Nat) :
    Except Error (List (BlockNumber × Datum)) :=
  rawItems (namePrefix table)
    ((db.iterate s .raw (rawKey table fromBlock) (some (rawEnd table toBlock))).take maxBlocks)

/-- No limit: `usize::MAX`, more than an iterator lists. -/
def getRawRows (table : String) (fromBlock toBlock : BlockNumber) :
    Except Error (List (BlockNumber × Datum)) :=
  rawItems (namePrefix table)
    (db.iterate s .raw (rawKey table fromBlock) (some (rawEnd table toBlock)))

def getReducerFinalized (reducer : String) (groupKey : Bytes) : Option Datum :=
  db.get s .reducerFin (kvKey reducer groupKey)

/-- An iterator over the keys with a prefix. -/
def iteratePrefix (cf : Family) (start : Bytes) : List (Bytes × Datum) :=
  db.iterate s cf start (some (upperBound start))

/-- Whether an iterator over a name has an item. -/
def hasName (cf : Family) (name : String) : Bool :=
  (db.iteratePrefix s cf (namePrefix name)).head?.isSome

def hasReducerFinalized (reducer : String) : Bool := db.hasName s .reducerFin reducer

def getReducerMapEntries (reducer : String) (groupKey : Bytes) :
    Except Error (List (UInt16 × String × Datum)) :=
  mapItems (mapGroupPrefix reducer groupKey)
    (db.iteratePrefix s .reducerMap (mapGroupPrefix reducer groupKey))

def getMvState (view : String) (groupKey : Bytes) : Option Datum :=
  db.get s .mv (kvKey view groupKey)

def hasMvState (view : String) : Bool := db.hasName s .mv view

def listMvGroupKeys (view : String) : List Bytes :=
  groupKeyItems (namePrefix view) (db.iteratePrefix s .mv (namePrefix view))

def getMeta (key : String) : Option Datum := db.get s .metas (utf8 key)

def getBlockHashes : Except Error (List (BlockNumber × String)) :=
  hashItems (db.iterate s .blockHash [] none)

def journal : Except Error (List JournalPart) :=
  journalItems (db.iteratePrefix s .metas journalPrefix)

end RocksDb

/-! ## The column families as maps -/

structure Families where
  raw : BTreeMap Bytes Datum := ∅
  reducerFin : BTreeMap Bytes Datum := ∅
  reducerMap : BTreeMap Bytes Datum := ∅
  mv : BTreeMap Bytes Datum := ∅
  metas : BTreeMap Bytes Datum := ∅
  blockHash : BTreeMap Bytes Datum := ∅

/-- What an iterator lists of a map. -/
def iterate (cf : BTreeMap Bytes Datum) (first last : Bytes) : List (Bytes × Datum) :=
  cf.toList.filter fun e => inRange first last e.1

/-- `delete_range_cf`. -/
def deleteRange (cf : BTreeMap Bytes Datum) (first last : Bytes) : BTreeMap Bytes Datum :=
  OrdMap.keep cf fun k => !inRange first last k

namespace Families

def get (r : Families) : Family → BTreeMap Bytes Datum
  | .raw => r.raw
  | .reducerFin => r.reducerFin
  | .reducerMap => r.reducerMap
  | .mv => r.mv
  | .metas => r.metas
  | .blockHash => r.blockHash

def modify (r : Families) (cf : Family)
    (f : BTreeMap Bytes Datum → BTreeMap Bytes Datum) : Families :=
  match cf with
  | .raw => { r with raw := f r.raw }
  | .reducerFin => { r with reducerFin := f r.reducerFin }
  | .reducerMap => { r with reducerMap := f r.reducerMap }
  | .mv => { r with mv := f r.mv }
  | .metas => { r with metas := f r.metas }
  | .blockHash => { r with blockHash := f r.blockHash }

def write (r : Families) : FamilyOp → Families
  | .put cf key value => r.modify cf (·.insert key value)
  | .delete cf key => r.modify cf (·.erase key)
  | .deleteRange cf first last => r.modify cf (deleteRange · first last)

def apply (r : Families) (op : BatchOp Datum) : Families := op.familyOps.foldl write r

def commit (r : Families) (batch : WriteBatch) : Families := batch.foldl apply r

theorem get_modify (r : Families) (cf cf' : Family)
    (f : BTreeMap Bytes Datum → BTreeMap Bytes Datum) :
    (r.modify cf f).get cf' = if cf = cf' then f (r.get cf') else r.get cf' := by
  cases cf <;> cases cf' <;> rfl

theorem get_write (r : Families) (op : FamilyOp) (cf : Family) (key : Bytes) :
    ((r.write op).get cf)[key]? = op.effect cf key (r.get cf)[key]? := by
  cases op with
  | put cf' key' value =>
    rw [write, get_modify, FamilyOp.effect]
    by_cases hcf : cf' = cf
    · rw [if_pos hcf, ExtTreeMap.getElem?_insert]
      by_cases hkey : key' = key
      · have hcompare : compare key' key = .eq := by rw [hkey]; exact Std.compare_self
        rw [if_pos hcompare, if_pos ⟨hcf, hkey⟩]
      · rw [if_neg fun h => hkey (LawfulEqCmp.eq_of_compare h), if_neg fun h => hkey h.2]
    · rw [if_neg hcf, if_neg fun h => hcf h.1]
  | delete cf' key' =>
    rw [write, get_modify, FamilyOp.effect]
    by_cases hcf : cf' = cf
    · rw [if_pos hcf, ExtTreeMap.getElem?_erase]
      by_cases hkey : key' = key
      · have hcompare : compare key' key = .eq := by rw [hkey]; exact Std.compare_self
        rw [if_pos hcompare, if_pos ⟨hcf, hkey⟩]
      · rw [if_neg fun h => hkey (LawfulEqCmp.eq_of_compare h), if_neg fun h => hkey h.2]
    · rw [if_neg hcf, if_neg fun h => hcf h.1]
  | deleteRange cf' first last =>
    rw [write, get_modify, FamilyOp.effect]
    by_cases hcf : cf' = cf
    · rw [if_pos hcf, deleteRange, OrdMap.getElem?_keep]
      cases hin : inRange first last key with
      | true => simp [hcf]
      | false => simp
    · rw [if_neg hcf, if_neg fun h => hcf h.1]

theorem get_foldl (r : Families) (ops : List FamilyOp) (cf : Family) (key : Bytes) :
    ((ops.foldl write r).get cf)[key]? = ops.foldl (FamilyOp.effect cf key) (r.get cf)[key]? := by
  induction ops generalizing r with
  | nil => rfl
  | cons op ops ih => rw [List.foldl_cons, List.foldl_cons, ih, get_write]

/-- A batch applies the operations of its `WriteBatch`. -/
theorem commit_eq (r : Families) (batch : WriteBatch) :
    r.commit batch = (batch.flatMap BatchOp.familyOps).foldl write r := by
  rw [List.foldl_flatMap]
  rfl

end Families

/-- The state of a database holds these maps. -/
def RocksDb.Holds (db : RocksDb) (s : db.State) (r : Families) : Prop :=
  ∀ cf key, db.get s cf key = (r.get cf)[key]?

namespace RocksDb.Holds

variable {db : RocksDb} {s : db.State} {r : Families}

theorem empty (hdb : db.Lawful) : db.Holds db.empty {} := by
  intro cf key
  rw [hdb.get_empty]
  cases cf <;> exact ExtTreeMap.getElem?_empty.symm

theorem commit (hdb : db.Lawful) (h : db.Holds s r) (batch : WriteBatch) :
    db.Holds (db.commit s batch) (r.commit batch) := by
  intro cf key
  rw [RocksDb.commit, hdb.get_write, h cf key, Families.commit_eq, Families.get_foldl]

/-- An iterator lists its part of the map. -/
theorem iterate_eq (hdb : db.Lawful) (h : db.Holds s r) (cf : Family) (first : Bytes)
    (last : Option Bytes) :
    db.iterate s cf first last = (r.get cf).toList.filter fun e => inBounds first last e.1 := by
  have hmem : ∀ e, e ∈ db.iterate s cf first last ↔
      e ∈ (r.get cf).toList.filter fun e => inBounds first last e.1 := by
    rintro ⟨key, value⟩
    rw [hdb.iterate_stored, h cf key, List.mem_filter, ExtTreeMap.mem_toList_iff_getElem?_eq_some]
  have hordered := hdb.iterate_ordered s cf first last
  have hordered' : ((r.get cf).toList.filter fun e => inBounds first last e.1).Pairwise
      fun a b => compare a.1 b.1 = .lt := ExtTreeMap.ordered_keys_toList.filter _
  have hirrefl : ∀ {a b : Bytes × Datum}, compare a.1 b.1 = .lt → a ≠ b := by
    rintro a b hlt rfl
    rw [Std.compare_self] at hlt
    cases hlt
  have hperm := (List.perm_ext_iff_of_nodup (hordered.imp hirrefl) (hordered'.imp hirrefl)).mpr hmem
  refine hperm.eq_of_pairwise ?_ hordered hordered'
  intro a b _ _ hab hba
  rw [OrientedCmp.gt_of_lt hab] at hba
  cases hba

theorem iteratePrefix_eq (hdb : db.Lawful) (h : db.Holds s r) (cf : Family) (start : Bytes) :
    db.iteratePrefix s cf start = Settle.iterate (r.get cf) start (upperBound start) :=
  h.iterate_eq hdb cf start _

end RocksDb.Holds

/-! ## The reads of the memory backend -/

namespace Store

/-- The first entry from the empty key of a name on. -/
def hasName (m : BTreeMap (String × Bytes) Datum) (name : String) : Bool :=
  (m.toList.find? fun e => (compare (name, ([] : Bytes)) e.1).isLE).any fun e => e.1.1 == name

def hasReducerFinalized (s : Store) (reducer : String) : Bool := hasName s.reducerFinalized reducer

def getReducerMapEntries (s : Store) (reducer : String) (groupKey : Bytes) :
    List (UInt16 × String × Datum) :=
  (s.reducerMaps[(reducer, groupKey)]?.getD ∅).toList.map fun ((map, key), value) =>
    (map, key, value)

def hasMvState (s : Store) (view : String) : Bool := hasName s.mvStates view

def listMvGroupKeys (s : Store) (view : String) : List Bytes :=
  (s.mvStates.toList.filter fun e => e.1.1 == view).map fun e => e.1.2

def getBlockHashes (s : Store) : List (BlockNumber × String) := s.blockHashes.toList

end Store

/-! ## Encodings -/

/-- A name without a NUL. -/
def NulFree (name : String) : Prop := 0 ∉ utf8 name

instance (name : String) : Decidable (NulFree name) := inferInstanceAs (Decidable (0 ∉ utf8 name))

theorem toNat_lt_be8 (b : BlockNumber) : b.toNat < 256 ^ 8 := by
  have := b.toNat_lt
  omega

theorem be8_injective {b b' : BlockNumber} (h : be 8 b.toNat = be 8 b'.toNat) : b = b' :=
  UInt64.toNat_inj.mp (be_inj (toNat_lt_be8 b) (toNat_lt_be8 b') h)

theorem compare_be8 (b b' : BlockNumber) : compare (be 8 b.toNat) (be 8 b'.toNat) = compare b b' := by
  rw [compare_be (toNat_lt_be8 b) (toNat_lt_be8 b')]
  rcases lt_trichotomy b b' with h | h | h
  · rw [Std.compare_eq_lt.mpr h, Nat.compare_eq_lt.mpr (UInt64.lt_iff_toNat_lt.mp h)]
  · rw [h, Std.compare_self, Std.compare_self]
  · rw [Std.compare_eq_gt.mpr h, Nat.compare_eq_gt.mpr (UInt64.lt_iff_toNat_lt.mp h)]

theorem ofBe_be8 (b : BlockNumber) : UInt64.ofNat (ofBe (be 8 b.toNat)) = b := by
  rw [ofBe_be (toNat_lt_be8 b)]
  simp

theorem kvKey_eq (name : String) (rest : Bytes) : kvKey name rest = namePrefix name ++ rest := by
  simp [kvKey, namePrefix]

theorem rawKey_eq (table : String) (block : BlockNumber) :
    rawKey table block = namePrefix table ++ be 8 block.toNat := kvKey_eq _ _

theorem hasRoom_namePrefix (name : String) : ∃ b ∈ namePrefix name, b ≠ 255 :=
  ⟨0, by simp [namePrefix], by decide⟩

/-- The keys of one name are the keys with its prefix. -/
theorem namePrefix_prefix_iff {name name' : String} (h : NulFree name) (h' : NulFree name')
    (rest : Bytes) : namePrefix name <+: kvKey name' rest ↔ name' = name := by
  rw [namePrefix, kvKey, terminated_prefix_iff h h']
  exact ⟨fun heq => utf8_injective heq.symm, fun heq => by rw [heq]⟩

theorem inRange_namePrefix_iff {name name' : String} (h : NulFree name) (h' : NulFree name')
    (rest : Bytes) :
    inRange (namePrefix name) (upperBound (namePrefix name)) (kvKey name' rest) = true ↔
      name' = name := by
  rw [inRange, Bool.and_eq_true, beq_iff_eq, mem_prefixRange_iff (hasRoom_namePrefix name),
    namePrefix_prefix_iff h h']

theorem compare_rawKey (table : String) (b b' : BlockNumber) :
    compare (rawKey table b) (rawKey table b') = compare b b' := by
  rw [rawKey_eq, rawKey_eq, compare_append_left, compare_be8]

/-- The bound of a range of raw rows is not above the bound of the table. -/
theorem lt_upperBound_of_lt_rawEnd {table : String} {toBlock : BlockNumber} {k : Bytes}
    (h : compare k (rawEnd table toBlock) = .lt) :
    compare k (upperBound (namePrefix table)) = .lt := by
  unfold rawEnd at h
  split at h
  · have hbound := ((mem_prefixRange_iff (hasRoom_namePrefix table) (rawKey table (toBlock + 1))).mpr
      (by rw [rawKey_eq]; exact List.prefix_append _ _)).2
    exact TransCmp.lt_trans h hbound
  · exact h

/-- **A range of raw keys is the range of blocks of one table**, whatever other names start
with it. -/
theorem inRange_rawKey_iff {table table' : String} (h : NulFree table) (h' : NulFree table')
    (fromBlock toBlock block : BlockNumber) :
    inRange (rawKey table fromBlock) (rawEnd table toBlock) (rawKey table' block) = true ↔
      table' = table ∧ fromBlock ≤ block ∧ block ≤ toBlock := by
  rw [inRange, Bool.and_eq_true, beq_iff_eq]
  have hend : compare (rawKey table block) (rawEnd table toBlock) = .lt ↔ block ≤ toBlock := by
    unfold rawEnd
    split
    · next hmax =>
      rw [compare_rawKey, Std.compare_eq_lt]
      exact BlockNumber.lt_succ_iff (ne_of_lt hmax)
    · next hmax =>
      have hle : block ≤ toBlock := le_trans (BlockNumber.le_max block) (not_lt.mp hmax)
      have hbound := ((mem_prefixRange_iff (hasRoom_namePrefix table) (rawKey table block)).mpr
        (by rw [rawKey_eq]; exact List.prefix_append _ _)).2
      simp [hbound, hle]
  have hstart : (compare (rawKey table fromBlock) (rawKey table block)).isLE ↔ fromBlock ≤ block := by
    rw [compare_rawKey, Std.isLE_compare]
  constructor
  · rintro ⟨hlo, hhi⟩
    have hle : (compare (namePrefix table) (rawKey table' block)).isLE := by
      refine TransCmp.isLE_trans ?_ hlo
      rw [rawKey_eq]
      exact isLE_compare_append _ _
    obtain rfl := (namePrefix_prefix_iff h h' _).mp
      ((mem_prefixRange_iff (hasRoom_namePrefix table) _).mp ⟨hle, lt_upperBound_of_lt_rawEnd hhi⟩)
    exact ⟨rfl, hstart.mp hlo, hend.mp hhi⟩
  · rintro ⟨rfl, hlo, hhi⟩
    exact ⟨hstart.mpr hlo, hend.mpr hhi⟩

/-- The key of a MAP entry. -/
abbrev EntryKey := (String × Bytes) × (UInt16 × String)

def entryBytes (k : EntryKey) : Bytes := mapEntryKey k.1.1 k.1.2 k.2.1 k.2.2

/-- A reducer without a NUL, and a group key whose length fits in 4 bytes. -/
def ValidEntry (k : EntryKey) : Prop := NulFree k.1.1 ∧ k.1.2.length < 2 ^ 32

theorem toNat_lt_be2 (m : UInt16) : m.toNat < 256 ^ 2 := by
  have := m.toNat_lt
  omega

/-- The entries of a group are those with its prefix: the length of the group key stands before
it. -/
theorem mapGroupPrefix_prefix_iff {reducer : String} {groupKey : Bytes} {k : EntryKey}
    (hr : NulFree reducer) (hg : groupKey.length < 2 ^ 32) (hk : ValidEntry k) :
    mapGroupPrefix reducer groupKey <+: entryBytes k ↔ k.1 = (reducer, groupKey) := by
  obtain ⟨⟨reducer', groupKey'⟩, map, key⟩ := k
  obtain ⟨hr', hg'⟩ := hk
  simp only at hr' hg'
  constructor
  · rintro ⟨t, ht⟩
    rw [entryBytes, mapEntryKey, mapGroupPrefix, mapGroupPrefix, List.append_assoc,
      List.append_assoc, List.cons_append, List.cons_append] at ht
    obtain ⟨hname, hrest⟩ := terminated_inj hr hr' ht
    rw [List.append_assoc, List.append_assoc] at hrest
    obtain ⟨hlen, hrest⟩ := List.append_inj hrest (by simp)
    have hlen := be_inj (by omega) (by omega) hlen
    obtain ⟨hgk, -⟩ := List.append_inj hrest hlen
    rw [utf8_injective hname, hgk]
  · rintro heq
    cases heq
    exact ⟨be 2 map.toNat ++ utf8 key, rfl⟩

theorem entryBytes_injective {k k' : EntryKey} (hk : ValidEntry k) (hk' : ValidEntry k')
    (h : entryBytes k = entryBytes k') : k = k' := by
  have hpre : mapGroupPrefix k'.1.1 k'.1.2 <+: entryBytes k := by
    rw [h]
    exact ⟨_, rfl⟩
  have hgroup := (mapGroupPrefix_prefix_iff hk'.1 hk'.2 hk).mp hpre
  obtain ⟨⟨reducer, groupKey⟩, map, key⟩ := k
  obtain ⟨⟨reducer', groupKey'⟩, map', key'⟩ := k'
  simp only [Prod.mk.injEq] at hgroup
  obtain ⟨rfl, rfl⟩ := hgroup
  have h := List.append_cancel_left h
  obtain ⟨hmap, hkey⟩ := List.append_inj h (by simp)
  have hmap := UInt16.toNat_inj.mp (be_inj (toNat_lt_be2 map) (toNat_lt_be2 map') hmap)
  have hkey : key = key' := utf8_injective hkey
  rw [hmap, hkey]

/-- A sequence and a part that are `u64`. -/
def ValidPart (k : Nat × Nat) : Prop := k.1 < 2 ^ 64 ∧ k.2 < 2 ^ 64

theorem compare_journalKey {k k' : Nat × Nat} (hk : ValidPart k) (hk' : ValidPart k') :
    compare (journalKey k.1 k.2) (journalKey k'.1 k'.2) = compare k k' := by
  obtain ⟨a, b⟩ := k
  obtain ⟨a', b'⟩ := k'
  have hcat : ∀ x x' y y' : Bytes, x.length = x'.length →
      compare (x ++ y) (x' ++ y') = (compare x x').then (compare y y') := by
    intro x
    induction x with
    | nil =>
      intro x' y y' hlen
      obtain rfl : x' = [] := List.length_eq_zero_iff.mp hlen.symm
      rfl
    | cons c x ih =>
      intro x' y y' hlen
      cases x' with
      | nil => simp at hlen
      | cons c' x' =>
        rw [List.cons_append, List.cons_append, List.compare_cons_cons, List.compare_cons_cons,
          ih x' y y' (by simpa using hlen)]
        cases compare c c' <;> rfl
  rw [journalKey, journalKey, compare_append_left, hcat _ _ _ _ (by simp),
    compare_be (by have := hk.1; simp only at this; omega) (by have := hk'.1; simp only at this; omega),
    compare_be (by have := hk.2; simp only at this; omega) (by have := hk'.2; simp only at this; omega)]
  rfl

/-! ## The representation -/

/-- An operation that the source can be given: names without a NUL, group keys shorter than
2^32 bytes, `u64` sequences. -/
def BatchOp.Valid {D : Type} : BatchOp D → Prop
  | .putRawRows table .. | .deleteRawRowsAfter table _ | .deleteRawRows table .. => NulFree table
  | .setReducerFinalized reducer groupKey _ => NulFree reducer ∧ groupKey.length < 2 ^ 32
  | .putReducerMapEntry reducer groupKey .. | .deleteReducerMapEntry reducer groupKey .. =>
    NulFree reducer ∧ groupKey.length < 2 ^ 32
  | .putMvState view groupKey _ | .deleteMvState view groupKey =>
    NulFree view ∧ groupKey.length < 2 ^ 32
  | .putMeta key _ => NulFree key
  | .putBlockHash .. | .deleteBlockHash _ => True
  | .putJournal sequence part _ | .deleteJournal sequence part => ValidPart (sequence, part)

/-- A key under a name without a NUL. -/
def ValidName {β : Type} (k : String × β) : Prop := NulFree k.1

def rawBytes (k : String × BlockNumber) : Bytes := rawKey k.1 k.2

def kvBytes (k : String × Bytes) : Bytes := kvKey k.1 k.2

def journalBytes (k : Nat × Nat) : Bytes := journalKey k.1 k.2

def hashBytes (b : BlockNumber) : Bytes := be 8 b.toNat

/-- How the column families hold a store. -/
structure Represents (r : Families) (s : Store) : Prop where
  raw : Encoded (fun _ => True) ValidName rawBytes
    (fun k => s.raw[k]?) r.raw
  reducerFin : Encoded (fun _ => True) ValidName kvBytes
    (fun k => s.reducerFinalized[k]?) r.reducerFin
  reducerMap : Encoded (fun _ => True) ValidEntry entryBytes
    (fun k => s.reducerMaps[k.1]?.bind fun entries => entries[k.2]?) r.reducerMap
  mv : Encoded (fun _ => True) ValidName kvBytes
    (fun k => s.mvStates[k]?) r.mv
  metas : Encoded (fun k => 0 ∉ k) NulFree utf8 (fun k => s.metas[k]?) r.metas
  journal : Encoded (fun k => journalPrefix <+: k) ValidPart journalBytes
    (fun k => s.journal[k]?) r.metas
  blockHash : Encoded (fun _ => True) (fun _ => True) hashBytes
    (fun b => s.blockHashes[b]?.map Datum.text) r.blockHash

theorem encoding_raw :
    Encoding (fun _ => True) ValidName rawBytes where
  inj k k' hk hk' h := by
    obtain ⟨hname, hblock⟩ := terminated_inj hk hk' h
    exact Prod.ext (utf8_injective hname) (be8_injective hblock)
  mem _ _ := trivial

theorem encoding_kv :
    Encoding (fun _ => True) ValidName kvBytes where
  inj k k' hk hk' h := by
    obtain ⟨hname, hkey⟩ := terminated_inj hk hk' h
    exact Prod.ext (utf8_injective hname) hkey
  mem _ _ := trivial

theorem encoding_entry : Encoding (fun _ => True) ValidEntry entryBytes where
  inj _ _ hk hk' h := entryBytes_injective hk hk' h
  mem _ _ := trivial

theorem encoding_meta : Encoding (fun k => 0 ∉ k) NulFree utf8 where
  inj _ _ _ _ h := utf8_injective h
  mem _ hk := hk

theorem encoding_journal :
    Encoding (fun k => journalPrefix <+: k) ValidPart journalBytes where
  inj k k' hk hk' h := by
    have hcmp := compare_journalKey hk hk'
    have h : journalKey k.1 k.2 = journalKey k'.1 k'.2 := h
    rw [h, Std.compare_self] at hcmp
    exact LawfulEqCmp.eq_of_compare hcmp.symm
  mem _ _ := ⟨_, rfl⟩

theorem encoding_hash :
    Encoding (fun _ => True) (fun _ => True) hashBytes where
  inj _ _ _ _ h := be8_injective h
  mem _ _ := trivial

section Lookups

variable {α γ : Type} [Ord α] [TransOrd α] [LawfulEqOrd α]

/-- What an insert changes. -/
theorem look_insert (m : ExtTreeMap α γ compare) (a : α) (v : γ) (b : α) :
    (m.insert a v)[b]? = some v ∧ b = a ∨ (m.insert a v)[b]? = m[b]? ∧ b ≠ a := by
  by_cases h : b = a
  · left
    subst h
    simp
  · right
    rw [ExtTreeMap.getElem?_insert, if_neg fun hc => h (LawfulEqCmp.eq_of_compare hc).symm]
    exact ⟨rfl, h⟩

theorem look_erase (m : ExtTreeMap α γ compare) (a b : α) :
    (m.erase a)[b]? = none ∧ b = a ∨ (m.erase a)[b]? = m[b]? ∧ b ≠ a := by
  by_cases h : b = a
  · left
    subst h
    simp
  · right
    rw [ExtTreeMap.getElem?_erase, if_neg fun hc => h (LawfulEqCmp.eq_of_compare hc).symm]
    exact ⟨rfl, h⟩

/-- The same under a map of the payloads. -/
theorem look_insert_map {δ : Type} (g : γ → δ) (m : ExtTreeMap α γ compare) (a : α) (v : γ)
    (b : α) : (m.insert a v)[b]?.map g = some (g v) ∧ b = a ∨
      (m.insert a v)[b]?.map g = m[b]?.map g ∧ b ≠ a := by
  rcases look_insert m a v b with ⟨hv, hb⟩ | ⟨hv, hb⟩
  · exact Or.inl ⟨by rw [hv]; rfl, hb⟩
  · exact Or.inr ⟨by rw [hv], hb⟩

theorem look_erase_map {δ : Type} (g : γ → δ) (m : ExtTreeMap α γ compare) (a b : α) :
    (m.erase a)[b]?.map g = none ∧ b = a ∨ (m.erase a)[b]?.map g = m[b]?.map g ∧ b ≠ a := by
  rcases look_erase m a b with ⟨hv, hb⟩ | ⟨hv, hb⟩
  · exact Or.inl ⟨by rw [hv]; rfl, hb⟩
  · exact Or.inr ⟨by rw [hv], hb⟩

end Lookups

namespace Represents

variable {r : Families} {s : Store}

theorem empty : Represents {} {} where
  raw := by simpa using Encoded.empty
  reducerFin := by simpa using Encoded.empty
  reducerMap := by simpa using Encoded.empty
  mv := by simpa using Encoded.empty
  metas := by simpa using Encoded.empty
  journal := by simpa using Encoded.empty
  blockHash := by simpa using Encoded.empty

/-- A range of blocks of one table goes from both. -/
theorem raw_delete (h : Represents r s) (table : String) (ht : NulFree table)
    (fromBlock toBlock : BlockNumber) {p : String × BlockNumber → Bool}
    (hp : ∀ k, p k = true ↔ ¬ (k.1 = table ∧ fromBlock ≤ k.2 ∧ k.2 ≤ toBlock)) :
    Encoded (fun _ => True) ValidName rawBytes
      (fun k => (OrdMap.keep s.raw p)[k]?)
      (deleteRange r.raw (rawKey table fromBlock) (rawEnd table toBlock)) := by
  refine h.raw.keep ?_ ?_
  · intro k hk
    have hrange : inRange (rawKey table fromBlock) (rawEnd table toBlock) (rawBytes k) = true ↔ _ :=
      inRange_rawKey_iff ht hk fromBlock toBlock k.2
    rw [OrdMap.getElem?_keep]
    by_cases hin : k.1 = table ∧ fromBlock ≤ k.2 ∧ k.2 ≤ toBlock
    · have hpk : p k = false := by
        rw [← Bool.not_eq_true, hp]
        exact not_not.mpr hin
      simp [hpk, hrange.mpr hin]
    · have hpk : p k = true := (hp k).mpr hin
      have hq : inRange (rawKey table fromBlock) (rawEnd table toBlock) (rawBytes k) = false := by
        rw [← Bool.not_eq_true, hrange]
        exact hin
      simp [hpk, hq]
  · intro k hk
    rw [OrdMap.getElem?_keep, hk]
    simp

/-- A write of a meta key leaves the journal. -/
theorem not_journal_of_nulFree {k : Bytes} (h : 0 ∉ k) : ¬ journalPrefix <+: k := by
  rintro ⟨t, rfl⟩
  exact h (by simp [journalPrefix, namePrefix])

/-- A write of one MAP entry of a group. -/
theorem look_putEntry (maps : BTreeMap (String × Bytes) (BTreeMap (UInt16 × String) Datum))
    (group : String × Bytes) (entry : UInt16 × String) (v : Datum) (k : EntryKey) :
    let look (maps : BTreeMap (String × Bytes) (BTreeMap (UInt16 × String) Datum)) :=
      maps[k.1]?.bind fun entries => entries[k.2]?
    let maps' := maps.insert group ((maps[group]?.getD ∅).insert entry v)
    look maps' = some v ∧ k = (group, entry) ∨ look maps' = look maps ∧ k ≠ (group, entry) := by
  dsimp only
  by_cases hg : k.1 = group
  · rcases look_insert (maps[group]?.getD ∅) entry v k.2 with ⟨hv, he⟩ | ⟨hv, he⟩
    · exact Or.inl ⟨by simp [hg, hv], Prod.ext hg he⟩
    · refine Or.inr ⟨?_, fun hk => he (by rw [hk])⟩
      rw [hg]
      cases hm : maps[group]? with
      | none => simpa [hm] using hv
      | some entries => simpa [hm] using hv
  · refine Or.inr ⟨?_, fun hk => hg (by rw [hk])⟩
    rcases look_insert maps group ((maps[group]?.getD ∅).insert entry v) k.1 with ⟨-, he⟩ | ⟨hv, -⟩
    · exact absurd he hg
    · rw [hv]

/-- A delete of one MAP entry of a group. -/
theorem look_deleteEntry (maps : BTreeMap (String × Bytes) (BTreeMap (UInt16 × String) Datum))
    (group : String × Bytes) (entry : UInt16 × String) (k : EntryKey) :
    let look (maps : BTreeMap (String × Bytes) (BTreeMap (UInt16 × String) Datum)) :=
      maps[k.1]?.bind fun entries => entries[k.2]?
    let maps' := maps.modify group (·.erase entry)
    look maps' = none ∧ k = (group, entry) ∨ look maps' = look maps ∧ k ≠ (group, entry) := by
  dsimp only
  rw [ExtTreeMap.getElem?_modify]
  by_cases hg : k.1 = group
  · simp only [hg, Std.compare_self, if_true]
    cases hm : maps[group]? with
    | none =>
      by_cases hk : k = (group, entry)
      · exact Or.inl ⟨rfl, hk⟩
      · exact Or.inr ⟨rfl, hk⟩
    | some entries =>
      rcases look_erase entries entry k.2 with ⟨hv, he⟩ | ⟨hv, he⟩
      · exact Or.inl ⟨by simpa using hv, Prod.ext hg he⟩
      · exact Or.inr ⟨by simpa using hv, fun hk => he (by rw [hk])⟩
  · rw [if_neg fun hc => hg (LawfulEqCmp.eq_of_compare hc).symm]
    exact Or.inr ⟨rfl, fun hk => hg (by rw [hk])⟩

/-- An operation keeps the representation. -/
theorem apply (h : Represents r s) {op : BatchOp Datum} (hop : op.Valid) :
    Represents (r.apply op) (s.apply op) := by
  cases op with
  | putRawRows table block data =>
    exact { h with
      raw := h.raw.insert encoding_raw (a := (table, block)) hop (look_insert s.raw _ data) }
  | setReducerFinalized reducer groupKey state =>
    exact { h with
      reducerFin := h.reducerFin.insert encoding_kv (a := (reducer, groupKey)) hop.1
        (look_insert s.reducerFinalized _ state) }
  | putReducerMapEntry reducer groupKey map key value =>
    exact { h with
      reducerMap := h.reducerMap.insert encoding_entry (a := ((reducer, groupKey), (map, key))) hop
        (look_putEntry s.reducerMaps _ _ value) }
  | deleteReducerMapEntry reducer groupKey map key =>
    exact { h with
      reducerMap := h.reducerMap.erase encoding_entry (a := ((reducer, groupKey), (map, key))) hop
        (look_deleteEntry s.reducerMaps _ _) }
  | putMvState view groupKey state =>
    exact { h with
      mv := h.mv.insert encoding_kv (a := (view, groupKey)) hop.1 (look_insert s.mvStates _ state) }
  | putMeta key value =>
    exact { h with
      metas := h.metas.insert encoding_meta (a := key) hop (look_insert s.metas _ value)
      journal := by
        refine h.journal.congr fun k hk => ?_
        show (r.metas.insert (utf8 key) value)[k]? = _
        rw [ExtTreeMap.getElem?_insert, if_neg]
        intro hc
        exact not_journal_of_nulFree hop (LawfulEqCmp.eq_of_compare hc ▸ hk) }
  | deleteMvState view groupKey =>
    exact { h with
      mv := h.mv.erase encoding_kv (a := (view, groupKey)) hop.1 (look_erase s.mvStates _) }
  | deleteRawRowsAfter table after =>
    by_cases hmax : after < BlockNumber.max
    · have hdelete := h.raw_delete table hop (after + 1) BlockNumber.max
        (p := fun k => !(k.1 == table && decide (after < k.2))) (by
          intro k
          have hle : after + 1 ≤ k.2 ↔ after < k.2 := by
            have := BlockNumber.lt_succ_iff (a := k.2) (ne_of_lt hmax)
            constructor
            · exact fun h => UInt64.not_le.mp fun hn => absurd h (UInt64.not_le.mpr (this.mpr hn))
            · exact fun h => UInt64.not_lt.mp fun hn => absurd h (UInt64.not_lt.mpr (this.mp hn))
          rw [Bool.not_eq_true', Bool.and_eq_false_iff, hle]
          by_cases ht : k.1 = table <;> simp [ht, BlockNumber.le_max])
      have hr : (r.apply (.deleteRawRowsAfter table after)) = { r with
          raw := deleteRange r.raw (rawKey table (after + 1)) (rawEnd table BlockNumber.max) } := by
        simp [Families.apply, BatchOp.familyOps, Families.write, Families.modify, hmax, rawEnd]
      rw [hr]
      exact { h with raw := hdelete }
    · have hnone : (s.apply (.deleteRawRowsAfter table after)).raw = s.raw := by
        refine OrdMap.keep_eq_self s.raw fun k _ => ?_
        have : ¬ after < k.2 := fun hlt =>
          hmax (lt_of_lt_of_le hlt (BlockNumber.le_max _))
        simp [this]
      have hr : r.apply (.deleteRawRowsAfter table after) = r := by
        simp [Families.apply, BatchOp.familyOps, hmax]
      rw [hr]
      exact { h with raw := by rw [hnone]; exact h.raw }
  | deleteRawRows table fromBlock toBlock =>
    by_cases hle : fromBlock ≤ toBlock
    · have hdelete := h.raw_delete table hop fromBlock toBlock
        (p := fun k => !(k.1 == table && decide (fromBlock ≤ k.2 ∧ k.2 ≤ toBlock))) (by
          intro k
          rw [Bool.not_eq_true', Bool.and_eq_false_iff, decide_eq_false_iff_not]
          by_cases ht : k.1 = table <;> simp [ht])
      have hr : (r.apply (.deleteRawRows table fromBlock toBlock)) = { r with
          raw := deleteRange r.raw (rawKey table fromBlock) (rawEnd table toBlock) } := by
        simp [Families.apply, BatchOp.familyOps, Families.write, Families.modify, hle]
      rw [hr]
      exact { h with raw := hdelete }
    · have hnone : (s.apply (.deleteRawRows table fromBlock toBlock)).raw = s.raw := by
        refine OrdMap.keep_eq_self s.raw fun k _ => ?_
        have : ¬ (fromBlock ≤ k.2 ∧ k.2 ≤ toBlock) := fun hk => hle (le_trans hk.1 hk.2)
        simp [this]
      have hr : r.apply (.deleteRawRows table fromBlock toBlock) = r := by
        simp [Families.apply, BatchOp.familyOps, hle]
      rw [hr]
      exact { h with raw := by rw [hnone]; exact h.raw }
  | putBlockHash block hash =>
    exact { h with
      blockHash := h.blockHash.insert encoding_hash (a := block) trivial
        (look_insert_map Datum.text s.blockHashes _ hash) }
  | deleteBlockHash block =>
    exact { h with
      blockHash := h.blockHash.erase encoding_hash (a := block) trivial
        (look_erase_map Datum.text s.blockHashes _) }
  | putJournal sequence part entry =>
    exact { h with
      journal := h.journal.insert encoding_journal (a := (sequence, part)) hop
        (look_insert s.journal _ entry)
      metas := by
        refine h.metas.congr fun k hk => ?_
        show (r.metas.insert (journalKey sequence part) entry)[k]? = _
        rw [ExtTreeMap.getElem?_insert, if_neg]
        intro hc
        exact not_journal_of_nulFree hk (LawfulEqCmp.eq_of_compare hc ▸ ⟨_, rfl⟩) }
  | deleteJournal sequence part =>
    exact { h with
      journal := h.journal.erase encoding_journal (a := (sequence, part)) hop
        (look_erase s.journal _)
      metas := by
        refine h.metas.congr fun k hk => ?_
        show (r.metas.erase (journalKey sequence part))[k]? = _
        rw [ExtTreeMap.getElem?_erase, if_neg]
        intro hc
        exact not_journal_of_nulFree hk (LawfulEqCmp.eq_of_compare hc ▸ ⟨_, rfl⟩) }

/-- A commit keeps the representation. -/
theorem commit (h : Represents r s) {batch : WriteBatch} (hb : ∀ op ∈ batch, op.Valid) :
    Represents (r.commit batch) (s.commit batch) := by
  induction batch generalizing r s with
  | nil => exact h
  | cons op batch ih =>
    exact ih (h.apply (hb op (by simp))) fun op' hop' => hb op' (List.mem_cons_of_mem op hop')

end Represents

/-! ## Reads agree -/

/-- Between two keys of one name, in the order of pairs, are keys of that name only. -/
theorem fst_eq_of_between {name : String} {key key' : Bytes} {x : String × Bytes}
    (h : (compare (name, key) x).isLE) (h' : (compare x (name, key')).isLE) : x.1 = name := by
  have hle : (compare name x.1).isLE := by
    have h : ((compare name x.1).then (compare key x.2)).isLE := h
    cases hc : compare name x.1 <;> simp_all [Ordering.then]
  have hge : (compare x.1 name).isLE := by
    have h' : ((compare x.1 name).then (compare x.2 key')).isLE := h'
    cases hc : compare x.1 name <;> simp_all [Ordering.then]
  have heq : compare x.1 name = .eq := by
    cases hc : compare x.1 name with
    | eq => rfl
    | gt => simp [hc] at hge
    | lt =>
      rw [show compare name x.1 = (compare x.1 name).swap from OrientedCmp.eq_swap, hc] at hle
      simp at hle
  exact LawfulEqCmp.eq_of_compare heq

/-- The memory backend looks at one entry to tell whether a name has any. -/
theorem Store.hasName_iff (m : BTreeMap (String × Bytes) Datum) (name : String) :
    Store.hasName m name = true ↔ ∃ (key : Bytes) (v : Datum), m[(name, key)]? = some v := by
  unfold Store.hasName
  constructor
  · intro h
    cases hf : m.toList.find? fun e => (compare (name, ([] : Bytes)) e.1).isLE with
    | none => simp [hf] at h
    | some e =>
      obtain ⟨⟨n, key⟩, v⟩ := e
      rw [hf] at h
      obtain rfl : n = name := by simpa using h
      exact ⟨key, v, ExtTreeMap.mem_toList_iff_getElem?_eq_some.mp (List.mem_of_find?_eq_some hf)⟩
  · rintro ⟨key, v, hv⟩
    have hmem := ExtTreeMap.mem_toList_iff_getElem?_eq_some.mpr hv
    have hle : (compare (name, ([] : Bytes)) (name, key)).isLE := by
      show ((compare name name).then (compare ([] : Bytes) key)).isLE
      rw [Std.compare_self, Ordering.then]
      exact isLE_compare_append [] key
    cases hf : m.toList.find? fun e => (compare (name, ([] : Bytes)) e.1).isLE with
    | none =>
      have := List.find?_eq_none.mp hf _ hmem
      exact absurd hle this
    | some e =>
      -- the first entry from the empty key on is not above the entry of the name
      obtain ⟨before, after, hlist, hbefore⟩ := List.find?_eq_some_iff_append.mp hf |>.2
      have hfirst : (compare (name, ([] : Bytes)) e.1).isLE := by simpa using List.find?_some hf
      have hlast : (compare e.1 (name, key)).isLE := by
        have hordered := ExtTreeMap.ordered_keys_toList (t := m)
        rw [hlist] at hordered hmem
        rcases List.mem_append.mp hmem with hmem | hmem
        · have := hbefore _ hmem
          simp [hle] at this
        · rcases List.mem_cons.mp hmem with heq | hmem
          · rw [← heq]
            simp
          · have hpair := (List.pairwise_append.mp hordered).2.1
            have := (List.pairwise_cons.mp hpair).1 _ hmem
            simp [this]
      simp [fst_eq_of_between hfirst hlast]

namespace Represents

variable {r : Families} {s : Store}

/-- The items of an iterator over a range of blocks. -/
theorem iterate_raw (h : Represents r s) {table : String} (ht : NulFree table)
    (fromBlock toBlock : BlockNumber) :
    iterate r.raw (rawKey table fromBlock) (rawEnd table toBlock)
      = (s.tableRows table fromBlock toBlock).map fun e => (rawKey table e.1, e.2) := by
  have hscan := h.raw.scan (q := inRange (rawKey table fromBlock) (rawEnd table toBlock))
    (fun _ _ => trivial)
    (l := (s.tableRows table fromBlock toBlock).map fun e => ((table, e.1), e.2)) ?_ ?_
  · rw [iterate, hscan, List.map_map]
    rfl
  · rw [List.pairwise_map]
    refine (s.sorted_tableRows table fromBlock toBlock).imp ?_
    intro a b hab
    show compare (rawKey table a.1) (rawKey table b.1) = .lt
    rw [compare_rawKey, Std.compare_eq_lt]
    exact hab
  · rintro ⟨t, b⟩ d
    rw [List.mem_map]
    constructor
    · rintro ⟨⟨b', d'⟩, hmem, heq⟩
      cases heq
      obtain ⟨hb, hd⟩ := Store.mem_tableRows.mp hmem
      exact ⟨hd, (inRange_rawKey_iff ht ht fromBlock toBlock b').mpr ⟨rfl, hb⟩⟩
    · rintro ⟨hd, hq⟩
      obtain ⟨heq, hb⟩ := (inRange_rawKey_iff ht (h.raw.valid _ _ hd) fromBlock toBlock b).mp hq
      simp only at heq
      subst heq
      exact ⟨(b, d), Store.mem_tableRows.mpr ⟨hb, hd⟩, rfl⟩

theorem rawItems_map (table : String) (rows : List (BlockNumber × Datum)) :
    rawItems (namePrefix table) (rows.map fun e => (rawKey table e.1, e.2)) = .ok rows := by
  induction rows with
  | nil => rfl
  | cons e rows ih =>
    have htake : (be 8 (UInt64.toNat e.1)).take 8 = be 8 (UInt64.toNat e.1) :=
      List.take_of_length_le (by simp)
    rw [List.map_cons, rawItems, ih, rawKey_eq]
    simp [bind, Except.bind, htake, ofBe_be8]

theorem rawRowsLimited (h : Represents r s) {table : String} (ht : NulFree table)
    (fromBlock toBlock : BlockNumber) (maxBlocks : Nat) :
    rawItems (namePrefix table)
        ((iterate r.raw (rawKey table fromBlock) (rawEnd table toBlock)).take maxBlocks)
      = .ok (s.getRawRowsLimited table fromBlock toBlock maxBlocks) := by
  rw [h.iterate_raw ht, ← List.map_take, rawItems_map, Store.getRawRowsLimited_eq]

theorem rawRows (h : Represents r s) {table : String} (ht : NulFree table)
    (fromBlock toBlock : BlockNumber) :
    rawItems (namePrefix table) (iterate r.raw (rawKey table fromBlock) (rawEnd table toBlock))
      = .ok (s.getRawRows table fromBlock toBlock) := by
  rw [h.iterate_raw ht, rawItems_map, Store.getRawRows_eq]

/-- Whether a name has a key, in a column family of groups. -/
theorem hasName_eq {m : BTreeMap (String × Bytes) Datum} {cf : BTreeMap Bytes Datum}
    (h : Encoded (fun _ => True) ValidName kvBytes (fun k => m[k]?) cf) {name : String}
    (hn : NulFree name) :
    (iterate cf (namePrefix name) (upperBound (namePrefix name))).head?.isSome
      = Store.hasName m name := by
  rw [Bool.eq_iff_iff, Store.hasName_iff, List.isSome_head?]
  have hne : ∀ l : List (Bytes × Datum), l ≠ [] ↔ ∃ e, e ∈ l :=
    fun l => ⟨List.exists_mem_of_ne_nil l, fun ⟨_, he⟩ => List.ne_nil_of_mem he⟩
  rw [hne]
  constructor
  · rintro ⟨⟨k, v⟩, hmem⟩
    rw [iterate, List.mem_filter, ExtTreeMap.mem_toList_iff_getElem?_eq_some] at hmem
    obtain ⟨⟨name', key⟩, rfl, hv⟩ := (h.get k v trivial).mp hmem.1
    obtain rfl := (inRange_namePrefix_iff hn (h.valid _ _ hv) key).mp hmem.2
    exact ⟨key, v, hv⟩
  · rintro ⟨key, v, hv⟩
    refine ⟨(kvKey name key, v), ?_⟩
    rw [iterate, List.mem_filter, ExtTreeMap.mem_toList_iff_getElem?_eq_some]
    exact ⟨(h.get (kvKey name key) v trivial).mpr ⟨(name, key), rfl, hv⟩,
      (inRange_namePrefix_iff hn hn key).mpr rfl⟩

theorem groupKeyItems_map (name : String) (rows : List ((String × Bytes) × Datum)) :
    groupKeyItems (namePrefix name) (rows.map fun e => (kvKey name e.1.2, e.2))
      = rows.map fun e => e.1.2 := by
  induction rows with
  | nil => rfl
  | cons e rows ih =>
    rw [List.map_cons, groupKeyItems, ih, kvKey_eq]
    simp

theorem mvGroupKeys (h : Represents r s) {view : String} (hv : NulFree view) :
    groupKeyItems (namePrefix view) (iterate r.mv (namePrefix view) (upperBound (namePrefix view)))
      = s.listMvGroupKeys view := by
  have hscan := h.mv.scan (q := inRange (namePrefix view) (upperBound (namePrefix view)))
    (fun _ _ => trivial) (l := s.mvStates.toList.filter fun e => e.1.1 == view) ?_ ?_
  · rw [iterate, hscan, Store.listMvGroupKeys]
    have hkeys : ((s.mvStates.toList.filter fun e => e.1.1 == view).map
          fun e => (kvBytes e.1, e.2))
        = (s.mvStates.toList.filter fun e => e.1.1 == view).map
          fun e => (kvKey view e.1.2, e.2) := by
      refine List.map_congr_left fun e he => ?_
      have : e.1.1 = view := by simpa using (List.mem_filter.mp he).2
      rw [kvBytes, this]
    rw [hkeys, groupKeyItems_map]
  · refine List.Pairwise.imp_of_mem ?_ (ExtTreeMap.ordered_keys_toList.filter _)
    rintro ⟨⟨n, key⟩, v⟩ ⟨⟨n', key'⟩, v'⟩ hmem hmem' hlt
    obtain rfl : n = view := by simpa using (List.mem_filter.mp hmem).2
    obtain rfl : n' = n := by simpa using (List.mem_filter.mp hmem').2
    have hlt : (compare n' n').then (compare key key') = .lt := hlt
    show compare (kvKey n' key) (kvKey n' key') = .lt
    rw [kvKey_eq, kvKey_eq, compare_append_left]
    simpa [Std.compare_self, Ordering.then] using hlt
  · rintro ⟨n, key⟩ v
    rw [List.mem_filter, ExtTreeMap.mem_toList_iff_getElem?_eq_some]
    refine and_congr_right fun hlook => ?_
    rw [beq_iff_eq]
    exact (inRange_namePrefix_iff hv (h.mv.valid _ _ hlook) key).symm

theorem hashItems_map (hashes : List (BlockNumber × String)) :
    hashItems (hashes.map fun e => (hashBytes e.1, Datum.text e.2)) = .ok hashes := by
  induction hashes with
  | nil => rfl
  | cons e hashes ih =>
    rw [List.map_cons, hashItems, ih, hashBytes]
    simp [bind, Except.bind, ofBe_be8]

theorem blockHashes (h : Represents r s) :
    hashItems r.blockHash.toList = .ok s.getBlockHashes := by
  have hscan := h.blockHash.scan (q := fun _ => true) (fun _ _ => trivial)
    (l := s.blockHashes.toList.map fun e => (e.1, Datum.text e.2)) ?_ ?_
  · rw [List.filter_true, List.map_map] at hscan
    rw [hscan, Store.getBlockHashes]
    exact hashItems_map _
  · rw [List.pairwise_map]
    refine ExtTreeMap.ordered_keys_toList.imp fun {a b} hab => ?_
    rw [hashBytes, hashBytes, compare_be8]
    exact hab
  · intro b data
    rw [List.mem_map, and_iff_left rfl]
    constructor
    · rintro ⟨⟨b', hash⟩, hmem, heq⟩
      cases heq
      rw [ExtTreeMap.mem_toList_iff_getElem?_eq_some.mp hmem]
      rfl
    · intro hlook
      obtain ⟨hash, hhash, rfl⟩ := Option.map_eq_some_iff.mp hlook
      exact ⟨(b, hash), ExtTreeMap.mem_toList_iff_getElem?_eq_some.mpr hhash, rfl⟩

theorem hasRoom_journalPrefix : ∃ b ∈ journalPrefix, b ≠ 255 := hasRoom_namePrefix _

theorem journalItems_map {parts : List ((Nat × Nat) × Datum)}
    (hparts : ∀ e ∈ parts, ValidPart e.1) :
    journalItems (parts.map fun e => (journalBytes e.1, e.2))
      = .ok (parts.map fun e => { sequence := e.1.1, part := e.1.2, entry := e.2 }) := by
  induction parts with
  | nil => rfl
  | cons e parts ih =>
    obtain ⟨hs, hp⟩ := hparts e (by simp)
    have htake : (be 8 e.1.1 ++ be 8 e.1.2).take 8 = be 8 e.1.1 := by
      rw [List.take_append_of_le_length (by simp), List.take_of_length_le (by simp)]
    have hdrop : (be 8 e.1.1 ++ be 8 e.1.2).drop 8 = be 8 e.1.2 := by
      rw [List.drop_append_of_le_length (by simp), List.drop_of_length_le (by simp)]
      rfl
    rw [List.map_cons, journalItems, ih fun e' he' => hparts e' (List.mem_cons_of_mem e he'),
      journalBytes, journalKey]
    simp [bind, Except.bind, htake, hdrop, ofBe_be (w := 8) (n := e.1.1) (by omega),
      ofBe_be (w := 8) (n := e.1.2) (by omega)]

theorem journalParts (h : Represents r s) :
    journalItems (iterate r.metas journalPrefix (upperBound journalPrefix))
      = .ok s.journalParts := by
  have hvalid : ∀ e ∈ s.journal.toList, ValidPart e.1 := fun e he =>
    h.journal.valid e.1 e.2 (ExtTreeMap.mem_toList_iff_getElem?_eq_some.mp he)
  have hscan := h.journal.scan (q := inRange journalPrefix (upperBound journalPrefix)) ?_
    (l := s.journal.toList) ?_ ?_
  · rw [iterate, hscan, journalItems_map hvalid]
    rfl
  · intro k hk
    rw [inRange, Bool.and_eq_true, beq_iff_eq] at hk
    exact (mem_prefixRange_iff hasRoom_journalPrefix k).mp hk
  · refine List.Pairwise.imp_of_mem ?_ ExtTreeMap.ordered_keys_toList
    intro a b ha hb hab
    show compare (journalKey a.1.1 a.1.2) (journalKey b.1.1 b.1.2) = .lt
    rw [compare_journalKey (hvalid a ha) (hvalid b hb)]
    exact hab
  · intro k v
    rw [ExtTreeMap.mem_toList_iff_getElem?_eq_some]
    refine (and_iff_left ?_).symm
    rw [inRange, Bool.and_eq_true, beq_iff_eq]
    exact (mem_prefixRange_iff hasRoom_journalPrefix _).mpr ⟨_, rfl⟩

theorem hasRoom_mapGroupPrefix (reducer : String) (groupKey : Bytes) :
    ∃ b ∈ mapGroupPrefix reducer groupKey, b ≠ 255 :=
  ⟨0, by simp [mapGroupPrefix], by decide⟩

/-- The loop over the entries of a group reads back each entry. -/
theorem mapItems_ok (reducer : String) (groupKey : Bytes) (items : List (Bytes × Datum))
    (h : ∀ e ∈ items, ∃ map key, e.1 = mapEntryKey reducer groupKey map key) :
    ∃ entries, mapItems (mapGroupPrefix reducer groupKey) items = .ok entries ∧
      items = entries.map fun e => (mapEntryKey reducer groupKey e.1 e.2.1, e.2.2) := by
  induction items with
  | nil => exact ⟨[], rfl, rfl⟩
  | cons e items ih =>
    obtain ⟨k, v⟩ := e
    obtain ⟨map, key, rfl⟩ := h (k, v) (by simp)
    obtain ⟨entries, hok, rfl⟩ := ih fun e' he' => h e' (List.mem_cons_of_mem _ he')
    refine ⟨(map, key, v) :: entries, ?_, rfl⟩
    have htake : (be 2 map.toNat ++ utf8 key).take 2 = be 2 map.toNat := by
      rw [List.take_append_of_le_length (by simp), List.take_of_length_le (by simp)]
    have hdrop : (be 2 map.toNat ++ utf8 key).drop 2 = utf8 key := by
      rw [List.drop_append_of_le_length (by simp), List.drop_of_length_le (by simp)]
      rfl
    rw [mapItems, mapEntryKey, hok]
    simp [bind, Except.bind, htake, hdrop, fromUtf8_utf8, ofBe_be (toNat_lt_be2 map)]

theorem reducerMapEntries (h : Represents r s) {reducer : String} {groupKey : Bytes}
    (hr : NulFree reducer) (hg : groupKey.length < 2 ^ 32) :
    ∃ entries, mapItems (mapGroupPrefix reducer groupKey)
        (iterate r.reducerMap (mapGroupPrefix reducer groupKey)
          (upperBound (mapGroupPrefix reducer groupKey))) = .ok entries ∧
      entries.Perm (s.getReducerMapEntries reducer groupKey) := by
  have hitems : ∀ k v, (k, v) ∈ iterate r.reducerMap (mapGroupPrefix reducer groupKey)
        (upperBound (mapGroupPrefix reducer groupKey)) ↔
      ∃ map key, k = mapEntryKey reducer groupKey map key ∧
        (s.reducerMaps[(reducer, groupKey)]?.bind fun entries => entries[(map, key)]?) = some v := by
    intro k v
    rw [iterate, List.mem_filter, ExtTreeMap.mem_toList_iff_getElem?_eq_some,
      h.reducerMap.get k v trivial, inRange, Bool.and_eq_true, beq_iff_eq,
      mem_prefixRange_iff (hasRoom_mapGroupPrefix reducer groupKey)]
    constructor
    · rintro ⟨⟨⟨group, map, key⟩, rfl, hv⟩, hpre⟩
      have hgroup := (mapGroupPrefix_prefix_iff hr hg (h.reducerMap.valid _ _ hv)).mp hpre
      simp only at hgroup
      subst hgroup
      exact ⟨map, key, rfl, hv⟩
    · rintro ⟨map, key, rfl, hv⟩
      exact ⟨⟨((reducer, groupKey), map, key), rfl, hv⟩, ⟨_, rfl⟩⟩
  obtain ⟨entries, hok, hmap⟩ := mapItems_ok reducer groupKey
    (iterate r.reducerMap (mapGroupPrefix reducer groupKey)
      (upperBound (mapGroupPrefix reducer groupKey))) (by
        rintro ⟨k, v⟩ he
        obtain ⟨map, key, rfl, -⟩ := (hitems k v).mp he
        exact ⟨map, key, rfl⟩)
  refine ⟨entries, hok, ?_⟩
  -- both lists have no duplicates, and the same members
  have hnodup : entries.Nodup := by
    have hiter : (iterate r.reducerMap (mapGroupPrefix reducer groupKey)
        (upperBound (mapGroupPrefix reducer groupKey))).Nodup :=
      (List.Nodup.of_map _ (OrdMap.nodup_keys r.reducerMap)).filter _
    rw [hmap] at hiter
    exact List.Nodup.of_map _ hiter
  have hnodup' : (s.getReducerMapEntries reducer groupKey).Nodup := by
    refine List.Nodup.map ?_ (List.Nodup.of_map _ (OrdMap.nodup_keys _))
    rintro ⟨⟨map, key⟩, v⟩ ⟨⟨map', key'⟩, v'⟩ heq
    simpa [and_assoc] using heq
  rw [List.perm_ext_iff_of_nodup hnodup hnodup']
  rintro ⟨map, key, v⟩
  have hleft : (map, key, v) ∈ entries ↔ (mapEntryKey reducer groupKey map key, v) ∈
      iterate r.reducerMap (mapGroupPrefix reducer groupKey)
        (upperBound (mapGroupPrefix reducer groupKey)) := by
    rw [hmap, List.mem_map]
    constructor
    · exact fun he => ⟨_, he, rfl⟩
    · rintro ⟨⟨map', key', v'⟩, he, heq⟩
      rw [Prod.mk.injEq] at heq
      have hkey : (((reducer, groupKey), map', key') : EntryKey) = ((reducer, groupKey), map, key) :=
        entryBytes_injective ⟨hr, hg⟩ ⟨hr, hg⟩ heq.1
      cases hkey
      obtain rfl : v' = v := heq.2
      exact he
  have hright : (map, key, v) ∈ s.getReducerMapEntries reducer groupKey ↔
      (s.reducerMaps[(reducer, groupKey)]?.bind fun entries => entries[(map, key)]?) = some v := by
    rw [Store.getReducerMapEntries, List.mem_map]
    cases hm : s.reducerMaps[(reducer, groupKey)]? with
    | none => simp
    | some entries =>
      simp only [Option.getD_some, Option.bind_some]
      rw [← ExtTreeMap.mem_toList_iff_getElem?_eq_some]
      constructor
      · rintro ⟨⟨⟨map', key'⟩, v'⟩, he, heq⟩
        cases heq
        exact he
      · exact fun he => ⟨_, he, rfl⟩
  rw [hleft, hright, hitems]
  constructor
  · rintro ⟨map', key', heq, hv⟩
    have hkey : (((reducer, groupKey), map, key) : EntryKey) = ((reducer, groupKey), map', key') :=
      entryBytes_injective ⟨hr, hg⟩ ⟨hr, hg⟩ heq
    cases hkey
    exact hv
  · exact fun hv => ⟨map, key, rfl, hv⟩

end Represents

/-- The reads of the two backends. -/
structure Agrees (db : RocksDb) (r : db.State) (s : Store) : Prop where
  rawRowsLimited : ∀ table fromBlock toBlock maxBlocks, NulFree table → fromBlock ≤ toBlock →
    db.getRawRowsLimited r table fromBlock toBlock maxBlocks
      = .ok (s.getRawRowsLimited table fromBlock toBlock maxBlocks)
  rawRows : ∀ table fromBlock toBlock, NulFree table → fromBlock ≤ toBlock →
    db.getRawRows r table fromBlock toBlock = .ok (s.getRawRows table fromBlock toBlock)
  reducerFinalized : ∀ reducer groupKey, NulFree reducer →
    db.getReducerFinalized r reducer groupKey = s.reducerFinalized[(reducer, groupKey)]?
  hasReducerFinalized : ∀ reducer, NulFree reducer →
    db.hasReducerFinalized r reducer = s.hasReducerFinalized reducer
  /-- as a set: the entries come in another order -/
  reducerMapEntries : ∀ reducer groupKey, NulFree reducer → groupKey.length < 2 ^ 32 →
    ∃ entries, db.getReducerMapEntries r reducer groupKey = .ok entries ∧
      entries.Perm (s.getReducerMapEntries reducer groupKey)
  mvState : ∀ view groupKey, NulFree view →
    db.getMvState r view groupKey = s.mvStates[(view, groupKey)]?
  hasMvState : ∀ view, NulFree view → db.hasMvState r view = s.hasMvState view
  mvGroupKeys : ∀ view, NulFree view → db.listMvGroupKeys r view = s.listMvGroupKeys view
  metas : ∀ key, NulFree key → db.getMeta r key = s.metas[key]?
  blockHashes : db.getBlockHashes r = .ok s.getBlockHashes
  journal : db.journal r = .ok s.journalParts

/-- Every read agrees. -/
theorem Represents.agrees {db : RocksDb} (hdb : db.Lawful) {state : db.State} {r : Families}
    {s : Store} (hr : db.Holds state r) (h : Represents r s) : Agrees db state s where
  rawRowsLimited table fromBlock toBlock maxBlocks ht _ := by
    rw [RocksDb.getRawRowsLimited, hr.iterate_eq hdb]
    exact h.rawRowsLimited ht fromBlock toBlock maxBlocks
  rawRows table fromBlock toBlock ht _ := by
    rw [RocksDb.getRawRows, hr.iterate_eq hdb]
    exact h.rawRows ht fromBlock toBlock
  reducerFinalized reducer groupKey hn := by
    rw [RocksDb.getReducerFinalized, hr]
    exact h.reducerFin.lookup encoding_kv (a := (reducer, groupKey)) hn
  hasReducerFinalized reducer hn := by
    rw [RocksDb.hasReducerFinalized, RocksDb.hasName, hr.iteratePrefix_eq hdb]
    exact hasName_eq h.reducerFin hn
  reducerMapEntries reducer groupKey hn hg := by
    rw [RocksDb.getReducerMapEntries, hr.iteratePrefix_eq hdb]
    exact h.reducerMapEntries hn hg
  mvState view groupKey hn := by
    rw [RocksDb.getMvState, hr]
    exact h.mv.lookup encoding_kv (a := (view, groupKey)) hn
  hasMvState view hn := by
    rw [RocksDb.hasMvState, RocksDb.hasName, hr.iteratePrefix_eq hdb]
    exact hasName_eq h.mv hn
  mvGroupKeys view hn := by
    rw [RocksDb.listMvGroupKeys, hr.iteratePrefix_eq hdb]
    exact h.mvGroupKeys hn
  metas key hk := by
    rw [RocksDb.getMeta, hr]
    exact h.metas.lookup encoding_meta hk
  blockHashes := by
    rw [RocksDb.getBlockHashes, hr.iterate_eq hdb, List.filter_eq_self.mpr]
    · exact h.blockHashes
    · exact fun e _ => isLE_compare_append [] e.1
  journal := by
    rw [RocksDb.journal, hr.iteratePrefix_eq hdb]
    exact h.journalParts

/-- **The backends agree**: after any sequence of committed batches, every read of the RocksDB
backend answers as the one of the memory backend. -/
theorem rocks_agrees (db : RocksDb) (hdb : db.Lawful) (batches : List WriteBatch)
    (h : ∀ batch ∈ batches, ∀ op ∈ batch, op.Valid) :
    Agrees db (batches.foldl db.commit db.empty) (batches.foldl Store.commit {}) := by
  have key : ∀ (batches : List WriteBatch) (state : db.State) (r : Families) (s : Store),
      db.Holds state r → Represents r s → (∀ batch ∈ batches, ∀ op ∈ batch, op.Valid) →
      Agrees db (batches.foldl db.commit state) (batches.foldl Store.commit s) := by
    intro batches
    induction batches with
    | nil => exact fun state r s hr hs _ => hs.agrees hdb hr
    | cons batch batches ih =>
      intro state r s hr hs hb
      exact ih _ _ _ (hr.commit hdb batch) (hs.commit (hb batch (by simp))) fun b hb' =>
        hb b (List.mem_cons_of_mem _ hb')
  exact key batches db.empty {} {} (.empty hdb) Represents.empty h

/-- A database that is its column families. -/
def orderedMaps : RocksDb where
  State := Families
  empty := {}
  write r ops := ops.foldl Families.write r
  get r cf key := (r.get cf)[key]?
  iterate r cf first last := (r.get cf).toList.filter fun e => inBounds first last e.1

theorem orderedMaps_lawful : orderedMaps.Lawful where
  get_empty cf key := by cases cf <;> exact ExtTreeMap.getElem?_empty
  get_write r ops cf key := Families.get_foldl r ops cf key
  iterate_ordered _ _ _ _ := ExtTreeMap.ordered_keys_toList.filter _
  iterate_stored r cf first last key value := by
    show _ ∈ List.filter _ _ ↔ _
    rw [List.mem_filter, ExtTreeMap.mem_toList_iff_getElem?_eq_some]
    rfl

/-- Two tables of which one name starts with the other, a group key of `0xff` bytes, the last
block. -/
def nestedNames : WriteBatch :=
  [.putRawRows "t" BlockNumber.max (.number 1), .putRawRows "tt" 0 (.number 2),
    .putReducerMapEntry "r" [255, 255] 0 "" (.number 3), .deleteRawRows "t" 0 5,
    .putBlockHash 7 "a"]

theorem rocks_agrees_nested_names :
    (∀ batch ∈ [nestedNames, [.deleteBlockHash 6]], ∀ op ∈ batch, op.Valid) ∧
    Agrees orderedMaps ([nestedNames, [.deleteBlockHash 6]].foldl orderedMaps.commit {})
      ([nestedNames, [.deleteBlockHash 6]].foldl Store.commit {}) := by
  have hvalid : ∀ batch ∈ [nestedNames, [.deleteBlockHash 6]], ∀ op ∈ batch, op.Valid := by
    have ht : NulFree "t" := by decide +kernel
    have htt : NulFree "tt" := by decide +kernel
    have hr : NulFree "r" := by decide +kernel
    simp [nestedNames, BatchOp.Valid, ht, htt, hr]
  exact ⟨hvalid, rocks_agrees orderedMaps orderedMaps_lawful _ hvalid⟩

end Settle
