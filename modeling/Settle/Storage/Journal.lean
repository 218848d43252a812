import Settle.Data.Wire
import Settle.Storage.Batch
import Settle.Storage.Codec

/-!
# The journal format

`src/storage/journal.rs`: the writes of a batch as bytes, and what a reopen reads back of them.
Here the payloads of the operations are bytes, as the journal sees them.

An entry is the concatenation of its operations: a tag, then the fields of the operation in order,
numbers as eight bytes and the others behind their length. `decodeOp` reads what `encodeOp` writes
(`reads_encodeOp`), and accepts nothing else (`canonical_decodeOp`); from these two facts follow
the laws of whole entries (`journal_codec`).

Lengths and numbers are those of a 64-bit build, where every `u64` is a `usize`.
-/

namespace Settle

namespace Journal

open Wire

/-- `BatchOp` with the payloads as the source holds them. -/
abbrev Op := BatchOp Bytes

/-! ## Writing -/

def putU64 (value : Nat) : Bytes := le 8 value

def putBytes (bytes : Bytes) : Bytes := putU64 bytes.length ++ bytes

/-- One arm of the loop of `encode`. -/
def encodeOp : Op → Bytes
  | .putRawRows table block data =>
    0 :: (putBytes (utf8 table) ++ (putU64 block.toNat ++ putBytes data))
  | .setReducerFinalized reducer groupKey state =>
    1 :: (putBytes (utf8 reducer) ++ (putBytes groupKey ++ putBytes state))
  | .putReducerMapEntry reducer groupKey map key value =>
    11 :: (putBytes (utf8 reducer) ++ (putBytes groupKey ++ (putU64 map.toNat ++
      (putBytes (utf8 key) ++ putBytes value))))
  | .deleteReducerMapEntry reducer groupKey map key =>
    12 :: (putBytes (utf8 reducer) ++ (putBytes groupKey ++ (putU64 map.toNat ++
      putBytes (utf8 key))))
  | .putMvState view groupKey state =>
    2 :: (putBytes (utf8 view) ++ (putBytes groupKey ++ putBytes state))
  | .putMeta key value => 3 :: (putBytes (utf8 key) ++ putBytes value)
  | .deleteMvState view groupKey => 4 :: (putBytes (utf8 view) ++ putBytes groupKey)
  | .deleteRawRowsAfter table afterBlock =>
    5 :: (putBytes (utf8 table) ++ putU64 afterBlock.toNat)
  | .deleteRawRows table fromBlock toBlock =>
    10 :: (putBytes (utf8 table) ++ (putU64 fromBlock.toNat ++ putU64 toBlock.toNat))
  | .putBlockHash block hash => 6 :: (putU64 block.toNat ++ putBytes (utf8 hash))
  | .deleteBlockHash block => 7 :: putU64 block.toNat
  | .putJournal sequence part entry =>
    8 :: (putU64 sequence ++ (putU64 part ++ putBytes entry))
  | .deleteJournal sequence part => 9 :: (putU64 sequence ++ putU64 part)

def encode (batch : List Op) : Bytes := batch.flatMap encodeOp

/-- `encoded_len`: the capacity that `encode` asks for. -/
def encodedLen : Op → Nat
  | .putRawRows table _ data => 1 + (8 + (utf8 table).length + 8 + 8 + data.length)
  | .setReducerFinalized reducer groupKey state =>
    1 + (3 * 8 + (utf8 reducer).length + groupKey.length + state.length)
  | .putReducerMapEntry reducer groupKey _ key value =>
    1 + (5 * 8 + (utf8 reducer).length + groupKey.length + (utf8 key).length + value.length)
  | .deleteReducerMapEntry reducer groupKey _ key =>
    1 + (4 * 8 + (utf8 reducer).length + groupKey.length + (utf8 key).length)
  | .putMvState view groupKey state =>
    1 + (3 * 8 + (utf8 view).length + groupKey.length + state.length)
  | .putMeta key value => 1 + (2 * 8 + (utf8 key).length + value.length)
  | .deleteMvState view groupKey => 1 + (2 * 8 + (utf8 view).length + groupKey.length)
  | .deleteRawRowsAfter table _ => 1 + (2 * 8 + (utf8 table).length)
  | .deleteRawRows table _ _ => 1 + (3 * 8 + (utf8 table).length)
  | .putBlockHash _ hash => 1 + (2 * 8 + (utf8 hash).length)
  | .deleteBlockHash _ => 1 + 8
  | .putJournal _ _ entry => 1 + (3 * 8 + entry.length)
  | .deleteJournal _ _ => 1 + 2 * 8

/-! ## Reading -/

def corrupt (what : String) : Error := .storage ("corrupt journal entry: " ++ what)

def takeBytes (n : Nat) : Reader Error Bytes := Wire.take (fun _ => corrupt "truncated") n

def readU8 : Reader Error UInt8 := do
  let bytes ← takeBytes 1
  pure (UInt8.ofNat (ofLe bytes))

def readU64 : Reader Error UInt64 := do
  let bytes ← takeBytes 8
  pure (UInt64.ofNat (ofLe bytes))

def readU16 : Reader Error UInt16 := do
  let n ← readU64
  check (if n.toNat < 2 ^ 16 then .ok (UInt16.ofNat n.toNat)
    else .error (corrupt "Map field index"))

def readBytes : Reader Error Bytes := do
  let len ← readU64
  takeBytes len.toNat

def readString : Reader Error String := do
  let bytes ← readBytes
  check (match fromUtf8 bytes with
    | some s => .ok s
    | none => .error (corrupt "name is not UTF-8"))

/-- One turn of the loop of `decode`. -/
def decodeOp : Reader Error Op := do
  let tag ← readU8
  match tag.toNat with
  | 0 => do
    let table ← readString
    let block ← readU64
    let data ← readBytes
    pure (.putRawRows table block data)
  | 1 => do
    let reducer ← readString
    let groupKey ← readBytes
    let state ← readBytes
    pure (.setReducerFinalized reducer groupKey state)
  | 11 => do
    let reducer ← readString
    let groupKey ← readBytes
    let map ← readU16
    let key ← readString
    let value ← readBytes
    pure (.putReducerMapEntry reducer groupKey map key value)
  | 12 => do
    let reducer ← readString
    let groupKey ← readBytes
    let map ← readU16
    let key ← readString
    pure (.deleteReducerMapEntry reducer groupKey map key)
  | 2 => do
    let view ← readString
    let groupKey ← readBytes
    let state ← readBytes
    pure (.putMvState view groupKey state)
  | 3 => do
    let key ← readString
    let value ← readBytes
    pure (.putMeta key value)
  | 4 => do
    let view ← readString
    let groupKey ← readBytes
    pure (.deleteMvState view groupKey)
  | 5 => do
    let table ← readString
    let afterBlock ← readU64
    pure (.deleteRawRowsAfter table afterBlock)
  | 10 => do
    let table ← readString
    let fromBlock ← readU64
    let toBlock ← readU64
    pure (.deleteRawRows table fromBlock toBlock)
  | 6 => do
    let block ← readU64
    let hash ← readString
    pure (.putBlockHash block hash)
  | 7 => do
    let block ← readU64
    pure (.deleteBlockHash block)
  | 8 => do
    let sequence ← readU64
    let part ← readU64
    let entry ← readBytes
    pure (.putJournal sequence.toNat part.toNat entry)
  | 9 => do
    let sequence ← readU64
    let part ← readU64
    pure (.deleteJournal sequence.toNat part.toNat)
  | _ => check (.error (corrupt ("unknown operation " ++ toString tag.toNat)))

/-! ## What the readers accept -/

theorem readU8_eq_ok {input rest : Bytes} {tag : UInt8} (h : readU8.run input = .ok (tag, rest)) :
    input = tag :: rest := by
  obtain ⟨bytes, mid, htake, hpure⟩ := run_bind_eq_ok h
  obtain ⟨rfl, hlen⟩ := take_eq_ok htake
  cases hpure
  obtain ⟨b, rfl⟩ := List.length_eq_one_iff.mp hlen
  simp [ofLe]

theorem readU64_eq_ok {input rest : Bytes} {n : UInt64} (h : readU64.run input = .ok (n, rest)) :
    input = putU64 n.toNat ++ rest := by
  obtain ⟨bytes, mid, htake, hpure⟩ := run_bind_eq_ok h
  obtain ⟨rfl, hlen⟩ := take_eq_ok htake
  cases hpure
  have hlt : ofLe bytes < 2 ^ 64 := by
    have := ofLe_lt bytes
    rwa [hlen] at this
  have hle := le_ofLe bytes
  rw [hlen] at hle
  rw [putU64, UInt64.toNat_ofNat', Nat.mod_eq_of_lt hlt, hle]

theorem readU16_eq_ok {input rest : Bytes} {n : UInt16} (h : readU16.run input = .ok (n, rest)) :
    input = putU64 n.toNat ++ rest := by
  obtain ⟨m, mid, hread, hcheck⟩ := run_bind_eq_ok h
  obtain ⟨hok, rfl⟩ := check_eq_ok hcheck
  split at hok
  · next hlt =>
    cases hok
    rw [readU64_eq_ok hread, UInt16.toNat_ofNat', Nat.mod_eq_of_lt hlt]
  · cases hok

theorem readBytes_eq_ok {input rest bytes : Bytes} (h : readBytes.run input = .ok (bytes, rest)) :
    input = putBytes bytes ++ rest := by
  obtain ⟨len, mid, hread, htake⟩ := run_bind_eq_ok h
  obtain ⟨rfl, hlen⟩ := take_eq_ok htake
  rw [readU64_eq_ok hread, putBytes, hlen, List.append_assoc]

theorem readString_eq_ok {input rest : Bytes} {s : String}
    (h : readString.run input = .ok (s, rest)) : input = putBytes (utf8 s) ++ rest := by
  obtain ⟨bytes, mid, hread, hcheck⟩ := run_bind_eq_ok h
  obtain ⟨hok, rfl⟩ := check_eq_ok hcheck
  split at hok
  · next hutf =>
    cases hok
    rw [readBytes_eq_ok hread, utf8_of_fromUtf8 hutf]
  · cases hok

/-- **Nothing but encodings is accepted.** -/
theorem canonical_decodeOp : Canonical decodeOp encodeOp := by
  intro input op rest h
  obtain ⟨tag, mid, htag, h⟩ := run_bind_eq_ok h
  have htag' : input = UInt8.ofNat tag.toNat :: mid := by
    rw [UInt8.ofNat_toNat]
    exact readU8_eq_ok htag
  rw [htag']
  -- one case for each tag, in the order of `decodeOp`
  split at h
  · next heq =>
    obtain ⟨table, _, htable, h⟩ := run_bind_eq_ok h
    obtain ⟨block, _, hblock, h⟩ := run_bind_eq_ok h
    obtain ⟨data, _, hdata, h⟩ := run_bind_eq_ok h
    cases h
    rw [heq, readString_eq_ok htable, readU64_eq_ok hblock, readBytes_eq_ok hdata, encodeOp]
    simp [List.append_assoc]
  · next heq =>
    obtain ⟨reducer, _, hreducer, h⟩ := run_bind_eq_ok h
    obtain ⟨groupKey, _, hgroupKey, h⟩ := run_bind_eq_ok h
    obtain ⟨state, _, hstate, h⟩ := run_bind_eq_ok h
    cases h
    rw [heq, readString_eq_ok hreducer, readBytes_eq_ok hgroupKey, readBytes_eq_ok hstate, encodeOp]
    simp [List.append_assoc]
  · next heq =>
    obtain ⟨reducer, _, hreducer, h⟩ := run_bind_eq_ok h
    obtain ⟨groupKey, _, hgroupKey, h⟩ := run_bind_eq_ok h
    obtain ⟨map, _, hmap, h⟩ := run_bind_eq_ok h
    obtain ⟨key, _, hkey, h⟩ := run_bind_eq_ok h
    obtain ⟨value, _, hvalue, h⟩ := run_bind_eq_ok h
    cases h
    rw [heq, readString_eq_ok hreducer, readBytes_eq_ok hgroupKey, readU16_eq_ok hmap,
      readString_eq_ok hkey, readBytes_eq_ok hvalue, encodeOp]
    simp [List.append_assoc]
  · next heq =>
    obtain ⟨reducer, _, hreducer, h⟩ := run_bind_eq_ok h
    obtain ⟨groupKey, _, hgroupKey, h⟩ := run_bind_eq_ok h
    obtain ⟨map, _, hmap, h⟩ := run_bind_eq_ok h
    obtain ⟨key, _, hkey, h⟩ := run_bind_eq_ok h
    cases h
    rw [heq, readString_eq_ok hreducer, readBytes_eq_ok hgroupKey, readU16_eq_ok hmap,
      readString_eq_ok hkey, encodeOp]
    simp [List.append_assoc]
  · next heq =>
    obtain ⟨view, _, hview, h⟩ := run_bind_eq_ok h
    obtain ⟨groupKey, _, hgroupKey, h⟩ := run_bind_eq_ok h
    obtain ⟨state, _, hstate, h⟩ := run_bind_eq_ok h
    cases h
    rw [heq, readString_eq_ok hview, readBytes_eq_ok hgroupKey, readBytes_eq_ok hstate, encodeOp]
    simp [List.append_assoc]
  · next heq =>
    obtain ⟨key, _, hkey, h⟩ := run_bind_eq_ok h
    obtain ⟨value, _, hvalue, h⟩ := run_bind_eq_ok h
    cases h
    rw [heq, readString_eq_ok hkey, readBytes_eq_ok hvalue, encodeOp]
    simp [List.append_assoc]
  · next heq =>
    obtain ⟨view, _, hview, h⟩ := run_bind_eq_ok h
    obtain ⟨groupKey, _, hgroupKey, h⟩ := run_bind_eq_ok h
    cases h
    rw [heq, readString_eq_ok hview, readBytes_eq_ok hgroupKey, encodeOp]
    simp [List.append_assoc]
  · next heq =>
    obtain ⟨table, _, htable, h⟩ := run_bind_eq_ok h
    obtain ⟨afterBlock, _, hafterBlock, h⟩ := run_bind_eq_ok h
    cases h
    rw [heq, readString_eq_ok htable, readU64_eq_ok hafterBlock, encodeOp]
    simp [List.append_assoc]
  · next heq =>
    obtain ⟨table, _, htable, h⟩ := run_bind_eq_ok h
    obtain ⟨fromBlock, _, hfromBlock, h⟩ := run_bind_eq_ok h
    obtain ⟨toBlock, _, htoBlock, h⟩ := run_bind_eq_ok h
    cases h
    rw [heq, readString_eq_ok htable, readU64_eq_ok hfromBlock, readU64_eq_ok htoBlock, encodeOp]
    simp [List.append_assoc]
  · next heq =>
    obtain ⟨block, _, hblock, h⟩ := run_bind_eq_ok h
    obtain ⟨hash, _, hhash, h⟩ := run_bind_eq_ok h
    cases h
    rw [heq, readU64_eq_ok hblock, readString_eq_ok hhash, encodeOp]
    simp [List.append_assoc]
  · next heq =>
    obtain ⟨block, _, hblock, h⟩ := run_bind_eq_ok h
    cases h
    rw [heq, readU64_eq_ok hblock, encodeOp]
    simp
  · next heq =>
    obtain ⟨sequence, _, hsequence, h⟩ := run_bind_eq_ok h
    obtain ⟨part, _, hpart, h⟩ := run_bind_eq_ok h
    obtain ⟨entry, _, hentry, h⟩ := run_bind_eq_ok h
    cases h
    rw [heq, readU64_eq_ok hsequence, readU64_eq_ok hpart, readBytes_eq_ok hentry, encodeOp]
    simp [List.append_assoc]
  · next heq =>
    obtain ⟨sequence, _, hsequence, h⟩ := run_bind_eq_ok h
    obtain ⟨part, _, hpart, h⟩ := run_bind_eq_ok h
    cases h
    rw [heq, readU64_eq_ok hsequence, readU64_eq_ok hpart, encodeOp]
    simp [List.append_assoc]
  · obtain ⟨hok, -⟩ := check_eq_ok h
    cases hok

/-! ## What the readers read -/

theorem reads_tag (tag : UInt8) : Reads readU8 [tag] tag := by
  have h := (reads_take (fun _ => corrupt "truncated") [tag]).map fun bytes =>
    UInt8.ofNat (ofLe bytes)
  have htag : UInt8.ofNat (ofLe [tag]) = tag := by simp [ofLe]
  rw [htag] at h
  exact h

theorem reads_putU64 {n : Nat} (hn : n < 2 ^ 64) : Reads readU64 (putU64 n) (UInt64.ofNat n) := by
  have h := (reads_take (fun _ => corrupt "truncated") (le 8 n)).map fun bytes =>
    UInt64.ofNat (ofLe bytes)
  rw [ofLe_le hn, length_le] at h
  exact h

theorem reads_u64 (n : UInt64) : Reads readU64 (putU64 n.toNat) n := by
  have h := reads_putU64 n.toNat_lt
  rwa [UInt64.ofNat_toNat] at h

theorem reads_u16 (n : UInt16) : Reads readU16 (putU64 n.toNat) n := by
  have hlt := n.toNat_lt
  have hn : n.toNat < 2 ^ 64 := by omega
  have hcheck : Reads (check (if (UInt64.ofNat n.toNat).toNat < 2 ^ 16 then
      .ok (UInt16.ofNat (UInt64.ofNat n.toNat).toNat)
      else .error (corrupt "Map field index"))) [] n := by
    rw [UInt64.toNat_ofNat', Nat.mod_eq_of_lt hn, if_pos hlt, UInt16.ofNat_toNat]
    exact reads_check n
  have h : Reads readU16 (putU64 n.toNat ++ []) n := (reads_putU64 hn).bind hcheck
  rwa [List.append_nil] at h

theorem reads_bytes {bytes : Bytes} (hlen : bytes.length < 2 ^ 64) :
    Reads readBytes (putBytes bytes) bytes := by
  have htake : Reads (takeBytes (UInt64.ofNat bytes.length).toNat) bytes bytes := by
    rw [UInt64.toNat_ofNat', Nat.mod_eq_of_lt hlen]
    exact reads_take _ bytes
  exact (reads_putU64 hlen).bind htake

theorem reads_string {s : String} (hlen : (utf8 s).length < 2 ^ 64) :
    Reads readString (putBytes (utf8 s)) s := by
  have hcheck : Reads (check (match fromUtf8 (utf8 s) with
      | some s => .ok s
      | none => .error (corrupt "name is not UTF-8"))) [] s := by
    rw [fromUtf8_utf8]
    exact reads_check s
  have h : Reads readString (putBytes (utf8 s) ++ []) s := (reads_bytes hlen).bind hcheck
  rwa [List.append_nil] at h

/-- What the types of the source hold: a length is a `usize`, a sequence and a part are `u64`s. -/
def Sized : Op → Prop
  | .putRawRows table _ data => (utf8 table).length < 2 ^ 64 ∧ data.length < 2 ^ 64
  | .setReducerFinalized name groupKey payload | .putMvState name groupKey payload =>
    (utf8 name).length < 2 ^ 64 ∧ groupKey.length < 2 ^ 64 ∧ payload.length < 2 ^ 64
  | .putReducerMapEntry reducer groupKey _ key value =>
    (utf8 reducer).length < 2 ^ 64 ∧ groupKey.length < 2 ^ 64 ∧ (utf8 key).length < 2 ^ 64 ∧
      value.length < 2 ^ 64
  | .deleteReducerMapEntry reducer groupKey _ key =>
    (utf8 reducer).length < 2 ^ 64 ∧ groupKey.length < 2 ^ 64 ∧ (utf8 key).length < 2 ^ 64
  | .putMeta key value => (utf8 key).length < 2 ^ 64 ∧ value.length < 2 ^ 64
  | .deleteMvState view groupKey => (utf8 view).length < 2 ^ 64 ∧ groupKey.length < 2 ^ 64
  | .deleteRawRowsAfter table _ | .deleteRawRows table _ _ => (utf8 table).length < 2 ^ 64
  | .putBlockHash _ hash => (utf8 hash).length < 2 ^ 64
  | .deleteBlockHash _ => True
  | .putJournal sequence part entry =>
    sequence < 2 ^ 64 ∧ part < 2 ^ 64 ∧ entry.length < 2 ^ 64
  | .deleteJournal sequence part => sequence < 2 ^ 64 ∧ part < 2 ^ 64

/-- An operation that the source can hold. -/
abbrev SizedOp := { op : Op // Sized op }

/-- The reader of a sequence or a part: the number is a `u64`. -/
theorem reads_number {n : Nat} (hn : n < 2 ^ 64) {β : Type} {f : UInt64 → Reader Error β}
    {bytes : Bytes} {b : β} (hf : Reads (f (UInt64.ofNat n)) bytes b) :
    Reads (readU64 >>= f) (putU64 n ++ bytes) b := (reads_putU64 hn).bind hf

theorem toNat_ofNat_of_lt {n : Nat} (hn : n < 2 ^ 64) : (UInt64.ofNat n).toNat = n := by
  rw [UInt64.toNat_ofNat', Nat.mod_eq_of_lt hn]

/-- **Every operation reads back**, whatever follows it. -/
theorem reads_encodeOp (op : SizedOp) : Reads decodeOp (encodeOp op.1) op.1 := by
  obtain ⟨op, h⟩ := op
  cases op with
  | putRawRows table block data =>
    exact (reads_tag 0).bind ((reads_string h.1).bind ((reads_u64 block).bind
      ((reads_bytes h.2).map _)))
  | setReducerFinalized reducer groupKey state =>
    exact (reads_tag 1).bind ((reads_string h.1).bind ((reads_bytes h.2.1).bind
      ((reads_bytes h.2.2).map _)))
  | putReducerMapEntry reducer groupKey map key value =>
    exact (reads_tag 11).bind ((reads_string h.1).bind ((reads_bytes h.2.1).bind
      ((reads_u16 map).bind ((reads_string h.2.2.1).bind ((reads_bytes h.2.2.2).map _)))))
  | deleteReducerMapEntry reducer groupKey map key =>
    exact (reads_tag 12).bind ((reads_string h.1).bind ((reads_bytes h.2.1).bind
      ((reads_u16 map).bind ((reads_string h.2.2).map _))))
  | putMvState view groupKey state =>
    exact (reads_tag 2).bind ((reads_string h.1).bind ((reads_bytes h.2.1).bind
      ((reads_bytes h.2.2).map _)))
  | putMeta key value =>
    exact (reads_tag 3).bind ((reads_string h.1).bind ((reads_bytes h.2).map _))
  | deleteMvState view groupKey =>
    exact (reads_tag 4).bind ((reads_string h.1).bind ((reads_bytes h.2).map _))
  | deleteRawRowsAfter table afterBlock =>
    exact (reads_tag 5).bind ((reads_string h).bind ((reads_u64 afterBlock).map _))
  | deleteRawRows table fromBlock toBlock =>
    exact (reads_tag 10).bind ((reads_string h).bind ((reads_u64 fromBlock).bind
      ((reads_u64 toBlock).map _)))
  | putBlockHash block hash =>
    exact (reads_tag 6).bind ((reads_u64 block).bind ((reads_string h).map _))
  | deleteBlockHash block => exact (reads_tag 7).bind ((reads_u64 block).map _)
  | putJournal sequence part entry =>
    have hlast := (reads_bytes h.2.2).map fun entry => (BatchOp.putJournal
      (UInt64.ofNat sequence).toNat (UInt64.ofNat part).toNat entry : Op)
    rw [toNat_ofNat_of_lt h.1, toNat_ofNat_of_lt h.2.1] at hlast
    refine (reads_tag 8).bind (reads_number h.1 (reads_number h.2.1 ?_))
    rwa [toNat_ofNat_of_lt h.1, toNat_ofNat_of_lt h.2.1]
  | deleteJournal sequence part =>
    refine (reads_tag 9).bind (reads_number h.1 ?_)
    have hlast := (reads_putU64 h.2).map fun part => (BatchOp.deleteJournal
      (UInt64.ofNat sequence).toNat part.toNat : Op)
    rw [toNat_ofNat_of_lt h.1, toNat_ofNat_of_lt h.2] at hlast
    rwa [toNat_ofNat_of_lt h.1]

/-! ## Entries -/

/-- An operation takes at least its tag. -/
theorem length_encodeOp_pos (op : Op) : 0 < (encodeOp op).length := by
  cases op <;> exact Nat.succ_pos _

theorem decodeOp_shorter {input rest : Bytes} {op : Op}
    (h : decodeOp.run input = .ok (op, rest)) : rest.length < input.length := by
  have hpos := length_encodeOp_pos op
  rw [canonical_decodeOp input op rest h, List.length_append]
  omega

def decode (input : Bytes) : Except Error (List Op) :=
  if input.isEmpty then .ok []
  else
    match h : decodeOp.run input with
    | .error e => .error e
    | .ok (op, rest) =>
      have : rest.length < input.length := decodeOp_shorter h
      match decode rest with
      | .error e => .error e
      | .ok ops => .ok (op :: ops)
termination_by input.length

theorem decode_nil : decode [] = .ok [] := by
  rw [decode]
  rfl

theorem decode_cons {input rest : Bytes} {op : Op} {ops : List Op}
    (h : decodeOp.run input = .ok (op, rest)) (hrest : decode rest = .ok ops) :
    decode input = .ok (op :: ops) := by
  have hshort := decodeOp_shorter h
  have hne : input.isEmpty = false := by
    cases input with
    | nil => simp at hshort
    | cons b input => rfl
  rw [decode, if_neg (by simp [hne])]
  split
  · next h' =>
    rw [h] at h'
    cases h'
  · next h' =>
    rw [h] at h'
    cases h'
    simp only [hrest]

theorem decode_encode (batch : List SizedOp) :
    decode (encode (batch.map Subtype.val)) = .ok (batch.map Subtype.val) := by
  induction batch with
  | nil => exact decode_nil
  | cons op batch ih => exact decode_cons (reads_encodeOp op _) ih

/-- What is accepted is the encoding of what is read. -/
theorem encode_of_decode {input : Bytes} {ops : List Op} (h : decode input = .ok ops) :
    input = encode ops := by
  induction hn : input.length using Nat.strong_induction_on generalizing input ops with
  | _ n ih =>
    subst hn
    rw [decode] at h
    split at h
    · next hempty =>
      cases h
      exact List.isEmpty_iff.mp hempty
    · split at h
      · cases h
      · next op rest hop =>
        split at h
        · cases h
        · next ops' hrest =>
          cases h
          have htail := ih _ (decodeOp_shorter hop) hrest rfl
          rw [canonical_decodeOp input op rest hop, htail]
          rfl

/-! ## Cuts -/

theorem local_takeBytes (n : Nat) : Local (takeBytes n) := local_take _ n

theorem local_readU64 : Local readU64 :=
  (local_takeBytes 8).bind fun _ => Local.pure _

theorem local_readBytes : Local readBytes :=
  local_readU64.bind fun len => local_takeBytes len.toNat

theorem local_readString : Local readString := local_readBytes.bind fun _ => local_check _

theorem local_readU16 : Local readU16 := local_readU64.bind fun _ => local_check _

theorem local_decodeOp : Local decodeOp := by
  refine Local.bind ((local_takeBytes 1).bind fun _ => Local.pure _) ?_
  intro tag
  -- the fields of each operation, one after the other
  split
  all_goals
    repeat' first
      | exact local_readString
      | exact local_readBytes
      | exact local_readU64
      | exact local_readU16
      | exact Local.pure _
      | exact local_check _
      | refine Local.bind ?_ fun _ => ?_

/-- What a cut of an entry decodes to is what the entry starts with. -/
theorem decode_cut {batch : List SizedOp} {cut more : Bytes} {ops : List Op}
    (h : encode (batch.map Subtype.val) = cut ++ more) (hcut : decode cut = .ok ops) :
    ops = (batch.take ops.length).map Subtype.val := by
  induction batch generalizing cut ops with
  | nil =>
    obtain ⟨rfl, -⟩ := List.append_eq_nil_iff.mp h.symm
    rw [decode_nil] at hcut
    cases hcut
    rfl
  | cons op batch ih =>
    rw [decode] at hcut
    split at hcut
    · cases hcut
      rfl
    · split at hcut
      · cases hcut
      · next op' rest hop =>
        split at hcut
        · cases hcut
        · next ops' hrest =>
          cases hcut
          obtain ⟨used, rfl, hused⟩ := local_decodeOp cut op' rest hop
          have hentry : encodeOp op.1 ++ encode (batch.map Subtype.val)
              = used ++ (rest ++ more) := by
            rw [← List.append_assoc]
            exact h
          obtain ⟨hsame, htail⟩ := (reads_encodeOp op).unique hused hentry
          rw [List.length_cons, List.take_succ_cons, List.map_cons, ← ih htail hrest, hsame]

theorem length_encodeOp (op : Op) : (encodeOp op).length = encodedLen op := by
  cases op <;>
    simp only [encodeOp, encodedLen, putBytes, putU64, List.length_cons, List.length_append,
      length_le] <;> omega

theorem length_encode (batch : List Op) :
    (encode batch).length = (batch.map encodedLen).sum := by
  induction batch with
  | nil => rfl
  | cons op batch ih =>
    rw [encode, List.flatMap_cons, List.length_append, length_encodeOp, List.map_cons,
      List.sum_cons, ← ih]
    rfl

/-- **The journal format.** An entry reads back as its operations and has the length that was asked
for; entries concatenate; a cut of an entry is accepted exactly at the end of an operation, and is
then the entry of the operations before it; and arbitrary bytes are an error, or the entry of what
they decode to. -/
theorem journal_codec :
    (∀ batch : List SizedOp, decode (encode (batch.map Subtype.val)) = .ok (batch.map Subtype.val)) ∧
    (∀ batch : List Op, (encode batch).length = (batch.map encodedLen).sum) ∧
    (∀ batch batch' : List Op, encode (batch ++ batch') = encode batch ++ encode batch') ∧
    (∀ (batch : List SizedOp) (k : Nat) (ops : List Op),
      decode ((encode (batch.map Subtype.val)).take k) = .ok ops ↔
        ∃ n, (encode (batch.map Subtype.val)).take k = encode ((batch.take n).map Subtype.val) ∧
          ops = (batch.take n).map Subtype.val) ∧
    ∀ bytes : Bytes, (∃ batch, decode bytes = .ok batch ∧ encode batch = bytes) ∨
      ∃ e, decode bytes = .error e := by
  refine ⟨decode_encode, length_encode, fun _ _ => List.flatMap_append, ?_, ?_⟩
  · intro batch k ops
    constructor
    · intro hops
      have hprefix := (List.take_append_drop k (encode (batch.map Subtype.val))).symm
      have hcut := decode_cut hprefix hops
      refine ⟨ops.length, ?_, hcut⟩
      rw [← hcut]
      exact encode_of_decode hops
    · intro h
      obtain ⟨n, hn, rfl⟩ := h
      rw [hn]
      exact decode_encode (batch.take n)
  · intro bytes
    cases hdecode : decode bytes with
    | error e => exact Or.inr ⟨e, rfl⟩
    | ok batch => exact Or.inl ⟨batch, rfl, (encode_of_decode hdecode).symm⟩

end Journal

end Settle
