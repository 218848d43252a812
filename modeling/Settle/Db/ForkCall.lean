import Settle.Db.CommitOrder
import Settle.Db.ForkDetection

/-!
# The law of `handle_fork`

A fork call goes back to the highest supplied cursor that the record holds between finality and
the latest block. `HandleForkLaw` is what it should do; `handle_fork_law` says when it does.
It does not on a database without blocks whose record holds a supplied block 0 (a heartbeat put
it there), since the latest block then reads as 0; and at block `u64::MAX`, whose successor wraps,
it drops every hash.
-/

namespace Settle

open Std

variable {R V : Type} [ReducerNode R] [ViewNode V]

/-! ## Rows of the queue -/

/-- An operation on raw rows. -/
def BatchOp.isRaw {D : Type} : BatchOp D → Bool
  | .putRawRows .. | .deleteRawRowsAfter .. | .deleteRawRows .. => true
  | _ => false

theorem Store.raw_commit_of_not {batch : WriteBatch} (h : ∀ op ∈ batch, op.isRaw = false)
    (s : Store) : (s.commit batch).raw = s.raw := by
  induction batch generalizing s with
  | nil => rfl
  | cons op batch ih =>
    rw [Store.commit_cons, ih fun op' hop' => h op' (List.mem_cons_of_mem op hop')]
    have hop := h op (by simp)
    cases op <;> first | rfl | cases hop

namespace Db

/-- The store once every queued batch commits. -/
def settled (db : Db (SettleEngine R V)) (store : Store) : Store :=
  store.commit (db.pending.map PendingAck.writeBatch).flatten

omit [ReducerNode R] [ViewNode V] in
theorem settled_content (db : Db (SettleEngine R V)) (store : Store) :
    (db.settled store).content = store.content.commit
      ((db.pending.map PendingAck.writeBatch).flatten.filter (!·.isJournal)) :=
  Store.content_commit _ _

omit [ReducerNode R] [ViewNode V] in
/-- The end of a call adds its write set to what the queue brings to disk. -/
theorem Finished.settled {db db' : Db (SettleEngine R V)} {store store' : Store} {w : WriteBatch}
    {batch : Option ChangeBatch} (hw : DataOnly w) (h : Finished db db' store w batch store') :
    (db'.settled store').content = (db.settled store).content.commit w := by
  have hdata := (filter_data hw).1
  rw [settled_content, settled_content]
  cases h with
  | commit hq hq' =>
    rw [hq, hq', Store.content_commit_of_not hw]
    rfl
  | join init newest checkpoint hq hq' =>
    rw [hq, hq', content_journalPart, ← Store.commit_append]
    congr 1
    simp only [PendingAck.join, List.map_append, List.flatten_append, List.filter_append,
      List.map_cons, List.map_nil, List.flatten_cons, List.flatten_nil, List.append_nil, hdata]
    cases db.journal <;> simp
  | push b checkpoint hq' =>
    rw [hq', content_journalPart, ← Store.commit_append]
    congr 1
    simp only [List.map_append, List.flatten_append, List.filter_append,
      List.map_cons, List.map_nil, List.flatten_cons, List.flatten_nil, List.append_nil, hdata]
    cases db.journal <;> simp

/-- The end of a call changes nothing of the engine but the number of the last checkpoint on
disk. -/
theorem finishCall_engine (db : Db (SettleEngine R V)) (store : Store)
    (commitFault syncFault : Outcome) (w : WriteBatch) (batch : Option ChangeBatch)
    (call : String) :
    ∃ n, (db.finishCall store commitFault syncFault w batch call).1.engine
      = { db.engine with committedCheckpoint := n } := by
  have hwrite : ∀ sf sequence part sync,
      (db.writeJournal store commitFault sf sequence part w sync).1.engine = db.engine := by
    intro sf sequence part sync
    unfold writeJournal
    cases commitFault with
    | some e => rfl
    | none => cases sync <;> cases sf <;> rfl
  cases batch with
  | some batch =>
    refine ⟨db.engine.committedCheckpoint, ?_⟩
    have hw := hwrite syncFault batch.sequence 0 true
    simp only [finishCall, pushPending]
    split
    · split
      · next hr =>
        rw [hr] at hw
        exact hw
      · next hr =>
        rw [hr] at hw
        exact hw
    · rfl
  | none =>
    simp only [finishCall, commitWithoutBatch]
    split
    · next newest _ =>
      refine ⟨db.engine.committedCheckpoint, ?_⟩
      have hw := hwrite none newest.sequence (newest.joined + 1) false
      split
      · split
        · next hr =>
          rw [hr] at hw
          exact hw
        · next hr =>
          rw [hr] at hw
          exact hw
      · rfl
    · cases commitFault with
      | some e => exact ⟨db.engine.committedCheckpoint, rfl⟩
      | none => exact ⟨max db.engine.committedCheckpoint db.engine.checkpoints, rfl⟩

end Db

/-! ## The hashes of a call -/

namespace SettleEngine

omit [ReducerNode R] [ViewNode V] in
/-- Storing cursors changes the record only. -/
theorem setRollbackChain_frame (e : SettleEngine R V) (chain : List (BlockNumber × String)) :
    (e.setRollbackChain chain).latestBlock = e.latestBlock ∧
    (e.setRollbackChain chain).finalizedBlock = e.finalizedBlock ∧
    (e.setRollbackChain chain).nodes = e.nodes := by
  induction chain generalizing e with
  | nil => exact ⟨rfl, rfl, rfl⟩
  | cons c chain ih =>
    have hstep : e.setRollbackChain (c :: chain) = setRollbackChain
        (if e.blockHashes[c.1]? = some c.2 then e
        else { e with
          blockHashes := e.blockHashes.insert c.1 c.2
          hashChanges := e.hashChanges.insert c.1 }) chain := rfl
    rw [hstep]
    split
    · exact ih e
    · exact ih _

/-- At most one hash per block. -/
def OneHash (chain : List (BlockNumber × String)) : Prop :=
  ∀ b h h', (b, h) ∈ chain → (b, h') ∈ chain → h = h'

omit [ReducerNode R] [ViewNode V] in
/-- The record after storing cursors: theirs, and the old hashes of the other blocks. -/
theorem setRollbackChain_hashes {chain : List (BlockNumber × String)} (hone : OneHash chain)
    (e : SettleEngine R V) (b : BlockNumber) :
    (∀ h, (b, h) ∈ chain → (e.setRollbackChain chain).blockHashes[b]? = some h) ∧
    ((∀ h, (b, h) ∉ chain) →
      (e.setRollbackChain chain).blockHashes[b]? = e.blockHashes[b]?) := by
  induction chain generalizing e with
  | nil => simp [setRollbackChain]
  | cons c chain ih =>
    have hone' : OneHash chain := fun b h h' hm hm' =>
      hone b h h' (List.mem_cons_of_mem _ hm) (List.mem_cons_of_mem _ hm')
    have hstep : e.setRollbackChain (c :: chain) = setRollbackChain
        (if e.blockHashes[c.1]? = some c.2 then e
        else { e with
          blockHashes := e.blockHashes.insert c.1 c.2
          hashChanges := e.hashChanges.insert c.1 }) chain := rfl
    -- the record after the first cursor
    have hfirst : ∀ b, (if e.blockHashes[c.1]? = some c.2 then e
        else { e with
          blockHashes := e.blockHashes.insert c.1 c.2
          hashChanges := e.hashChanges.insert c.1 }).blockHashes[b]?
          = if c.1 = b then some c.2 else e.blockHashes[b]? := by
      intro b
      split
      · next hsame =>
        split
        · next hb => rw [← hb, hsame]
        · rfl
      · simp only [ExtTreeMap.getElem?_insert, Std.compare_eq_iff_eq]
    obtain ⟨hin, hout⟩ := ih hone' (if e.blockHashes[c.1]? = some c.2 then e
        else { e with
          blockHashes := e.blockHashes.insert c.1 c.2
          hashChanges := e.hashChanges.insert c.1 })
    rw [hstep]
    constructor
    · intro h hmem
      by_cases hrest : ∃ h', (b, h') ∈ chain
      · obtain ⟨h', hrest⟩ := hrest
        rw [hin h' hrest, hone b h' h (List.mem_cons_of_mem _ hrest) hmem]
      · have hnot : ∀ h', (b, h') ∉ chain := fun h' hm => hrest ⟨h', hm⟩
        rcases List.mem_cons.mp hmem with hc | hm
        · rw [hout hnot, hfirst, ← hc, if_pos rfl]
        · exact absurd hm (hnot h)
    · intro hnot
      rw [hout fun h hm => hnot h (List.mem_cons_of_mem _ hm), hfirst, if_neg]
      intro hb
      exact hnot c.2 (by rw [← hb]; exact List.mem_cons_self)

end SettleEngine

namespace Db

open SettleEngine

variable {db : Db (SettleEngine R V)} {store : Store} {chain : List BlockCursor}

/-! ## The law -/

/-- A fork call can be made: the instance is healthy, the queue has room and the rows in storage
and queue are readable. -/
structure ForkReady (db : Db (SettleEngine R V)) (store : Store) : Prop where
  poisoned : db.poisoned = none
  syncFailed : db.syncFailed = none
  room : db.unackedBatches < db.maxPendingBatches ∨ db.pending = []
  rows : db.engine.RowsReadable store (db.pending.map PendingAck.writeBatch)

/-- A supplied cursor that an accepted, not final part of the chain has on record. -/
def Common (db : Db (SettleEngine R V)) (chain : List BlockCursor) (c : BlockCursor) : Prop :=
  c ∈ chain ∧ ∃ latest, db.engine.latestBlock = some latest ∧ c.number ≤ latest ∧
    db.engine.finalizedBlock ≤ c.number ∧ db.engine.blockHashes[c.number]? = some c.hash

/-- What is left after a fork to `c`: the rows and contributions of the blocks up to it, and
their hashes, overwritten by the supplied ones. -/
structure ForkedTo (db db' : Db (SettleEngine R V)) (store store' : Store)
    (chain : List BlockCursor) (c : BlockCursor) : Prop where
  unwound : Unwound db.engine db'.engine c.number
  rows : ∀ (table : String) (block : BlockNumber), (db'.settled store').raw[(table, block)]?
    = if table ∈ db.engine.pipeline.filterMap db.engine.storedTable ∧ c.number < block then none
      else (db.settled store).raw[(table, block)]?
  supplied : ∀ c' ∈ chain, db'.engine.blockHashes[c'.number]? = some c'.hash
  hashes : ∀ b, (∀ c' ∈ chain, c'.number ≠ b) →
    db'.engine.blockHashes[b]? = if b ≤ c.number then db.engine.blockHashes[b]? else none

/-- **What a fork call should do.** -/
structure HandleForkLaw (db : Db (SettleEngine R V)) (store : Store) (chain : List BlockCursor) :
    Prop where
  /-- it succeeds exactly with a common block -/
  succeeds : (∃ r, (db.handleFork store none none chain).2.2 = .ok r) ↔ ∃ c, Common db chain c
  /-- and then goes back to the highest one -/
  highest : ∀ db' store' c batch,
    db.handleFork store none none chain = (db', store', .ok (c, batch)) →
      Common db chain c ∧ (∀ c', Common db chain c' → c'.number ≤ c.number) ∧
      ForkedTo db db' store store' chain c
  /-- a call that fails changes nothing -/
  fails : ∀ db' store' err, db.handleFork store none none chain = (db', store', .error err) →
    db' = db ∧ store' = store

/-- There is no block, and a supplied cursor matches the record at block 0. -/
def MatchesWithoutBlocks (db : Db (SettleEngine R V)) (chain : List BlockCursor) : Prop :=
  db.engine.latestBlock = none ∧ ∃ c ∈ chain, db.engine.Matches (c.number, c.hash)

/-- A supplied cursor matches the record at block `u64::MAX`, and the record holds a block that is
not supplied. -/
def MatchesLastBlock (db : Db (SettleEngine R V)) (chain : List BlockCursor) : Prop :=
  (∃ c ∈ chain, db.engine.Matches (c.number, c.hash) ∧ c.number = BlockNumber.max) ∧
    ∃ b, db.engine.blockHashes[b]? ≠ none ∧ ∀ c ∈ chain, c.number ≠ b

/-! ## The call -/

theorem mem_cursors {c : BlockCursor} : (c.number, c.hash) ∈ cursors chain ↔ c ∈ chain := by
  obtain ⟨number, hash⟩ := c
  simp only [cursors, List.mem_map, Prod.mk.injEq]
  constructor
  · rintro ⟨⟨n, h⟩, hmem, rfl, rfl⟩
    exact hmem
  · intro hmem
    exact ⟨_, hmem, rfl, rfl⟩

omit [ReducerNode R] [ViewNode V] in
theorem guards_ok (hr : ForkReady db store) :
    (do db.guardNotPoisoned; db.guardPendingRoom : Except Error Unit) = .ok () := by
  have hroom : db.guardPendingRoom = .ok () := by
    unfold guardPendingRoom guardNoPending
    rcases hr.room with h | h
    · rw [if_pos h]
    · rw [h]
      split <;> rfl
  simp [guardNotPoisoned, guardSynced, hr.poisoned, hr.syncFailed, hroom, bind, Except.bind]

/-- Without a match the call fails. -/
theorem handleFork_no_match (hr : ForkReady db store)
    (h : ∀ c ∈ chain, ¬ db.engine.Matches (c.number, c.hash)) :
    ∃ err, db.handleFork store none none chain = (db, store, .error err) := by
  unfold handleFork prepareFork
  rw [guards_ok hr]
  dsimp only
  by_cases hempty : chain.isEmpty
  · rw [if_pos hempty]
    exact ⟨_, rfl⟩
  · rw [if_neg hempty]
    have hnone : Engine.resolveForkCursorBounded db.engine (sortDesc (cursors chain)) = none := by
      refine resolve_none.mpr ?_
      rintro ⟨number, hash⟩ hmem
      exact h ⟨number, hash⟩ (mem_cursors.mp hmem)
    rw [hnone]
    exact ⟨_, rfl⟩

theorem putMark_notRaw (key : String) (block : Option BlockNumber) {op : BatchOp Datum}
    (hop : op ∈ (match block with
      | some b => [BatchOp.putMeta key (Datum.number b.toNat)]
      | none => [] : WriteBatch)) : op.isRaw = false := by
  cases block with
  | none => cases hop
  | some b =>
    rw [List.mem_singleton.mp hop]
    rfl

/-- The engine and the write set of a fork call, once its rollback succeeded. -/
theorem prepareFork_eq (hr : ForkReady db store) (hne : chain ≠ []) {cursor : BlockCursor}
    (hcursor : db.engine.resolveForkCursorBounded (sortDesc (cursors chain)) = some cursor)
    (ht : db.engine.Target cursor.number) {e' : SettleEngine R V} {writes : WriteBatch}
    {changes : List ChangeRecord}
    (hroll : db.engine.rollbackToBatch store (db.pending.map PendingAck.writeBatch) cursor.number
      = (e', writes, .ok changes)) :
    ∃ db₁ m batch, db.prepareFork store chain = (db₁, .ok (cursor, writes ++ m, batch)) ∧
      db₁.engine = (e'.setRollbackChain (sortDesc (cursors chain))).takeHashChanges.1 ∧
      ∀ op ∈ m, op.isRaw = false := by
  have hrb : db.rollbackEngine store cursor.number = ({ db with engine := e' }, writes, .ok changes) := by
    have hcheck : Engine.checkRollbackTarget db.engine cursor.number = .ok () :=
      checkRollbackTarget_ok ht
    have hroll' : Engine.rollbackToBatch db.engine store (db.pending.map PendingAck.writeBatch)
        cursor.number = (e', writes, .ok changes) := hroll
    unfold rollbackEngine
    rw [hcheck, hroll']
  have hresolve : Engine.resolveForkCursorBounded db.engine (sortDesc (cursors chain))
      = some cursor := hcursor
  unfold prepareFork
  rw [guards_ok hr]
  dsimp only
  rw [if_neg (by simpa using hne), hresolve]
  dsimp only
  rw [hrb]
  dsimp only [flushBatch, appendMetaToBatch]
  refine ⟨_, _, _, by rw [List.append_assoc, List.append_assoc, List.append_assoc,
    List.append_assoc, List.append_assoc], rfl, ?_⟩
  intro op hop
  simp only [List.mem_append, List.mem_map, List.mem_singleton] at hop
  rcases hop with hop | hop | hop | hop | hop | hop
  · exact putMark_notRaw _ _ hop
  · exact putMark_notRaw _ _ hop
  · exact putMark_notRaw _ _ hop
  · obtain ⟨⟨block, hash⟩, -, rfl⟩ := hop
    cases hash <;> rfl
  · obtain ⟨⟨key, value⟩, -, rfl⟩ := hop
    rfl
  · rw [hop]
    rfl

/-- With a match the call succeeds, at the highest one. -/
theorem handleFork_match (hr : ForkReady db store)
    (hone : OneHash (cursors chain)) (h : ∃ c ∈ chain, db.engine.Matches (c.number, c.hash)) :
    ∃ db' store' c batch, db.handleFork store none none chain = (db', store', .ok (c, batch)) ∧
      c ∈ chain ∧ db.engine.Matches (c.number, c.hash) ∧
      (∀ c' ∈ chain, db.engine.Matches (c'.number, c'.hash) → c'.number ≤ c.number) ∧
      Unwound db.engine db'.engine c.number ∧
      (∀ (table : String) (block : BlockNumber), (db'.settled store').raw[(table, block)]?
        = if table ∈ db.engine.pipeline.filterMap db.engine.storedTable ∧ c.number < block then none
          else (db.settled store).raw[(table, block)]?) ∧
      (∀ c' ∈ chain, db'.engine.blockHashes[c'.number]? = some c'.hash) ∧
      (∀ b, (∀ c' ∈ chain, c'.number ≠ b) → db'.engine.blockHashes[b]?
        = if b < c.number + 1 then db.engine.blockHashes[b]? else none) := by
  obtain ⟨c₀, hc₀, hm₀⟩ := h
  cases hcursor : db.engine.resolveForkCursorBounded (sortDesc (cursors chain)) with
  | none => exact absurd hm₀ (resolve_none.mp hcursor _ (mem_cursors.mpr hc₀))
  | some cursor =>
    obtain ⟨hmem, hmatch, hhigh⟩ := resolve_some hcursor
    have ht : db.engine.Target cursor.number := ⟨hmatch.1, hmatch.2.1⟩
    obtain ⟨e', writes, changes, hroll⟩ := rollbackToBatch_ok hr.rows ht
    obtain ⟨hunwound, hhashes, hdeletes⟩ := rollbackToBatch_spec ht hroll
    obtain ⟨db₁, m, batch, hprep, hengine, hm⟩ :=
      prepareFork_eq hr (List.ne_nil_of_mem hc₀) hcursor ht hroll
    have hspec := db.prepareFork_spec store chain
    rw [hprep] at hspec
    obtain ⟨db₂, store₂, hend⟩ := finishCall_healthy db₁ store (writes ++ m) batch
      "heartbeat handle_fork"
    have hfin := db₁.finishCall_spec store none none (writes ++ m) batch "heartbeat handle_fork"
    rw [hend] at hfin
    obtain ⟨n, hcheckpoint⟩ := db₁.finishCall_engine store none none (writes ++ m) batch
      "heartbeat handle_fork"
    rw [hend, hengine] at hcheckpoint
    have hcheckpoint : db₂.engine = { (e'.setRollbackChain
        (sortDesc (cursors chain))).takeHashChanges.1 with committedCheckpoint := n } := hcheckpoint
    -- the supplied cursors in descending order are the supplied cursors
    have hperm : (sortDesc (cursors chain)).Perm (cursors chain) := List.mergeSort_perm _ _
    have hone' : OneHash (sortDesc (cursors chain)) := by
      intro b h h' hmem hmem'
      exact hone b h h' (hperm.mem_iff.mp hmem) (hperm.mem_iff.mp hmem')
    obtain ⟨hlatest, hfinal, hnodes⟩ := e'.setRollbackChain_frame (sortDesc (cursors chain))
    refine ⟨db₂, store₂, cursor, batch, ?_, mem_cursors.mp hmem, hmatch, ?_, ?_, ?_, ?_, ?_⟩
    · unfold handleFork
      rw [hprep]
      dsimp only
      rw [hend]
    · intro c' hc' hm'
      exact hhigh _ (mem_cursors.mpr hc') hm'
    · rw [hcheckpoint]
      exact ⟨hlatest.trans hunwound.latestBlock, hfinal.trans hunwound.finalizedBlock,
        hnodes.trans hunwound.nodes⟩
    · intro table block
      have hsettled := congrArg Store.raw (hfin.finished.settled hspec.data)
      have hsame : db₁.settled store = db.settled store := by
        rw [Db.settled, hspec.pending]
        rfl
      rw [hsame, Store.commit_append] at hsettled
      have hraw : (db₂.settled store₂).raw
          = ((db.settled store).content.commit writes).raw := by
        rw [← Store.raw_commit_of_not hm ((db.settled store).content.commit writes)]
        exact hsettled
      rw [hraw, hdeletes]
      rfl
    · intro c' hc'
      rw [hcheckpoint]
      exact (setRollbackChain_hashes hone' e' c'.number).1 c'.hash
        (hperm.mem_iff.mpr (mem_cursors.mpr hc'))
    · intro b hb
      rw [hcheckpoint]
      have hnot : ∀ h, (b, h) ∉ sortDesc (cursors chain) := by
        intro h hmem
        have hmem : (b, h) ∈ cursors chain := hperm.mem_iff.mp hmem
        exact hb ⟨b, h⟩ (mem_cursors.mp hmem) rfl
      exact ((setRollbackChain_hashes hone' e' b).2 hnot).trans (hhashes b)

omit [ReducerNode R] [ViewNode V] in
/-- On a database with a latest block the matches are the common blocks. -/
theorem matches_iff_common {latest : BlockNumber} (hl : db.engine.latestBlock = some latest)
    {c : BlockCursor} : (c ∈ chain ∧ db.engine.Matches (c.number, c.hash)) ↔ Common db chain c := by
  simp only [Common, Matches, hl, Option.getD_some, Option.some.injEq]
  constructor
  · rintro ⟨hc, hle, hf, hh⟩
    exact ⟨hc, latest, rfl, hle, hf, hh⟩
  · rintro ⟨hc, _, rfl, hle, hf, hh⟩
    exact ⟨hc, hle, hf, hh⟩

/-- **The law of `handle_fork`:** a fork call does what it should exactly unless a supplied
cursor matches on a database without blocks, or at the last block number with a hash to lose. -/
theorem handle_fork_law (hr : ForkReady db store) (hone : OneHash (cursors chain)) :
    HandleForkLaw db store chain ↔
      ¬ MatchesWithoutBlocks db chain ∧ ¬ MatchesLastBlock db chain := by
  constructor
  · intro hlaw
    constructor
    · rintro ⟨hl, hmatch⟩
      obtain ⟨db', store', c, batch, hcall, -⟩ := handleFork_match hr hone hmatch
      obtain ⟨c', -, latest, hl', -⟩ := hlaw.succeeds.mp ⟨(c, batch), by rw [hcall]⟩
      rw [hl] at hl'
      cases hl'
    · rintro ⟨⟨c₀, hc₀, hm₀, hmax⟩, b, hb, hnot⟩
      obtain ⟨db', store', c, batch, hcall, -, -, hhigh, -, -, -, hhashes⟩ :=
        handleFork_match hr hone ⟨c₀, hc₀, hm₀⟩
      have hcmax : c.number = BlockNumber.max := by
        have := hhigh c₀ hc₀ hm₀
        rw [hmax] at this
        exact UInt64.le_antisymm (BlockNumber.le_max c.number) this
      have hkept := (hlaw.highest db' store' c batch hcall).2.2.hashes b hnot
      rw [hhashes b hnot, hcmax, if_pos (BlockNumber.le_max b), if_neg] at hkept
      · exact hb hkept.symm
      · rw [show BlockNumber.max + 1 = 0 from rfl]
        exact UInt64.not_lt.mpr (UInt64.zero_le)
  · rintro ⟨hblocks, hlast⟩
    -- a match is a common block, since there is a latest block
    have hiff : (∃ c ∈ chain, db.engine.Matches (c.number, c.hash)) ↔ ∃ c, Common db chain c := by
      cases hl : db.engine.latestBlock with
      | none =>
        constructor
        · intro hm
          exact absurd ⟨hl, hm⟩ hblocks
        · rintro ⟨c, -, latest, hl', -⟩
          rw [hl] at hl'
          cases hl'
      | some latest => exact exists_congr fun c => matches_iff_common hl
    by_cases hm : ∃ c ∈ chain, db.engine.Matches (c.number, c.hash)
    · obtain ⟨db', store', c, batch, hcall, hc, hmatch, hhigh, hunwound, hrows, hsupplied, hhashes⟩ :=
        handleFork_match hr hone hm
      obtain ⟨latest, hl⟩ : ∃ latest, db.engine.latestBlock = some latest := by
        obtain ⟨_, -, latest, hl, -⟩ := hiff.mp hm
        exact ⟨latest, hl⟩
      refine ⟨⟨fun _ => hiff.mp hm, fun _ => ⟨(c, batch), by rw [hcall]⟩⟩, ?_, ?_⟩
      · intro db'' store'' c'' batch'' hcall''
        rw [hcall] at hcall''
        cases hcall''
        refine ⟨(matches_iff_common hl).mp ⟨hc, hmatch⟩, ?_, hunwound, hrows, hsupplied, ?_⟩
        · intro c' hcommon
          obtain ⟨hc', hm'⟩ := (matches_iff_common hl).mpr hcommon
          exact hhigh c' hc' hm'
        · intro b hb
          rw [hhashes b hb]
          by_cases hcmax : c.number = BlockNumber.max
          · -- every hash on record is supplied, so there is none to lose
            have hnone : db.engine.blockHashes[b]? = none := by
              by_contra hsome
              exact hlast ⟨⟨c, hc, hmatch, hcmax⟩, b, hsome, hb⟩
            rw [hnone, ite_self, ite_self]
          · rw [if_congr (BlockNumber.lt_succ_iff hcmax) rfl rfl]
      · intro db'' store'' err hcall''
        rw [hcall] at hcall''
        cases hcall''
    · have hnone : ∀ c ∈ chain, ¬ db.engine.Matches (c.number, c.hash) :=
        fun c hc hm' => hm ⟨c, hc, hm'⟩
      obtain ⟨err, hcall⟩ := handleFork_no_match hr hnone
      refine ⟨⟨?_, fun hc => absurd (hiff.mpr hc) hm⟩, ?_, ?_⟩
      · rintro ⟨r, hok⟩
        rw [hcall] at hok
        cases hok
      · intro db'' store'' c batch hcall''
        rw [hcall] at hcall''
        cases hcall''
      · intro db'' store'' err' hcall''
        rw [hcall] at hcall''
        cases hcall''
        exact ⟨rfl, rfl⟩

/-- A fork of the trades database back to block 0. -/
theorem handle_fork_law_one_trade :
    HandleForkLaw (tradesIngested false).db (tradesIngested false).store [⟨0, "a"⟩] := by
  have hready : ForkReady (tradesIngested false).db (tradesIngested false).store :=
    ⟨by decide +kernel, by decide +kernel, Or.inl (by decide +kernel),
      rowsReadable_of_all (by decide +kernel)⟩
  have hone : OneHash (cursors [⟨0, "a"⟩]) := by
    intro b h h' hmem hmem'
    simp only [cursors, List.map_cons, List.map_nil, List.mem_singleton, Prod.mk.injEq]
      at hmem hmem'
    rw [hmem.2, hmem'.2]
  refine (handle_fork_law hready hone).mpr ⟨?_, ?_⟩
  · rintro ⟨hl, -⟩
    exact absurd hl (by decide +kernel)
  · rintro ⟨⟨c, hc, -, hmax⟩, -⟩
    rw [List.mem_singleton.mp hc] at hmax
    exact absurd hmax (by decide)

/-- The trades database after a heartbeat with block 0 as its finalized head: no block, and the
hash of block 0 on record. -/
def tradesHeartbeat : World (SettleEngine Empty Empty) :=
  (tradesWorld false).ingest none none (.rows ∅) [] ⟨0, "a"⟩

/-- A fork call with block 0 sets a latest block on a database without blocks. -/
theorem fork_sets_latest_block :
    DbRun (tradesWorld false) tradesHeartbeat ∧
    ForkReady tradesHeartbeat.db tradesHeartbeat.store ∧
    tradesHeartbeat.db.engine.latestBlock = none ∧
    (tradesHeartbeat.handleFork none none [⟨0, "a"⟩]).db.engine.latestBlock = some 0 ∧
    ¬ HandleForkLaw tradesHeartbeat.db tradesHeartbeat.store [⟨0, "a"⟩] := by
  have hl : tradesHeartbeat.db.engine.latestBlock = none := by decide +kernel
  refine ⟨⟨tradesWorld_opened false, .single (.ingest _ none none _ _ _)⟩,
    ⟨by decide +kernel, by decide +kernel, Or.inl (by decide +kernel),
      rowsReadable_of_all (by decide +kernel)⟩, hl, by decide +kernel, ?_⟩
  intro hlaw
  have hok : (tradesHeartbeat.db.handleFork tradesHeartbeat.store none none
      [⟨0, "a"⟩]).2.2.toBool = true := by decide +kernel
  cases hcall : (tradesHeartbeat.db.handleFork tradesHeartbeat.store none none [⟨0, "a"⟩]).2.2 with
  | error err =>
    rw [hcall] at hok
    cases hok
  | ok r =>
    obtain ⟨c, -, latest, hl', -⟩ := hlaw.succeeds.mp ⟨r, hcall⟩
    rw [hl] at hl'
    cases hl'

end Db

end Settle
