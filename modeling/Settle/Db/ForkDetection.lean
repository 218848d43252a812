import Settle.Db.Ledger
import Settle.Engine.DagRollback

/-!
# Fork detection of an ingest

An ingest supplies cursors: its rollback chain and its finalized head. A supplied cursor whose
block is on record with another hash is a *conflict*, and the call has to go back below the
lowest conflict, to a block on which the record and the supplied cursors agree.

`ForkLaw` is what the call should do. `fork_detection` says when it does: unless finality is at
block 0, a conflict exists and no supplied cursor below it is on record. There `detect_fork`
takes the missing ancestor for block 0.
-/

namespace Settle

open Std

variable {R V : Type} [ReducerNode R] [ViewNode V]

/-! ## Conflicts and ancestors -/

namespace SettleEngine

/-- A supplied cursor at or below the latest block differs from the hash on record. -/
def Conflict (e : SettleEngine R V) (supplied : List (BlockNumber × String)) (b : BlockNumber) :
    Prop :=
  ∃ hash stored latest, (b, hash) ∈ supplied ∧ e.latestBlock = some latest ∧ b ≤ latest ∧
    e.blockHashes[b]? = some stored ∧ stored ≠ hash

def LowestConflict (e : SettleEngine R V) (supplied : List (BlockNumber × String))
    (c : BlockNumber) : Prop :=
  e.Conflict supplied c ∧ ∀ b, e.Conflict supplied b → c ≤ b

/-- A supplied cursor between finality and `c` has the hash on record. -/
def Ancestor (e : SettleEngine R V) (supplied : List (BlockNumber × String)) (c p : BlockNumber) :
    Prop :=
  ∃ hash, (p, hash) ∈ supplied ∧ e.finalizedBlock ≤ p ∧ p < c ∧ e.blockHashes[p]? = some hash

def HighestAncestor (e : SettleEngine R V) (supplied : List (BlockNumber × String))
    (c p : BlockNumber) : Prop :=
  e.Ancestor supplied c p ∧ ∀ q, e.Ancestor supplied c q → q ≤ p

omit [ReducerNode R] [ViewNode V] in
theorem mem_hashConflicts {e : SettleEngine R V} {supplied : List (BlockNumber × String)}
    {latest : BlockNumber} (hl : e.latestBlock = some latest) {b : BlockNumber} :
    b ∈ e.hashConflicts supplied latest ↔ e.Conflict supplied b := by
  simp only [hashConflicts, List.mem_map, List.mem_filter, Prod.exists, exists_and_right,
    exists_eq_right, Bool.and_eq_true, decide_eq_true_eq]
  constructor
  · rintro ⟨hash, hmem, hle, hconf⟩
    cases hs : e.blockHashes[b]? with
    | none => simp [hs] at hconf
    | some stored =>
      simp only [hs, bne_iff_ne] at hconf
      exact ⟨hash, stored, latest, hmem, hl, hle, hs, hconf⟩
  · rintro ⟨hash, stored, l, hmem, hl', hle, hs, hne⟩
    rw [hl] at hl'
    cases hl'
    exact ⟨hash, hmem, hle, by simp [hs, hne]⟩

omit [ReducerNode R] [ViewNode V] in
theorem lowestHashConflict_some {e : SettleEngine R V} {supplied : List (BlockNumber × String)}
    {latest c : BlockNumber} (hl : e.latestBlock = some latest) :
    e.lowestHashConflict supplied latest = some c ↔ e.LowestConflict supplied c := by
  rw [lowestHashConflict, List.min?_eq_some_iff]
  simp only [mem_hashConflicts hl]
  rfl

omit [ReducerNode R] [ViewNode V] in
theorem lowestHashConflict_none {e : SettleEngine R V} {supplied : List (BlockNumber × String)}
    {latest : BlockNumber} (hl : e.latestBlock = some latest) :
    e.lowestHashConflict supplied latest = none ↔ ∀ b, ¬ e.Conflict supplied b := by
  rw [lowestHashConflict, List.min?_eq_none_iff, List.eq_nil_iff_forall_not_mem]
  simp only [mem_hashConflicts hl]

/-- The first match in descending order is the highest one. -/
theorem find?_sortDesc {supplied : List (BlockNumber × String)}
    {match? : BlockNumber × String → Bool} {c : BlockNumber × String}
    (h : (Db.sortDesc supplied).find? match? = some c) :
    c ∈ supplied ∧ match? c ∧ ∀ c' ∈ supplied, match? c' → c'.1 ≤ c.1 := by
  have hperm : (Db.sortDesc supplied).Perm supplied := List.mergeSort_perm _ _
  have hsorted : (Db.sortDesc supplied).Pairwise fun a b => decide (b.1 ≤ a.1) = true := by
    apply List.pairwise_mergeSort
    · intro a b c hab hbc
      simp only [decide_eq_true_eq] at hab hbc ⊢
      exact UInt64.le_trans hbc hab
    · intro a b
      simp only [Bool.or_eq_true, decide_eq_true_eq]
      exact UInt64.le_total b.1 a.1
  simp only [decide_eq_true_eq] at hsorted
  obtain ⟨hc, before, after, hl, hnot⟩ := List.find?_eq_some_iff_append.mp h
  refine ⟨hperm.mem_iff.mp (by rw [hl]; simp), hc, ?_⟩
  intro c' hc' hm
  have hmem := hperm.mem_iff.mpr hc'
  rw [hl] at hmem hsorted
  rcases List.mem_append.mp hmem with hmem | hmem
  · have := hnot c' hmem
    simp [hm] at this
  · rcases List.mem_cons.mp hmem with rfl | hmem
    · exact UInt64.le_refl _
    · exact (List.pairwise_cons.mp (List.pairwise_append.mp hsorted).2.1).1 c' hmem

theorem find?_sortDesc_none {supplied : List (BlockNumber × String)}
    {match? : BlockNumber × String → Bool} :
    (Db.sortDesc supplied).find? match? = none ↔ ∀ c ∈ supplied, ¬ match? c := by
  have hperm : (Db.sortDesc supplied).Perm supplied := List.mergeSort_perm _ _
  rw [List.find?_eq_none]
  simp only [hperm.mem_iff]

/-- A supplied cursor that a fork may go back to. -/
def Matches (e : SettleEngine R V) (c : BlockNumber × String) : Prop :=
  c.1 ≤ e.latestBlock.getD 0 ∧ e.finalizedBlock ≤ c.1 ∧ e.blockHashes[c.1]? = some c.2

omit [ReducerNode R] [ViewNode V] in
theorem resolve_some {e : SettleEngine R V} {supplied : List (BlockNumber × String)}
    {cursor : BlockCursor}
    (h : e.resolveForkCursorBounded (Db.sortDesc supplied) = some cursor) :
    (cursor.number, cursor.hash) ∈ supplied ∧ e.Matches (cursor.number, cursor.hash) ∧
      ∀ c ∈ supplied, e.Matches c → c.1 ≤ cursor.number := by
  rw [resolveForkCursorBounded, Option.map_eq_some_iff] at h
  obtain ⟨⟨number, hash⟩, hfind, rfl⟩ := h
  obtain ⟨hmem, hmatch, hhigh⟩ := find?_sortDesc hfind
  simp only [Bool.and_eq_true, Bool.not_eq_true', Bool.or_eq_false_iff, decide_eq_false_iff_not,
    UInt64.not_lt, beq_iff_eq] at hmatch hhigh
  refine ⟨hmem, ⟨hmatch.1.1, hmatch.1.2, hmatch.2⟩, ?_⟩
  intro c hc hm
  exact hhigh c hc ⟨⟨hm.1, hm.2.1⟩, hm.2.2⟩

omit [ReducerNode R] [ViewNode V] in
theorem resolve_none {e : SettleEngine R V} {supplied : List (BlockNumber × String)} :
    e.resolveForkCursorBounded (Db.sortDesc supplied) = none ↔
      ∀ c ∈ supplied, ¬ e.Matches c := by
  rw [resolveForkCursorBounded, Option.map_eq_none_iff, find?_sortDesc_none]
  refine forall₂_congr fun c _ => not_congr ?_
  simp only [Bool.and_eq_true, Bool.not_eq_true', Bool.or_eq_false_iff, decide_eq_false_iff_not,
    UInt64.not_lt, beq_iff_eq, Matches, and_assoc]

end SettleEngine

/-! ## What `detect_fork` finds -/

namespace Db

open SettleEngine

variable {db : Db (SettleEngine R V)} {chain : List BlockCursor} {head : BlockCursor}

omit [ReducerNode R] [ViewNode V] in
/-- Below a conflict, the cursors to go back to are the ancestors. -/
theorem matches_iff_ancestor {e : SettleEngine R V} {supplied : List (BlockNumber × String)}
    {c p : BlockNumber} (hc : e.Conflict supplied c) :
    (∃ hash, (p, hash) ∈ supplied.filter (fun c' => c'.1 < c) ∧ e.Matches (p, hash)) ↔
      e.Ancestor supplied c p := by
  obtain ⟨-, -, latest, -, hl, hle, -, -⟩ := hc
  constructor
  · rintro ⟨hash, hmem, -, hf, hs⟩
    obtain ⟨hmem, hlt⟩ := List.mem_filter.mp hmem
    exact ⟨hash, hmem, hf, by simpa using hlt, hs⟩
  · rintro ⟨hash, hmem, hf, hlt, hs⟩
    refine ⟨hash, List.mem_filter.mpr ⟨hmem, by simpa using hlt⟩, ?_, hf, hs⟩
    show p ≤ e.latestBlock.getD 0
    rw [hl]
    exact UInt64.le_trans (UInt64.le_of_lt hlt) hle

theorem detectFork_eq {latest : BlockNumber} (hl : db.engine.latestBlock = some latest)
    (chain : List BlockCursor) (head : BlockCursor) :
    db.detectFork chain head =
      match db.engine.lowestHashConflict (cursors (chain ++ [head])) latest with
      | none => .ok none
      | some conflict =>
        let ancestors := sortDesc ((cursors (chain ++ [head])).filter fun c => c.1 < conflict)
        let forkPoint := ((db.engine.resolveForkCursorBounded ancestors).map
          BlockCursor.number).getD 0
        if forkPoint < db.engine.finalizedBlock then
          .error (.invalidOperation ("the hash of block " ++ toString conflict.toNat ++
            " differs from the stored one, and the chain holds no common ancestor at or above " ++
            "finalized block " ++ toString db.engine.finalizedBlock.toNat ++
            " — finalized state is irreversible"))
        else .ok (if forkPoint < latest then some forkPoint else none) := by
  unfold detectFork
  show (match db.engine.latestBlock with
    | none => _
    | some currentLatest => _) = _
  rw [hl]
  rfl

theorem detectFork_no_conflict (h : ∀ b, ¬ db.engine.Conflict (cursors (chain ++ [head])) b) :
    db.detectFork chain head = .ok none := by
  cases hl : db.engine.latestBlock with
  | none =>
    unfold detectFork
    show (match db.engine.latestBlock with
      | none => _
      | some currentLatest => _) = _
    rw [hl]
  | some latest => rw [detectFork_eq hl chain head, (lowestHashConflict_none hl).mpr h]

/-- With an ancestor, the fork point is the highest one. -/
theorem detectFork_ancestor {c p : BlockNumber}
    (hc : db.engine.LowestConflict (cursors (chain ++ [head])) c)
    (hp : db.engine.HighestAncestor (cursors (chain ++ [head])) c p) :
    db.detectFork chain head = .ok (some p) := by
  obtain ⟨-, -, latest, -, hl, hle, -, -⟩ := hc.1
  rw [detectFork_eq hl chain head, (lowestHashConflict_some hl).mpr hc]
  dsimp only
  obtain ⟨hash, hmem, hmatch⟩ := (matches_iff_ancestor hc.1).mpr hp.1
  cases hr : db.engine.resolveForkCursorBounded
      (sortDesc ((cursors (chain ++ [head])).filter fun c' => c'.1 < c)) with
  | none => exact absurd hmatch (resolve_none.mp hr (p, hash) hmem)
  | some cursor =>
    obtain ⟨hmem', hmatch', hhigh⟩ := resolve_some hr
    have heq : cursor.number = p := by
      apply UInt64.le_antisymm
      · exact hp.2 _ ((matches_iff_ancestor hc.1).mp ⟨cursor.hash, hmem', hmatch'⟩)
      · exact hhigh (p, hash) hmem hmatch
    obtain ⟨-, -, hf, hlt, -⟩ := hp.1
    rw [Option.map_some, Option.getD_some, heq, if_neg (UInt64.not_lt.mpr hf),
      if_pos (UInt64.lt_of_lt_of_le hlt hle)]

/-- Without an ancestor the fork point is taken for block 0: an error above finality 0, and
otherwise a rollback of everything above block 0. -/
theorem detectFork_no_ancestor {c : BlockNumber}
    (hc : db.engine.LowestConflict (cursors (chain ++ [head])) c)
    (hp : ∀ p, ¬ db.engine.Ancestor (cursors (chain ++ [head])) c p) :
    (0 < db.engine.finalizedBlock → ∃ err, db.detectFork chain head = .error err) ∧
    (db.engine.finalizedBlock = 0 → ∃ latest, db.engine.latestBlock = some latest ∧
      db.detectFork chain head = .ok (if 0 < latest then some 0 else none)) := by
  obtain ⟨-, -, latest, -, hl, hle, -, -⟩ := hc.1
  have hr : db.engine.resolveForkCursorBounded
      (sortDesc ((cursors (chain ++ [head])).filter fun c' => c'.1 < c)) = none := by
    refine resolve_none.mpr ?_
    rintro ⟨p, hash⟩ hmem hmatch
    exact hp p ((matches_iff_ancestor hc.1).mp ⟨hash, hmem, hmatch⟩)
  have heq := detectFork_eq hl chain head
  rw [(lowestHashConflict_some hl).mpr hc] at heq
  dsimp only at heq
  rw [hr, Option.map_none, Option.getD_none] at heq
  refine ⟨fun hF => ?_, fun hF => ⟨latest, hl, ?_⟩⟩
  · rw [if_pos hF] at heq
    exact ⟨_, heq⟩
  · rw [hF, if_neg (UInt64.lt_irrefl 0)] at heq
    exact heq

/-- A fork point is a valid target. -/
theorem detectFork_target {p : BlockNumber} (h : db.detectFork chain head = .ok (some p)) :
    db.engine.Target p := by
  cases hl : db.engine.latestBlock with
  | none =>
    unfold detectFork at h
    have hl' : Engine.latestBlockIfAny db.engine = none := hl
    rw [hl'] at h
    cases h
  | some latest =>
    rw [detectFork_eq hl] at h
    split at h
    · cases h
    · dsimp only at h
      split at h
      · cases h
      · next hF =>
        simp only [Except.ok.injEq] at h
        split at h
        · next hlt =>
          cases h
          refine ⟨?_, UInt64.not_lt.mp hF⟩
          rw [hl]
          exact UInt64.le_of_lt hlt
        · cases h

/-! ## The law of fork detection -/

/-- A call can be made: the instance is healthy, no callback is awaited and the queue has room. -/
structure Ready (db : Db (SettleEngine R V)) : Prop where
  poisoned : db.poisoned = none
  syncFailed : db.syncFailed = none
  callbacks : db.engine.awaitedCallback = none
  room : db.unackedBatches < db.maxPendingBatches ∨ db.pending = []

/-- The call fails, and instance, queue and store are as they were. -/
def Fails (db : Db (SettleEngine R V)) (store : Store) (data : InputData)
    (chain : List BlockCursor) (head : BlockCursor) : Prop :=
  ∃ err, db.ingest store none none data chain head = (db, store, .error err)

/-- The call takes `fork` for the block to go back to: with rows that are invalid above it, the
call fails with nothing rolled back, and with valid rows it works on them from there. -/
def GoesBackTo (db : Db (SettleEngine R V)) (store : Store) (data : InputData)
    (chain : List BlockCursor) (head : BlockCursor) (fork : Option BlockNumber) : Prop :=
  (∀ err, db.groupInputRows data (fork.or db.engine.latestBlock) = .error err →
    Fails db store data chain head) ∧
  (∀ tables, db.groupInputRows data (fork.or db.engine.latestBlock) = .ok tables →
    db.prepareIngest store data chain head
      = db.ingestTables store fork (fork.or db.engine.latestBlock) tables chain head)

/-- **What an ingest should do about a fork**, for any rows. -/
structure ForkLaw (db : Db (SettleEngine R V)) (store : Store) (chain : List BlockCursor)
    (head : BlockCursor) : Prop where
  /-- without a conflict nothing is rolled back -/
  no_conflict : (∀ b, ¬ db.engine.Conflict (cursors (chain ++ [head])) b) →
    ∀ data, GoesBackTo db store data chain head none
  /-- a conflict at or below finality makes the call fail -/
  final : ∀ c, db.engine.LowestConflict (cursors (chain ++ [head])) c →
    c ≤ db.engine.finalizedBlock → ∀ data, Fails db store data chain head
  /-- a conflict above it rolls back to the highest ancestor, and to no other block -/
  ancestor : ∀ c p, db.engine.LowestConflict (cursors (chain ++ [head])) c →
    db.engine.finalizedBlock < c →
    db.engine.HighestAncestor (cursors (chain ++ [head])) c p →
      (∀ data, GoesBackTo db store data chain head (some p)) ∧
      ∀ db' writes changes, db.rollbackFork store (some p) = (db', writes, .ok changes) →
        RolledBack db.engine db'.engine p ∧ db.engine.DeletesAbove writes p
  /-- and without an ancestor the call fails -/
  no_ancestor : ∀ c, db.engine.LowestConflict (cursors (chain ++ [head])) c →
    db.engine.finalizedBlock < c →
    (∀ p, ¬ db.engine.Ancestor (cursors (chain ++ [head])) c p) →
      ∀ data, Fails db store data chain head

/-- Finality is at block 0, a conflict exists, and no supplied cursor below the lowest one is on
record. -/
def LosesAncestor (db : Db (SettleEngine R V)) (chain : List BlockCursor) (head : BlockCursor) :
    Prop :=
  db.engine.finalizedBlock = 0 ∧ ∃ c, db.engine.LowestConflict (cursors (chain ++ [head])) c ∧
    ∀ p, ¬ db.engine.Ancestor (cursors (chain ++ [head])) c p

/-- The checks of a call on a ready instance. -/
theorem checkIngest_ready (hr : Ready db) (hh : db.engine.finalizedBlock ≤ head.number)
    (chain : List BlockCursor) (data : InputData) :
    db.checkIngest data chain head =
      (db.detectFork chain head).bind fun fork =>
        (db.groupInputRows data (fork.or db.engine.latestBlock)).bind fun tables =>
          .ok (fork, fork.or db.engine.latestBlock, tables) := by
  have hroom : db.guardPendingRoom = .ok () := by
    unfold guardPendingRoom guardNoPending
    rcases hr.room with h | h
    · rw [if_pos h]
    · rw [h]
      split <;> rfl
  have hcalls : Engine.awaitedCallback db.engine = none := hr.callbacks
  have hfinal : ¬ head.number < Engine.finalizedBlock db.engine := UInt64.not_lt.mpr hh
  simp only [checkIngest, guardNotPoisoned, guardSynced, hr.poisoned, hr.syncFailed,
    guardCallbacksReplayed, hcalls, hroom, hfinal, if_false, bind, Except.bind]
  cases db.detectFork chain head with
  | error e => rfl
  | ok fork => rfl

theorem fails_of_check {store : Store} {data : InputData}
    (h : ∃ err, db.checkIngest data chain head = .error err) : Fails db store data chain head := by
  obtain ⟨err, h⟩ := h
  refine ⟨err, ?_⟩
  unfold ingest prepareIngest
  rw [h]

theorem fails_of_detect (hr : Ready db) (hh : db.engine.finalizedBlock ≤ head.number)
    {store : Store} {err : Error} (h : db.detectFork chain head = .error err) (data : InputData) :
    Fails db store data chain head := by
  refine fails_of_check ⟨err, ?_⟩
  rw [checkIngest_ready hr hh, h]
  rfl

theorem goesBackTo_of_detect (hr : Ready db) (hh : db.engine.finalizedBlock ≤ head.number)
    {fork : Option BlockNumber} (h : db.detectFork chain head = .ok fork) (store : Store)
    (data : InputData) : GoesBackTo db store data chain head fork := by
  have hcheck := checkIngest_ready hr hh chain data
  rw [h] at hcheck
  refine ⟨fun err herr => ?_, fun tables htables => ?_⟩
  · refine fails_of_check ⟨err, ?_⟩
    rw [hcheck]
    simp only [Except.bind, herr]
  · unfold prepareIngest
    rw [hcheck]
    simp only [Except.bind, htables]

/-- With healthy storage the end of a call succeeds. -/
theorem finishCall_healthy (db : Db (SettleEngine R V)) (store : Store) (w : WriteBatch)
    (batch : Option ChangeBatch) (call : String) :
    ∃ db' store', db.finishCall store none none w batch call = (db', store', .ok ()) := by
  cases batch with
  | some batch =>
    simp only [finishCall, pushPending, writeJournal]
    split
    · exact ⟨_, _, rfl⟩
    · exact ⟨_, _, rfl⟩
  | none =>
    simp only [finishCall, commitWithoutBatch, writeJournal]
    split
    · split
      · exact ⟨_, _, rfl⟩
      · exact ⟨_, _, rfl⟩
    · exact ⟨_, _, rfl⟩

/-- A call without rows that takes any block to go back to does not fail and leave everything as
it was. -/
theorem not_fails_of_detect (hr : Ready db) (hh : db.engine.finalizedBlock ≤ head.number)
    {fork : Option BlockNumber} (h : db.detectFork chain head = .ok fork) (store : Store) :
    ¬ Fails db store (.rows ∅) chain head := by
  rintro ⟨err, herr⟩
  have hrows : db.groupInputRows (.rows ∅) (fork.or db.engine.latestBlock) = .ok [] := by
    cases fork.or db.engine.latestBlock <;> rfl
  have hprep := (goesBackTo_of_detect hr hh h store (.rows ∅)).2 [] hrows
  unfold ingest at herr
  rw [hprep] at herr
  unfold ingestTables at herr
  cases hrb : db.rollbackFork store fork with
  | mk db₁ rest =>
    obtain ⟨writes, result⟩ := rest
    rw [hrb] at herr
    cases result with
    | error e =>
      -- a rollback that fails part way poisons the instance
      have hdb : db₁ = db := congrArg Prod.fst herr
      cases fork with
      | none => cases hrb
      | some p =>
        simp only [rollbackFork, rollbackEngine] at hrb
        have hcheck : Engine.checkRollbackTarget db.engine p = .ok () :=
          checkRollbackTarget_ok (detectFork_target h)
        rw [hcheck] at hrb
        dsimp only at hrb
        split at hrb
        · cases hrb
        · have hpois := congrArg (fun r => r.1.poisoned) hrb
          dsimp only at hpois
          rw [hdb, hr.poisoned] at hpois
          cases hpois
    | ok changes =>
      simp only [List.flatMap_nil, processTables] at herr
      obtain ⟨db', store', hend⟩ := finishCall_healthy
        (finalizeIngest db₁ (writes ++ []) (changes ++ []) chain head).1 store
        (finalizeIngest db₁ (writes ++ []) (changes ++ []) chain head).2.1
        (finalizeIngest db₁ (writes ++ []) (changes ++ []) chain head).2.2 "heartbeat ingest"
      have hend' := hend
      simp only [hend', Prod.mk.injEq, reduceCtorEq, and_false] at herr

/-- **Fork detection:** an ingest does what it should about a fork exactly unless finality is at
block 0 and no supplied cursor below the lowest conflict is on record. -/
theorem fork_detection (hr : Ready db) (hh : db.engine.finalizedBlock ≤ head.number)
    (store : Store) : ForkLaw db store chain head ↔ ¬ LosesAncestor db chain head := by
  constructor
  · rintro hlaw ⟨hF, c, hc, hnone⟩
    obtain ⟨latest, -, hdetect⟩ := (detectFork_no_ancestor hc hnone).2 hF
    apply not_fails_of_detect hr hh hdetect store
    by_cases hle : c ≤ db.engine.finalizedBlock
    · exact hlaw.final c hc hle _
    · exact hlaw.no_ancestor c hc (UInt64.not_le.mp hle) hnone _
  · intro hno
    -- without an ancestor finality is above block 0, and the call is refused
    have hfails : ∀ c, db.engine.LowestConflict (cursors (chain ++ [head])) c →
        (∀ p, ¬ db.engine.Ancestor (cursors (chain ++ [head])) c p) →
        ∀ data, Fails db store data chain head := by
      intro c hc hnone
      have hF : 0 < db.engine.finalizedBlock := by
        rcases UInt64.le_iff_lt_or_eq.mp (UInt64.zero_le (a := db.engine.finalizedBlock)) with h | h
        · exact h
        · exact absurd ⟨h.symm, c, hc, hnone⟩ hno
      obtain ⟨err, herr⟩ := (detectFork_no_ancestor hc hnone).1 hF
      exact fails_of_detect hr hh herr
    refine ⟨?_, ?_, ?_, ?_⟩
    · intro h
      exact goesBackTo_of_detect hr hh (detectFork_no_conflict h) store
    · intro c hc hle
      refine hfails c hc ?_
      rintro p ⟨hash, -, hf, hlt, -⟩
      exact absurd hlt (UInt64.not_lt.mpr (UInt64.le_trans hle hf))
    · intro c p hc _ hp
      have hdetect := detectFork_ancestor hc hp
      refine ⟨goesBackTo_of_detect hr hh hdetect store, ?_⟩
      intro db' writes changes hrb
      have ht := detectFork_target hdetect
      simp only [rollbackFork, rollbackEngine] at hrb
      have hcheck : Engine.checkRollbackTarget db.engine p = .ok () := checkRollbackTarget_ok ht
      rw [hcheck] at hrb
      dsimp only at hrb
      split at hrb
      · next e' w cs hrollback =>
        have hspec := rollbackToBatch_spec ht hrollback
        simp only [Prod.mk.injEq] at hrb
        obtain ⟨hdb, hw, -⟩ := hrb
        rw [← hdb, ← hw]
        refine ⟨rolledBack_of_unwound hspec.1 hspec.2.1 ?_, hspec.2.2⟩
        -- an ancestor is below a block
        obtain ⟨-, -, -, hlt, -⟩ := hp.1
        rintro rfl
        exact absurd (UInt64.lt_iff_toNat_lt.mp hlt)
          (Nat.not_lt.mpr (Nat.le_of_lt_succ (UInt64.toNat_lt_size c)))
      · cases hrb
    · intro c hc _ hnone
      exact hfails c hc hnone

theorem tradesIngested_ready : Ready (tradesIngested false).db where
  poisoned := by decide +kernel
  syncFailed := by decide +kernel
  callbacks := by decide +kernel
  room := Or.inl (by decide +kernel)

/-- The trades database after an ingest with the hashes of the blocks 1 and 2. -/
def tradesTwoBlocks : World (SettleEngine Empty Empty) :=
  (tradesWorld false).ingest none none (tradeIn 2 5) [⟨1, "b"⟩, ⟨2, "c"⟩] ⟨0, "a"⟩

theorem tradesTwoBlocks_ready : Ready tradesTwoBlocks.db where
  poisoned := by decide +kernel
  syncFailed := by decide +kernel
  callbacks := by decide +kernel
  room := Or.inl (by decide +kernel)

/-- A chain with another block 2: block 1 is the common ancestor. -/
theorem fork_detection_same_chain :
    tradesTwoBlocks.db.detectFork [⟨1, "b"⟩, ⟨2, "x"⟩] ⟨0, "a"⟩ = .ok (some 1) ∧
    ForkLaw tradesTwoBlocks.db tradesTwoBlocks.store [⟨1, "b"⟩, ⟨2, "x"⟩] ⟨0, "a"⟩ := by
  have hl : tradesTwoBlocks.db.engine.latestBlock = some 2 := by decide +kernel
  have hc : tradesTwoBlocks.db.engine.LowestConflict
      (cursors ([⟨1, "b"⟩, ⟨2, "x"⟩] ++ [⟨0, "a"⟩])) 2 :=
    (lowestHashConflict_some hl).mp (by decide +kernel)
  have hp : tradesTwoBlocks.db.engine.Ancestor
      (cursors ([⟨1, "b"⟩, ⟨2, "x"⟩] ++ [⟨0, "a"⟩])) 2 1 :=
    ⟨"b", by decide, by decide +kernel, by decide, by decide +kernel⟩
  refine ⟨detectFork_ancestor hc ⟨hp, ?_⟩,
    (fork_detection tradesTwoBlocks_ready (by decide +kernel) _).mpr ?_⟩
  · rintro q ⟨-, -, -, hlt, -⟩
    exact UInt64.lt_iff_toNat_lt.mp hlt |> Nat.le_of_lt_succ |> UInt64.le_iff_toNat_le.mpr
  · rintro ⟨-, c, hc', hnone⟩
    obtain rfl : c = 2 := UInt64.le_antisymm (hc'.2 2 hc.1) (hc.2 c hc'.1)
    exact hnone 1 hp

/-- The record holds block 1 with hash `b`, and finality is at block 0. A chain with another
block 1 and no block below it makes the call roll back to block 0, with no common ancestor. -/
theorem ingest_invents_ancestor :
    DbRun (tradesWorld false) (tradesIngested false) ∧ Ready (tradesIngested false).db ∧
    (tradesIngested false).db.detectFork [⟨1, "c"⟩] ⟨5, "f"⟩ = .ok (some 0) ∧
    ¬ ForkLaw (tradesIngested false).db (tradesIngested false).store [⟨1, "c"⟩] ⟨5, "f"⟩ := by
  have hdetect : (tradesIngested false).db.detectFork [⟨1, "c"⟩] ⟨5, "f"⟩ = .ok (some 0) := by
    decide +kernel
  refine ⟨⟨tradesWorld_opened false, .single (.ingest _ none none _ _ _)⟩, tradesIngested_ready,
    hdetect, ?_⟩
  intro hlaw
  have hl : (tradesIngested false).db.engine.latestBlock = some 1 := by decide +kernel
  have hc : (tradesIngested false).db.engine.LowestConflict
      (cursors ([⟨1, "c"⟩] ++ [⟨5, "f"⟩])) 1 :=
    (lowestHashConflict_some hl).mp (by decide +kernel)
  have hnone : ∀ p, ¬ (tradesIngested false).db.engine.Ancestor
      (cursors ([⟨1, "c"⟩] ++ [⟨5, "f"⟩])) 1 p := by
    rintro p ⟨hash, hmem, -, hlt, -⟩
    simp only [cursors, List.map_append, List.map_cons, List.map_nil, List.mem_append,
      List.mem_singleton, Prod.mk.injEq] at hmem
    rcases hmem with ⟨rfl, -⟩ | ⟨rfl, -⟩
    · exact absurd hlt (by decide)
    · exact absurd hlt (by decide)
  exact not_fails_of_detect tradesIngested_ready (by decide +kernel) hdetect _
    (hlaw.no_ancestor 1 hc (by decide +kernel) hnone _)

end Db

end Settle
