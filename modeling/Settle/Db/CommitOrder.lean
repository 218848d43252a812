import Settle.Db.Ledger

/-!
# Commit order

The invariant of the runs of an instance (`WorldInv`) and its preservation by every call: the
content of the store is what the committed write sets of the ledger give, and the queue holds
the others. The sequences of the returned batches are consecutive, each write set of a group
stores the sequence after its batch, and the queue has no more places than allowed.
-/

namespace Settle

open Std

/-! ## Write sets on disk -/

/-- The write set ends by storing `n` as the next sequence. -/
def StoresNext (n : Nat) (w : WriteBatch) : Prop :=
  ∃ w₀, w = w₀ ++ [.putMeta metaNextSequence (.number n)]

theorem StoresNext.commit {n : Nat} {w : WriteBatch} (h : StoresNext n w) (s : Store) :
    (s.commit w).metas[metaNextSequence]? = some (.number n) := by
  obtain ⟨w₀, rfl⟩ := h
  rw [Store.commit_append, Store.commit_cons, Store.commit_nil]
  simp [Store.apply]

/-- A queued batch holds the write sets of its group, and with the journal the deletes of
their journal parts. -/
structure Queued (journal : Bool) (p : PendingAck) (group : Nat × List WriteBatch) : Prop where
  sequence : p.sequence = group.1
  joined : p.joined + 1 = group.2.length
  writes : p.writeBatch.filter (!·.isJournal) = group.2.flatten
  deletes : p.writeBatch.filter (·.isJournal) =
    if journal then (List.range group.2.length).map (BatchOp.deleteJournal p.sequence) else []

theorem filter_data {w : WriteBatch} (h : Db.DataOnly w) :
    w.filter (!·.isJournal) = w ∧ w.filter (·.isJournal) = [] := by
  refine ⟨List.filter_eq_self.mpr ?_, List.filter_eq_nil_iff.mpr ?_⟩
  · intro op hop
    simp [h op hop]
  · intro op hop
    simp [h op hop]

/-- The queue of a call with a batch. -/
theorem Queued.new {journal : Bool} {w : WriteBatch} (hw : Db.DataOnly w) (sequence checkpoint : Nat) :
    Queued journal
      { sequence, joined := 0, checkpoint
        writeBatch := w ++ if journal then [.deleteJournal sequence 0] else [] }
      (sequence, [w]) := by
  obtain ⟨hdata, hjournal⟩ := filter_data hw
  refine ⟨rfl, rfl, ?_, ?_⟩
  · cases journal <;> simp [hdata]
  · cases journal <;> simp [hjournal, List.range_succ]

/-- A call without a batch joins the newest one. -/
theorem Queued.join {journal : Bool} {p : PendingAck} {group : Nat × List WriteBatch}
    (h : Queued journal p group) {w : WriteBatch} (hw : Db.DataOnly w) (checkpoint : Nat) :
    Queued journal (Db.PendingAck.join p journal w checkpoint) (group.1, group.2 ++ [w]) := by
  obtain ⟨hdata, hjournal⟩ := filter_data hw
  refine ⟨h.sequence, ?_, ?_, ?_⟩
  · have := h.joined
    simp only [Db.PendingAck.join, List.length_append, List.length_singleton]
    omega
  · have hw := h.writes
    cases journal <;> simp [Db.PendingAck.join, hw, hdata]
  · have hd := h.deletes
    have hj := h.joined
    cases journal
    · simpa [Db.PendingAck.join, hjournal] using hd
    · simp only [Db.PendingAck.join, List.filter_append, hd, hjournal, if_true]
      simp [List.range_succ, ← hj]

/-- Committing a queued batch brings the write sets of its group to the content. -/
theorem Queued.content {journal : Bool} {p : PendingAck} {group : Nat × List WriteBatch}
    (h : Queued journal p group) (s : Store) :
    (s.commit p.writeBatch).content = s.content.commit group.2.flatten := by
  rw [Store.content_commit, h.writes]

theorem Queued.content_all {journal : Bool} {ps : List PendingAck}
    {groups : List (Nat × List WriteBatch)} (h : List.Forall₂ (Queued journal) ps groups)
    (s : Store) :
    (s.commit (ps.flatMap PendingAck.writeBatch)).content
      = s.content.commit (groups.flatMap Prod.snd).flatten := by
  induction h generalizing s with
  | nil => rfl
  | cons hp _ ih =>
    rw [List.flatMap_cons, List.flatMap_cons, List.flatten_append, Store.commit_append,
      Store.commit_append, ih, hp.content]

/-- A group has the write set of its batch. -/
theorem Queued.ne_nil {journal : Bool} {ps : List PendingAck}
    {groups : List (Nat × List WriteBatch)} (h : List.Forall₂ (Queued journal) ps groups) :
    ∀ group ∈ groups, group.2 ≠ [] := by
  induction h with
  | nil => simp
  | cons hp _ ih =>
    intro group hgroup hnil
    rcases List.mem_cons.mp hgroup with rfl | hgroup
    · have := hp.joined
      simp [hnil] at this
    · exact ih group hgroup hnil

/-! ## The loop of `ack` -/

variable {E : Type} [Engine E]

namespace Db

/-- The loop of `ack` commits the first `ackCount` batches and leaves the others queued. It
reports the commit that failed. -/
theorem ackLoop_spec {journal : Bool} (sequence : Nat) {ps : List PendingAck}
    {groups : List (Nat × List WriteBatch)} (h : List.Forall₂ (Queued journal) ps groups)
    (faults : List Outcome) (db : Db E) (store : Store) :
    let k := Ledger.ackCount sequence groups faults
    (ackLoop sequence ps faults db store).1.pending = ps.drop k ∧
    (ackLoop sequence ps faults db store).2.1
      = store.commit ((ps.take k).flatMap PendingAck.writeBatch) ∧
    (ackLoop sequence ps faults db store).2.2.1 =
      (match groups[k]? with
        | some group =>
          if group.1 ≤ sequence then
            match faults.getD k none with
            | some e => .error e
            | none => .ok ()
          else .ok ()
        | none => .ok ()) ∧
    (ackLoop sequence ps faults db store).2.2.2 = decide (0 < k) ∧
    (ackLoop sequence ps faults db store).1.poisoned = db.poisoned ∧
    (ackLoop sequence ps faults db store).1.syncFailed = db.syncFailed ∧
    (ackLoop sequence ps faults db store).1.journal = db.journal ∧
    (ackLoop sequence ps faults db store).1.buffer = db.buffer ∧
    (ackLoop sequence ps faults db store).1.maxPendingBatches = db.maxPendingBatches := by
  induction h generalizing faults db store with
  | nil => simp [ackLoop, Ledger.ackCount]
  | @cons p group ps groups hp _ ih =>
    dsimp only
    rw [ackLoop, Ledger.ackCount, hp.sequence]
    by_cases hcov : sequence < group.1
    · simp [hcov, Nat.not_le.mpr hcov]
    · rw [if_neg hcov, if_neg hcov]
      cases hf : faults.headD none with
      | some e =>
        have hget : faults[0]?.getD none = some e := by
          cases faults with
          | nil => simp at hf
          | cons f fs => simpa using hf
        simp [Nat.not_lt.mp hcov, hget]
      | none =>
        obtain ⟨h1, h2, h3, h4, h5, h6, h7, h8, h9⟩ := ih faults.tail
          { db with
            engine := Engine.setCommittedCheckpoint db.engine p.checkpoint, stamp := [] }
          (store.commit p.writeBatch)
        have htail : ∀ i, faults.tail.getD i none = faults.getD (i + 1) none := by
          intro i
          cases faults <;> simp
        refine ⟨by simpa using h1, ?_, ?_, by simp, h5, h6, h7, h8, h9⟩
        · simp only [Option.isSome_none, Bool.false_eq_true, if_false, List.take_succ_cons,
            List.flatMap_cons, Store.commit_append]
          exact h2
        · simp only [Option.isSome_none, Bool.false_eq_true, if_false, List.getElem?_cons_succ]
          rw [h3]
          simp only [htail]

/-! ## The end of a call -/

/-- The journal part that the end of a call writes, if there is a journal. -/
def journalPart (journal : Bool) (sequence part : Nat) (w : WriteBatch) : WriteBatch :=
  if journal then [.putJournal sequence part (.writes w)] else []

theorem content_journalPart (store : Store) (journal : Bool) (sequence part : Nat)
    (w : WriteBatch) :
    (store.commit (journalPart journal sequence part w)).content = store.content := by
  cases journal <;> rfl

/-- What the end of a successful call does to queue and disk. -/
inductive Finished (db db' : Db E) (store : Store) (w : WriteBatch) :
    Option ChangeBatch → Store → Prop
  | commit (hq : db.pending = []) (hq' : db'.pending = []) :
      Finished db db' store w none (store.commit w)
  | join (init : List PendingAck) (newest : PendingAck) (checkpoint : Nat)
      (hq : db.pending = init ++ [newest])
      (hq' : db'.pending = init ++ [PendingAck.join newest db.journal w checkpoint]) :
      Finished db db' store w none
        (store.commit (journalPart db.journal newest.sequence (newest.joined + 1) w))
  | push (batch : ChangeBatch) (checkpoint : Nat)
      (hq' : db'.pending = db.pending ++
        [{ sequence := batch.sequence, joined := 0, checkpoint
           writeBatch := w ++ if db.journal then [.deleteJournal batch.sequence 0] else [] }]) :
      Finished db db' store w (some batch)
        (store.commit (journalPart db.journal batch.sequence 0 w))

/-- The parts of an instance that the end of a call leaves alone. -/
structure SameMode (db db' : Db E) : Prop where
  maxPendingBatches : db'.maxPendingBatches = db.maxPendingBatches
  journal : db'.journal = db.journal
  buffer : db'.buffer = db.buffer

/-- A failed end of a call poisons the instance, and queue and content stay. -/
structure FailedEnd (db db' : Db E) (store store' : Store) : Prop extends SameMode db db' where
  pending : db'.pending = db.pending
  poisoned : db'.poisoned.isSome
  content : store'.content = store.content

/-- A finished end of a call. -/
structure FinishedEnd (db db' : Db E) (store store' : Store) (w : WriteBatch)
    (batch : Option ChangeBatch) : Prop extends SameMode db db' where
  finished : Finished db db' store w batch store'
  poisoned : db'.poisoned = db.poisoned
  syncFailed : db'.syncFailed = db.syncFailed

def EndSpec (db : Db E) (store : Store) (w : WriteBatch) (batch : Option ChangeBatch) :
    Db E × Store × Except Error Unit → Prop
  | (db', store', .error _) => FailedEnd db db' store store'
  | (db', store', .ok ()) => FinishedEnd db db' store store' w batch

omit [Engine E] in
theorem writeJournal_spec (db : Db E) (store : Store) (commitFault syncFault : Outcome)
    (sequence part : Nat) (w : WriteBatch) (sync : Bool) :
    match db.writeJournal store commitFault syncFault sequence part w sync with
    | (db', store', .error _) => FailedEnd db db' store store'
    | (db', store', .ok ()) => db = db' ∧
        store' = store.commit [.putJournal sequence part (.writes w)] := by
  unfold writeJournal
  cases commitFault with
  | some e => exact ⟨⟨rfl, rfl, rfl⟩, rfl, rfl, rfl⟩
  | none =>
    cases sync with
    | false => exact ⟨rfl, rfl⟩
    | true =>
      cases syncFault with
      | none => exact ⟨rfl, rfl⟩
      | some e => exact ⟨⟨rfl, rfl, rfl⟩, rfl, rfl, rfl⟩

theorem pushPending_spec (db : Db E) (store : Store) (commitFault syncFault : Outcome)
    (w : WriteBatch) (batch : ChangeBatch) :
    EndSpec db store w (some batch)
      (db.pushPending store commitFault syncFault batch.sequence w) := by
  unfold pushPending
  dsimp only
  split
  · next hj =>
    have hw := writeJournal_spec db store commitFault syncFault batch.sequence 0 w true
    split
    · next hr =>
      rw [hr] at hw
      exact hw
    · next hr =>
      rw [hr] at hw
      obtain ⟨hdb, rfl⟩ := hw
      subst hdb
      have hpart : journalPart db.journal batch.sequence 0 w
          = [.putJournal batch.sequence 0 (.writes w)] := by rw [journalPart, if_pos hj]
      rw [← hpart]
      refine ⟨⟨rfl, rfl, rfl⟩, .push batch (Engine.checkpoints db.engine) ?_, rfl, rfl⟩
      rw [if_pos hj]
  · next hj =>
    have hpart : store.commit (journalPart db.journal batch.sequence 0 w) = store := by
      rw [journalPart, if_neg hj, Store.commit_nil]
    refine ⟨⟨rfl, rfl, rfl⟩, ?_, rfl, rfl⟩
    have hpush : Finished db { db with pending := db.pending ++
        [{ sequence := batch.sequence, writeBatch := w, joined := 0
           checkpoint := Engine.checkpoints db.engine }] } store w (some batch)
        (store.commit (journalPart db.journal batch.sequence 0 w)) :=
      .push batch (Engine.checkpoints db.engine) (by rw [if_neg hj, List.append_nil])
    rwa [hpart] at hpush

theorem commitWithoutBatch_spec (db : Db E) (store : Store) (commitFault : Outcome)
    (w : WriteBatch) (call : String) :
    EndSpec db store w none (db.commitWithoutBatch store commitFault w call) := by
  unfold commitWithoutBatch
  cases hlast : db.pending.getLast? with
  | none =>
    have hq := List.getLast?_eq_none_iff.mp hlast
    cases commitFault with
    | some e => exact ⟨⟨rfl, rfl, rfl⟩, rfl, rfl, rfl⟩
    | none => exact ⟨⟨rfl, rfl, rfl⟩, .commit hq hq, rfl, rfl⟩
  | some newest =>
    have hq := (List.dropLast_append_getLast? newest hlast).symm
    dsimp only
    split
    · next hj =>
      have hw := writeJournal_spec db store commitFault none newest.sequence (newest.joined + 1) w
        false
      split
      · next hr =>
        rw [hr] at hw
        exact hw
      · next hr =>
        rw [hr] at hw
        obtain ⟨hdb, rfl⟩ := hw
        subst hdb
        have hpart : journalPart db.journal newest.sequence (newest.joined + 1) w
            = [.putJournal newest.sequence (newest.joined + 1) (.writes w)] := by
          rw [journalPart, if_pos hj]
        rw [← hpart]
        exact ⟨⟨rfl, rfl, rfl⟩, .join _ newest _ hq rfl, rfl, rfl⟩
    · next hj =>
      have hpart : store.commit
          (journalPart db.journal newest.sequence (newest.joined + 1) w) = store := by
        rw [journalPart, if_neg hj, Store.commit_nil]
      refine ⟨⟨rfl, rfl, rfl⟩, ?_, rfl, rfl⟩
      have hjoin : Finished db { db with pending := db.pending.dropLast ++
          [PendingAck.join newest db.journal w (Engine.checkpoints db.engine)] } store w none
          (store.commit (journalPart db.journal newest.sequence (newest.joined + 1) w)) :=
        .join _ newest _ hq rfl
      rwa [hpart] at hjoin

/-- **The end of a call**, for every outcome of its commit and its sync. -/
theorem finishCall_spec (db : Db E) (store : Store) (commitFault syncFault : Outcome)
    (w : WriteBatch) (batch : Option ChangeBatch) (call : String) :
    EndSpec db store w batch (db.finishCall store commitFault syncFault w batch call) := by
  cases batch with
  | none => exact commitWithoutBatch_spec db store commitFault w call
  | some batch => exact pushPending_spec db store commitFault syncFault w batch

/-- A successful check: the instance is healthy, and the queue has a free place. -/
theorem checkIngest_ok {db : Db E} {data : InputData} {chain : List BlockCursor}
    {head : BlockCursor} {r} (h : db.checkIngest data chain head = .ok r) :
    db.poisoned = none ∧ db.syncFailed = none ∧
      (db.unackedBatches < db.maxPendingBatches ∨ db.pending = []) := by
  unfold checkIngest at h
  cases hs : db.syncFailed with
  | some reason => simp [guardNotPoisoned, guardSynced, hs, bind, Except.bind] at h
  | none =>
    cases hp : db.poisoned with
    | some reason => simp [guardNotPoisoned, guardSynced, hs, hp, bind, Except.bind] at h
    | none =>
      refine ⟨rfl, rfl, ?_⟩
      by_cases hroom : db.unackedBatches < db.maxPendingBatches
      · exact Or.inl hroom
      · right
        cases hq : db.pending with
        | nil => rfl
        | cons p ps =>
          cases hc : db.guardCallbacksReplayed <;>
            simp [guardNotPoisoned, guardSynced, hs, hp, hc, guardPendingRoom, hroom,
              guardNoPending, hq, bind, Except.bind] at h

/-- After a failed sync every call fails, and on a poisoned instance every call but `ack`. -/
def Unhealthy (db : Db E) : Prop := db.poisoned.isSome ∨ db.syncFailed.isSome

omit [Engine E] in
theorem guardNotPoisoned_error {db : Db E} (h : db.Unhealthy) :
    ∃ e, db.guardNotPoisoned = .error e := by
  unfold guardNotPoisoned guardSynced
  cases hs : db.syncFailed with
  | some reason => exact ⟨_, rfl⟩
  | none =>
    cases hp : db.poisoned with
    | some reason => exact ⟨_, rfl⟩
    | none => simp [Unhealthy, hs, hp] at h

theorem prepareIngest_unhealthy {db : Db E} (h : db.Unhealthy) (store : Store) (data : InputData)
    (chain : List BlockCursor) (head : BlockCursor) :
    ∃ e, db.prepareIngest store data chain head = (db, .error e) := by
  obtain ⟨e, he⟩ := guardNotPoisoned_error h
  refine ⟨e, ?_⟩
  simp [prepareIngest, checkIngest, he, bind, Except.bind]

theorem prepareFork_unhealthy {db : Db E} (h : db.Unhealthy) (store : Store)
    (chain : List BlockCursor) :
    ∃ e, db.prepareFork store chain = (db, .error e) := by
  obtain ⟨e, he⟩ := guardNotPoisoned_error h
  refine ⟨e, ?_⟩
  simp [prepareFork, he, bind, Except.bind]

/-- A fork call that gets through its guards. -/
theorem prepareFork_ok {db db' : Db E} {store : Store} {chain : List BlockCursor} {r}
    (h : db.prepareFork store chain = (db', .ok r)) :
    db.poisoned = none ∧ db.syncFailed = none ∧
      (db.unackedBatches < db.maxPendingBatches ∨ db.pending = []) := by
  have hhealthy : ¬ db.Unhealthy := by
    intro hu
    obtain ⟨e, he⟩ := prepareFork_unhealthy hu store chain
    rw [he] at h
    cases h
  simp only [Unhealthy, not_or, Option.not_isSome_iff_eq_none] at hhealthy
  refine ⟨hhealthy.1, hhealthy.2, ?_⟩
  by_cases hroom : db.unackedBatches < db.maxPendingBatches
  · exact Or.inl hroom
  · right
    cases hq : db.pending with
    | nil => rfl
    | cons p ps =>
      simp [prepareFork, guardNotPoisoned, guardSynced, hhealthy.1, hhealthy.2, guardPendingRoom,
        hroom, guardNoPending, hq, bind, Except.bind] at h

end Db

/-! ## The invariant -/

/-- What holds along every run of an instance opened as `x₀`. -/
structure WorldInv (x₀ x : World E) : Prop where
  /-- disk holds the committed write sets -/
  content : x.store.content = x₀.store.content.commit x.ledger.committed.flatten
  /-- the queue holds the others, batch by batch -/
  queue : List.Forall₂ (Queued x.db.journal) x.db.pending x.ledger.queued
  data : ∀ w ∈ x.ledger.calls, Db.DataOnly w
  /-- the returned sequences are consecutive -/
  returned : x.ledger.returned
    = List.range' x₀.store.nextSequence x.ledger.returned.length
  next : x.db.poisoned = none →
    x.db.buffer.nextSequence = x₀.store.nextSequence + x.ledger.returned.length
  /-- each write set of a group stores the sequence after its batch -/
  groups : ∀ group ∈ x.ledger.queued, ∀ w ∈ group.2, StoresNext (group.1 + 1) w
  /-- the last write set on disk stores the sequence after the last committed batch -/
  last : ∀ w, x.ledger.committed.getLast? = some w →
    StoresNext (x₀.store.nextSequence + x.ledger.acked.length) w
  none_acked : x.ledger.committed = [] → x.ledger.acked = []
  synced : x.db.syncFailed.isSome → x.db.poisoned.isSome
  room : x.db.unackedBatches ≤ x.db.maxPendingBatches
  maxPendingBatches : x.db.maxPendingBatches = x₀.db.maxPendingBatches
  journal : x.db.journal = x₀.db.journal

namespace WorldInv

variable {x₀ x : World E}

omit [Engine E] in
theorem init (h : x₀.Opened) : WorldInv x₀ x₀ where
  content := by simp [h.ledger]
  queue := by simp [h.pending, h.ledger]
  data := by simp [h.ledger, Ledger.calls]
  returned := by simp [h.ledger, Ledger.returned]
  next := by simp [h.next, h.ledger, Ledger.returned]
  groups := by simp [h.ledger]
  last := by simp [h.ledger]
  none_acked := by simp [h.ledger]
  synced := by simp [h.syncFailed]
  room := by simp [Db.unackedBatches, h.pending]
  maxPendingBatches := rfl
  journal := rfl

omit [Engine E] in
/-- A step that leaves queue, content and ledger alone. -/
theorem same (hi : WorldInv x₀ x) {x' : World E} (hl : x'.ledger = x.ledger)
    (hq : x'.db.pending = x.db.pending) (hc : x'.store.content = x.store.content)
    (hm : x'.db.maxPendingBatches = x.db.maxPendingBatches) (hj : x'.db.journal = x.db.journal)
    (hn : x'.db.poisoned = none →
      x.db.poisoned = none ∧ x'.db.buffer.nextSequence = x.db.buffer.nextSequence)
    (hs : x'.db.syncFailed.isSome → x'.db.poisoned.isSome) : WorldInv x₀ x' where
  content := by rw [hc, hl]; exact hi.content
  queue := by rw [hj, hq, hl]; exact hi.queue
  data := by rw [hl]; exact hi.data
  returned := by rw [hl]; exact hi.returned
  next := fun hp => by rw [(hn hp).2, hl]; exact hi.next (hn hp).1
  groups := by rw [hl]; exact hi.groups
  last := by rw [hl]; exact hi.last
  none_acked := by rw [hl]; exact hi.none_acked
  synced := hs
  room := by rw [hm, Db.unackedBatches, hq]; exact hi.room
  maxPendingBatches := hm.trans hi.maxPendingBatches
  journal := hj.trans hi.journal

omit [Engine E] in
theorem queue_sequences (hi : WorldInv x₀ x) :
    x.db.pending.map PendingAck.sequence = x.ledger.queued.map Prod.fst := by
  have h : ∀ {ps : List PendingAck} {gs : List (Nat × List WriteBatch)},
      List.Forall₂ (Queued x.db.journal) ps gs →
      ps.map PendingAck.sequence = gs.map Prod.fst := by
    intro ps gs h
    induction h with
    | nil => rfl
    | cons hp _ ih => rw [List.map_cons, List.map_cons, hp.sequence, ih]
  exact h hi.queue

omit [Engine E] in
/-- The last batch of a non-empty queue is the last returned one. -/
theorem newest_sequence (hi : WorldInv x₀ x) {init : List (Nat × List WriteBatch)}
    {newest : Nat × List WriteBatch} (hq : x.ledger.queued = init ++ [newest]) :
    newest.1 + 1 = x₀.store.nextSequence + x.ledger.returned.length := by
  have hr := hi.returned
  have hlen : x.ledger.returned.length = x.ledger.acked.length + init.length + 1 := by
    simp [Ledger.returned, hq]
    omega
  have hlast : x.ledger.returned[x.ledger.acked.length + init.length]? = some newest.1 := by
    simp [Ledger.returned, hq]
  rw [hr, List.getElem?_range' (by omega)] at hlast
  simp only [Option.some.injEq] at hlast
  omega

omit [Engine E] in
/-- **The end of a call keeps the invariant**, whatever storage answers. -/
theorem finish (hi : WorldInv x₀ x) {db₁ db₂ : Db E} {store₂ : Store} {w : WriteBatch}
    {batch : Option ChangeBatch} (hprep : Db.Prepared x.db db₁ w batch)
    (hpois : x.db.poisoned = none) (hsync : x.db.syncFailed = none)
    (hroom : x.db.unackedBatches < x.db.maxPendingBatches ∨ x.db.pending = [])
    (hmax : 1 ≤ x.db.maxPendingBatches)
    (hend : Db.FinishedEnd db₁ db₂ x.store store₂ w batch) :
    WorldInv x₀
      { db := db₂, store := store₂
        ledger := x.ledger.call w (batch.map ChangeBatch.sequence) } := by
  obtain ⟨⟨hmode, hjour, hbuf⟩, hfin, hp₂, hs₂⟩ := hend
  have hj : db₂.journal = x.db.journal := hjour.trans hprep.journal
  have hm : db₂.maxPendingBatches = x.db.maxPendingBatches := hmode.trans hprep.maxPendingBatches
  have hnext := hi.next hpois
  have hdata : ∀ w' ∈ (x.ledger.call w (batch.map ChangeBatch.sequence)).calls,
      Db.DataOnly w' := by
    rw [Ledger.calls_call]
    intro w' hw'
    rcases List.mem_append.mp hw' with hw' | hw'
    · exact hi.data w' hw'
    · rw [List.mem_singleton.mp hw']
      exact hprep.data
  have hsynced : db₂.syncFailed.isSome → db₂.poisoned.isSome := by
    rw [hs₂, hprep.syncFailed, hsync]
    intro h
    cases h
  -- the room that a queued batch or a joined call takes
  have hplaces : ∀ n : Nat, n ≤ x.db.unackedBatches + 1 → n ≤ db₂.maxPendingBatches := by
    intro n hn
    rw [hm]
    rcases hroom with h | h
    · omega
    · have : x.db.unackedBatches = 0 := by simp [Db.unackedBatches, h]
      omega
  cases hfin with
  | commit hq hq' =>
    have hqueued : x.ledger.queued = [] := by
      have := hi.queue
      rw [← hprep.pending, hq] at this
      exact List.forall₂_nil_left_iff.mp this
    have hseq : db₁.buffer.nextSequence = x.db.buffer.nextSequence := hprep.sequence
    have hret : x.ledger.returned = x.ledger.acked := by simp [Ledger.returned, hqueued]
    have hcall : x.ledger.call w none
        = { x.ledger with committed := x.ledger.committed ++ [w] } := by
      simp [Ledger.call, hqueued]
    rw [Option.map_none] at hdata ⊢
    rw [hcall] at hdata ⊢
    refine ⟨?_, ?_, hdata, hi.returned, ?_, hi.groups, ?_, by simp, hsynced, ?_,
      hm.trans hi.maxPendingBatches, hj.trans hi.journal⟩
    · show (x.store.commit w).content = _
      rw [Store.content_commit_of_not hprep.data, hi.content, List.flatten_append,
        Store.commit_append, List.flatten_singleton]
    · show List.Forall₂ (Queued db₂.journal) db₂.pending x.ledger.queued
      rw [hq', hqueued]
      exact .nil
    · intro _
      show db₂.buffer.nextSequence = _
      rw [hbuf, hseq]
      exact hnext
    · intro w' hw'
      have hw' : w' = w := by simpa using hw'.symm
      subst hw'
      obtain ⟨w₀, hw₀⟩ := hprep.next
      refine ⟨w₀, ?_⟩
      rw [hw₀, hseq, hnext, hret]
    · apply hplaces
      show db₂.unackedBatches ≤ _
      simp [Db.unackedBatches, hq']
  | join init newest checkpoint hq hq' =>
    have hqueue := hi.queue
    rw [← hprep.pending, hq] at hqueue
    obtain ⟨ginit, glast, hinit, hlast, hqueued⟩ : ∃ ginit glast,
        List.Forall₂ (Queued x.db.journal) init ginit ∧ Queued x.db.journal newest glast ∧
        x.ledger.queued = ginit ++ [glast] := by
      have hinit := List.forall₂_take init.length hqueue
      have htail := List.forall₂_drop init.length hqueue
      rw [List.take_left] at hinit
      rw [List.drop_left] at htail
      obtain ⟨glast, rest, hl, hrest, hdrop⟩ := List.forall₂_cons_left_iff.mp htail
      rw [List.forall₂_nil_left_iff.mp hrest] at hdrop
      refine ⟨_, glast, hinit, hl, ?_⟩
      rw [← hdrop, List.take_append_drop]
    have hseq : db₁.buffer.nextSequence = x.db.buffer.nextSequence := hprep.sequence
    have hcall : x.ledger.call w none
        = { x.ledger with queued := ginit ++ [(glast.1, glast.2 ++ [w])] } := by
      simp [Ledger.call, hqueued]
    have hret : ({ x.ledger with queued := ginit ++ [(glast.1, glast.2 ++ [w])] } : Ledger).returned
        = x.ledger.returned := by simp [Ledger.returned, hqueued]
    rw [Option.map_none] at hdata ⊢
    rw [hcall] at hdata ⊢
    refine ⟨?_, ?_, hdata, ?_, ?_, ?_, hi.last, hi.none_acked, hsynced, ?_,
      hm.trans hi.maxPendingBatches, hj.trans hi.journal⟩
    · show (x.store.commit _).content = _
      rw [Db.content_journalPart]
      exact hi.content
    · show List.Forall₂ (Queued db₂.journal) db₂.pending _
      rw [hq', hj, hprep.journal]
      exact List.rel_append hinit (.cons (hlast.join hprep.data checkpoint) .nil)
    · rw [hret]
      exact hi.returned
    · intro _
      show db₂.buffer.nextSequence = _
      rw [hbuf, hseq, hret]
      exact hnext
    · intro group hgroup w' hw'
      rcases List.mem_append.mp hgroup with hg | hg
      · exact hi.groups group (by rw [hqueued]; exact List.mem_append_left _ hg) w' hw'
      · rw [List.mem_singleton.mp hg] at hw' ⊢
        rcases List.mem_append.mp hw' with hw' | hw'
        · exact hi.groups glast (by simp [hqueued]) w' hw'
        · rw [List.mem_singleton.mp hw']
          obtain ⟨w₀, hw₀⟩ := hprep.next
          refine ⟨w₀, ?_⟩
          rw [hw₀, hseq, hnext, hi.newest_sequence hqueued]
    · apply hplaces
      show db₂.unackedBatches ≤ _
      rw [Db.unackedBatches, hq', Db.unackedBatches, ← hprep.pending, hq]
      simp [Db.PendingAck.join]
      omega
  | push b checkpoint hq' =>
    obtain ⟨hbseq, hseq⟩ := hprep.sequence
    have hret : (x.ledger.call w (some b.sequence)).returned
        = x.ledger.returned ++ [b.sequence] := by simp [Ledger.returned, Ledger.call]
    refine ⟨?_, ?_, hdata, ?_, ?_, ?_, hi.last, hi.none_acked, hsynced, ?_,
      hm.trans hi.maxPendingBatches, hj.trans hi.journal⟩
    · show (x.store.commit _).content = _
      rw [Db.content_journalPart]
      exact hi.content
    · show List.Forall₂ (Queued db₂.journal) db₂.pending _
      rw [hq', hj, hprep.pending, hprep.journal]
      exact List.rel_append hi.queue (.cons (Queued.new hprep.data b.sequence checkpoint) .nil)
    · show (x.ledger.call w (some b.sequence)).returned = _
      rw [Option.map_some, hret, List.length_append, List.length_singleton, List.range'_1_concat,
        ← hi.returned, hbseq, hnext]
    · intro _
      show db₂.buffer.nextSequence = _
      rw [hbuf, hseq, Option.map_some, hret, hnext, List.length_append, List.length_singleton]
      omega
    · intro group hgroup w' hw'
      rcases List.mem_append.mp hgroup with hg | hg
      · exact hi.groups group hg w' hw'
      · rw [List.mem_singleton.mp hg] at hw' ⊢
        rw [List.mem_singleton.mp hw']
        obtain ⟨w₀, hw₀⟩ := hprep.next
        refine ⟨w₀, ?_⟩
        rw [hw₀, hseq, hbseq]
    · apply hplaces
      show db₂.unackedBatches ≤ _
      rw [Db.unackedBatches, hq', Db.unackedBatches, ← hprep.pending]
      simp

omit [Engine E] in
/-- A preparation that failed changes engine and poison only. -/
theorem failed (hi : WorldInv x₀ x) {db' : Db E} (he : Db.EngineOnly x.db db')
    (hu : x.db.Unhealthy → db' = x.db) :
    WorldInv x₀ { db := db', store := x.store, ledger := x.ledger } := by
  refine hi.same rfl he.pending rfl he.maxPendingBatches he.journal ?_ ?_
  · intro hp
    cases hpois : x.db.poisoned with
    | none => exact ⟨rfl, by rw [he.buffer]⟩
    | some reason =>
      have hdb := hu (Or.inl (by simp [hpois]))
      rw [hdb, hpois] at hp
      cases hp
  · intro hs
    have hs : x.db.syncFailed.isSome := by rw [← he.syncFailed]; exact hs
    have hdb := hu (Or.inr hs)
    show db'.poisoned.isSome
    rw [hdb]
    exact hi.synced hs

omit [Engine E] in
/-- An end of a call that failed poisons the instance. -/
theorem failedEnd (hi : WorldInv x₀ x) {db₁ db₂ : Db E} {store₂ : Store}
    (hq : Db.SameQueue x.db db₁) (he : Db.FailedEnd db₁ db₂ x.store store₂) :
    WorldInv x₀ { db := db₂, store := store₂, ledger := x.ledger } := by
  refine hi.same rfl (he.pending.trans hq.pending) he.content
    (he.maxPendingBatches.trans hq.maxPendingBatches) (he.journal.trans hq.journal) ?_
    (fun _ => he.poisoned)
  intro hp
  have := he.poisoned
  have hp : db₂.poisoned = none := hp
  rw [hp] at this
  cases this

theorem ingest (hi : WorldInv x₀ x) (hmax : 1 ≤ x.db.maxPendingBatches)
    (commitFault syncFault : Outcome) (data : Db.InputData) (chain : List BlockCursor)
    (head : BlockCursor) :
    WorldInv x₀ (x.ingest commitFault syncFault data chain head) := by
  unfold World.ingest Db.ingest
  have hspec := x.db.prepareIngest_spec x.store data chain head
  cases hprep : x.db.prepareIngest x.store data chain head with
  | mk db₁ result =>
    rw [hprep] at hspec
    cases result with
    | error e =>
      refine hi.failed hspec ?_
      intro hu
      obtain ⟨e', he'⟩ := Db.prepareIngest_unhealthy hu x.store data chain head
      rw [he'] at hprep
      exact (congrArg Prod.fst hprep).symm
    | ok r =>
      obtain ⟨w, batch⟩ := r
      obtain ⟨hpois, hsync, hroom⟩ : x.db.poisoned = none ∧ x.db.syncFailed = none ∧
          (x.db.unackedBatches < x.db.maxPendingBatches ∨ x.db.pending = []) := by
        unfold Db.prepareIngest at hprep
        split at hprep
        · cases hprep
        · next hc => exact Db.checkIngest_ok hc
      have hend := db₁.finishCall_spec x.store commitFault syncFault w batch "heartbeat ingest"
      dsimp only
      cases hf : db₁.finishCall x.store commitFault syncFault w batch "heartbeat ingest" with
      | mk db₂ rest =>
        obtain ⟨store₂, result⟩ := rest
        rw [hf] at hend
        cases result with
        | error e => exact hi.failedEnd hspec.toSameQueue hend
        | ok _ => exact hi.finish hspec hpois hsync hroom hmax hend

theorem handleFork (hi : WorldInv x₀ x) (hmax : 1 ≤ x.db.maxPendingBatches)
    (commitFault syncFault : Outcome) (chain : List BlockCursor) :
    WorldInv x₀ (x.handleFork commitFault syncFault chain) := by
  unfold World.handleFork Db.handleFork
  have hspec := x.db.prepareFork_spec x.store chain
  cases hprep : x.db.prepareFork x.store chain with
  | mk db₁ result =>
    rw [hprep] at hspec
    cases result with
    | error e =>
      refine hi.failed hspec ?_
      intro hu
      obtain ⟨e', he'⟩ := Db.prepareFork_unhealthy hu x.store chain
      rw [he'] at hprep
      exact (congrArg Prod.fst hprep).symm
    | ok r =>
      obtain ⟨cursor, w, batch⟩ := r
      obtain ⟨hpois, hsync, hroom⟩ := Db.prepareFork_ok hprep
      have hend := db₁.finishCall_spec x.store commitFault syncFault w batch "heartbeat handle_fork"
      dsimp only
      cases hf : db₁.finishCall x.store commitFault syncFault w batch "heartbeat handle_fork" with
      | mk db₂ rest =>
        obtain ⟨store₂, result⟩ := rest
        rw [hf] at hend
        cases result with
        | error e => exact hi.failedEnd hspec.toSameQueue hend
        | ok _ => exact hi.finish hspec hpois hsync hroom hmax hend

/-! ### Acks -/

omit [Engine E] in
/-- The oldest `k` batches go to disk. -/
theorem commitFirst (hi : WorldInv x₀ x) {x' : World E} (k : Nat)
    (hl : x'.ledger = x.ledger.commitFirst k) (hq : x'.db.pending = x.db.pending.drop k)
    (hst : x'.store = x.store.commit ((x.db.pending.take k).flatMap PendingAck.writeBatch))
    (hm : x'.db.maxPendingBatches = x.db.maxPendingBatches) (hj : x'.db.journal = x.db.journal)
    (hn : x'.db.poisoned = none →
      x.db.poisoned = none ∧ x'.db.buffer.nextSequence = x.db.buffer.nextSequence)
    (hs : x'.db.syncFailed.isSome → x'.db.poisoned.isSome) : WorldInv x₀ x' := by
  have hret : (x.ledger.commitFirst k).returned = x.ledger.returned := by
    simp only [Ledger.returned, Ledger.commitFirst, List.append_assoc]
    rw [← List.map_append, List.take_append_drop]
  refine ⟨?_, ?_, ?_, ?_, ?_, ?_, ?_, ?_, hs, ?_, hm.trans hi.maxPendingBatches,
    hj.trans hi.journal⟩
  · rw [hst, Queued.content_all (List.forall₂_take k hi.queue), hi.content, hl, Ledger.commitFirst,
      List.flatten_append, Store.commit_append]
  · rw [hj, hq, hl]
    exact List.forall₂_drop k hi.queue
  · rw [hl, Ledger.calls_commitFirst]
    exact hi.data
  · rw [hl, hret]
    exact hi.returned
  · intro hp
    rw [(hn hp).2, hl, hret]
    exact hi.next (hn hp).1
  · rw [hl]
    intro group hg
    exact hi.groups group (List.mem_of_mem_drop hg)
  · intro w hw
    rw [hl] at hw ⊢
    rcases Nat.eq_zero_or_pos (x.ledger.queued.take k).length with hz | hpos
    · -- nothing moved
      have hnil := List.eq_nil_of_length_eq_zero hz
      simp only [Ledger.commitFirst, hnil, List.flatMap_nil, List.append_nil, List.map_nil] at hw ⊢
      exact hi.last w hw
    · -- the last write set of the last moved group
      obtain ⟨init, group, hgroups⟩ : ∃ init group, x.ledger.queued.take k = init ++ [group] :=
        ⟨_, _, (List.dropLast_append_getLast (List.ne_nil_of_length_pos hpos)).symm⟩
      have hmem : group ∈ x.ledger.queued :=
        List.mem_of_mem_take (by rw [hgroups]; simp : group ∈ x.ledger.queued.take k)
      have hseq : group.1 + 1
          = x₀.store.nextSequence + (x.ledger.acked.length + (init.length + 1)) := by
        have hr := hi.returned
        have hlast : x.ledger.returned[x.ledger.acked.length + init.length]? = some group.1 := by
          rw [← hret]
          simp [Ledger.returned, Ledger.commitFirst, hgroups]
        rw [hr, List.getElem?_range'] at hlast
        · simp only [Option.some.injEq] at hlast
          omega
        · by_contra hge
          rw [hr, List.getElem?_eq_none (by simpa using Nat.not_lt.mp hge)] at hlast
          cases hlast
      have hw' : w ∈ group.2 := by
        have hne := Queued.ne_nil hi.queue group hmem
        have hgl : (x.ledger.commitFirst k).committed.getLast? = group.2.getLast? := by
          simp only [Ledger.commitFirst, hgroups, List.flatMap_append, List.flatMap_singleton]
          rw [← List.append_assoc, List.getLast?_append]
          cases hg : group.2.getLast? with
          | none => exact absurd (List.getLast?_eq_none_iff.mp hg) hne
          | some _ => rfl
        rw [hgl] at hw
        exact List.mem_of_getLast? hw
      have hlen : (x.ledger.commitFirst k).acked.length
          = x.ledger.acked.length + (init.length + 1) := by
        simp [Ledger.commitFirst, hgroups]
      rw [hlen, ← hseq]
      exact hi.groups group hmem w hw'
  · rw [hl]
    simp only [Ledger.commitFirst, List.append_eq_nil_iff, List.flatMap_eq_nil_iff]
    rintro ⟨hc, hgroups⟩
    refine ⟨hi.none_acked hc, ?_⟩
    have hnil : x.ledger.queued.take k = [] := by
      apply List.eq_nil_iff_forall_not_mem.mpr
      intro group hg
      exact Queued.ne_nil hi.queue group (List.mem_of_mem_take hg) (hgroups group hg)
    rw [hnil, List.map_nil]
  · rw [hm, Db.unackedBatches, hq]
    refine Nat.le_trans ?_ hi.room
    rw [Db.unackedBatches]
    conv_rhs => rw [← List.take_append_drop k x.db.pending, List.map_append, List.sum_append]
    omega

theorem ack (hi : WorldInv x₀ x) (faults : List Outcome) (syncFault : Outcome) (sequence : Nat) :
    WorldInv x₀ (x.ack faults syncFault sequence) := by
  unfold World.ack Db.ack World.ackTaken Db.guardSynced
  cases hs : x.db.syncFailed with
  | some reason =>
    exact hi.same rfl rfl rfl rfl rfl (fun h => ⟨h, rfl⟩) hi.synced
  | none =>
    dsimp only
    cases hlast : x.db.pending.getLast? with
    | none =>
      -- an empty queue: nothing moves
      have hq := List.getLast?_eq_none_iff.mp hlast
      have hqueued : x.ledger.queued = [] := by
        have := hi.queue
        rw [hq] at this
        exact List.forall₂_nil_left_iff.mp this
      have hl : x.ledger.ack sequence faults = x.ledger := by
        simp [Ledger.ack, hqueued, Ledger.ackCount, Ledger.commitFirst]
        rw [← hqueued]
      refine hi.same ?_ rfl rfl rfl rfl (fun h => ⟨h, rfl⟩) hi.synced
      simpa using hl
    | some newest =>
      dsimp only
      by_cases hcov : newest.sequence < sequence
      · rw [if_pos hcov]
        refine hi.same ?_ rfl rfl rfl rfl (fun h => ⟨h, rfl⟩) hi.synced
        simp [Nat.not_le.mpr hcov]
      · obtain ⟨h1, h2, h3, h4, h5, h6, h7, h8, h9⟩ :=
          Db.ackLoop_spec sequence hi.queue faults x.db x.store
        rw [if_neg hcov]
        have htaken : (Option.isNone (none : Option String) && decide (sequence ≤ newest.sequence))
            = true := by simpa using Nat.not_lt.mp hcov
        rw [htaken, if_pos rfl]
        split
        · exact hi.commitFirst _ rfl h1 h2 h9 h7 (fun h => by cases h) (fun _ => rfl)
        · refine hi.commitFirst _ rfl h1 h2 h9 h7 (fun h => ?_) (fun h => ?_)
          · refine ⟨h5.symm.trans h, ?_⟩
            show (Db.ackLoop sequence x.db.pending faults x.db x.store).1.buffer.nextSequence = _
            rw [h8]
          · have h : x.db.syncFailed.isSome := by rw [← h6]; exact h
            rw [hs] at h
            cases h

/-- **Every call keeps the invariant.** -/
theorem step (hi : WorldInv x₀ x) (hmax : 1 ≤ x.db.maxPendingBatches) {x' : World E}
    (hs : DbStep x x') : WorldInv x₀ x' := by
  cases hs with
  | ingest commitFault syncFault data chain head =>
    exact hi.ingest hmax commitFault syncFault data chain head
  | handleFork commitFault syncFault chain => exact hi.handleFork hmax commitFault syncFault chain
  | ack faults syncFault sequence => exact hi.ack faults syncFault sequence

/-- **The invariant holds along every run.** -/
theorem of_run (hr : DbRun x₀ x) : WorldInv x₀ x := by
  obtain ⟨hopen, hsteps⟩ := hr
  induction hsteps with
  | refl => exact init hopen
  | tail _ hstep ih =>
    refine ih.step ?_ hstep
    rw [ih.maxPendingBatches]
    exact hopen.room

omit [Engine E] in
/-- The next sequence that disk holds is the one after the last committed batch. -/
theorem store_nextSequence (hi : WorldInv x₀ x) :
    x.store.nextSequence = x₀.store.nextSequence + x.ledger.acked.length := by
  have hmetas : x.store.metas = (x₀.store.content.commit x.ledger.committed.flatten).metas := by
    rw [← hi.content]
    rfl
  rw [Store.nextSequence, hmetas]
  cases hlast : x.ledger.committed.getLast? with
  | none =>
    have hnil := List.getLast?_eq_none_iff.mp hlast
    rw [hi.none_acked hnil, hnil]
    rfl
  | some w =>
    have hstored := hi.last w hlast
    rw [← List.dropLast_append_getLast? w hlast, List.flatten_append, List.flatten_singleton,
      Store.commit_append, hstored.commit]

end WorldInv

/-! ## Commit order under faults -/

/-- The answer of an ack that commits the groups in `front` and leaves those in `rest`: the failure
of its sync, else that of the commit at which it stops. -/
def ackAnswer (journal : Bool) (faults : List Outcome) (syncFault : Outcome) (sequence : Nat)
    (front rest : List (Nat × List WriteBatch)) : Except Error Unit :=
  match !front.isEmpty && !journal, syncFault with
  | true, some e => .error (.syncFailed e.text)
  | _, _ =>
    match rest.head? with
    | some group =>
      if group.1 ≤ sequence then
        match faults.getD front.length none with
        | some e => .error e
        | none => .ok ()
      else .ok ()
    | none => .ok ()

/-- What the commit protocol promises in state `x` of a run from `x₀`. -/
structure CommitOrder (x₀ x : World E) : Prop where
  /-- disk, the journal aside, is what a prefix of the successful calls wrote -/
  disk : x.store.content = x₀.store.content.commit x.ledger.committed.flatten
  /-- and the queue holds the write sets of the other calls, each batch with those that
  joined it -/
  queue : List.Forall₂ (Queued x.db.journal) x.db.pending x.ledger.queued
  /-- a call without a batch commits at once only when the queue is empty -/
  ingest_commits : ∀ commitFault syncFault data chain head,
    (x.ingest commitFault syncFault data chain head).ledger.committed ≠ x.ledger.committed →
      x.db.pending = []
  fork_commits : ∀ commitFault syncFault chain,
    (x.handleFork commitFault syncFault chain).ledger.committed ≠ x.ledger.committed →
      x.db.pending = []
  /-- an ack moves the oldest groups that it covers to disk, in order, and the others stay
  queued; it stops at the first commit that fails -/
  ack_commits : ∀ faults syncFault sequence, ∃ front rest,
    x.ledger.queued = front ++ rest ∧
    (x.ack faults syncFault sequence).ledger.queued = rest ∧
    (x.ack faults syncFault sequence).ledger.committed
      = x.ledger.committed ++ front.flatMap Prod.snd ∧
    (∀ group ∈ front, group.1 ≤ sequence) ∧
    (∀ i < front.length, faults.getD i none = none) ∧
    (x.ackTaken sequence → ∀ group, rest.head? = some group → group.1 ≤ sequence →
      (faults.getD front.length none).isSome)
  /-- its answer is the first failure among these commits and its sync; one that is not taken is an
  error -/
  ack_answers : x.db.syncFailed = none → ∀ faults syncFault sequence,
    (x.ackTaken sequence → ∃ front rest,
      x.ledger.queued = front ++ rest ∧
      (x.ack faults syncFault sequence).ledger.queued = rest ∧
      (x.db.ack x.store faults syncFault sequence).2.2
        = ackAnswer x.db.journal faults syncFault sequence front rest) ∧
    (x.ackTaken sequence = false → ∃ newest, x.db.pending.getLast? = some newest ∧
      x.db.ack x.store faults syncFault sequence
        = (x.db, x.store, .error (.wrongAckSequence newest.sequence sequence)))
  /-- on a poisoned instance every call but `ack` fails and changes nothing -/
  poisoned : x.db.poisoned.isSome →
    (∀ commitFault syncFault data chain head, ∃ e,
      x.db.ingest x.store commitFault syncFault data chain head = (x.db, x.store, .error e)) ∧
    (∀ commitFault syncFault chain, ∃ e,
      x.db.handleFork x.store commitFault syncFault chain = (x.db, x.store, .error e))
  /-- after a failed sync every call fails and changes nothing -/
  syncFailed : x.db.syncFailed.isSome → x.db.poisoned.isSome ∧
    ∀ faults syncFault sequence, ∃ e,
      x.db.ack x.store faults syncFault sequence = (x.db, x.store, .error e)
  /-- a sync that fails after an ack is remembered -/
  sync_remembered : ∀ faults e sequence,
    (x.ack faults (some e) sequence).ledger.acked ≠ x.ledger.acked → x.db.journal = false →
      (x.ack faults (some e) sequence).db.syncFailed.isSome
  /-- with the journal, a call that has a batch to return syncs it first: where this sync fails,
  the call fails, and this is remembered -/
  ingest_sync_remembered : x.db.journal → ∀ e data chain head db store batch,
    x.db.ingest x.store none none data chain head = (db, store, .ok (some batch)) →
      (x.db.ingest x.store none (some e) data chain head).2.2 = .error (.syncFailed e.text) ∧
      (x.ingest none (some e) data chain head).db.syncFailed.isSome
  fork_sync_remembered : x.db.journal → ∀ e chain db store cursor batch,
    x.db.handleFork x.store none none chain = (db, store, .ok (cursor, some batch)) →
      (x.db.handleFork x.store none (some e) chain).2.2 = .error (.syncFailed e.text) ∧
      (x.handleFork none (some e) chain).db.syncFailed.isSome

theorem Ledger.call_committed {l : Ledger} {w : WriteBatch} {batch : Option Nat}
    (h : (l.call w batch).committed ≠ l.committed) : l.queued = [] := by
  cases batch with
  | some sequence => exact absurd rfl h
  | none =>
    rw [Ledger.call] at h
    cases hl : l.queued.getLast? with
    | none => exact List.getLast?_eq_none_iff.mp hl
    | some newest =>
      rw [hl] at h
      exact absurd rfl h

variable {x₀ x : World E}

omit [Engine E] in
theorem WorldInv.pending_nil (hi : WorldInv x₀ x) (h : x.ledger.queued = []) :
    x.db.pending = [] := by
  have := hi.queue
  rw [h] at this
  exact List.forall₂_nil_right_iff.mp this

theorem World.ack_commits (x : World E) (faults : List Outcome) (syncFault : Outcome)
    (sequence : Nat) : ∃ front rest,
      x.ledger.queued = front ++ rest ∧
      (x.ack faults syncFault sequence).ledger.queued = rest ∧
      (x.ack faults syncFault sequence).ledger.committed
        = x.ledger.committed ++ front.flatMap Prod.snd ∧
      (∀ group ∈ front, group.1 ≤ sequence) ∧
      (∀ i < front.length, faults.getD i none = none) ∧
      (x.ackTaken sequence → ∀ group, rest.head? = some group → group.1 ≤ sequence →
        (faults.getD front.length none).isSome) := by
  by_cases htaken : x.ackTaken sequence
  · obtain ⟨hlen, hcov, hok, hstop⟩ := Ledger.ackCount_spec sequence x.ledger.queued faults
    refine ⟨x.ledger.queued.take (Ledger.ackCount sequence x.ledger.queued faults),
      x.ledger.queued.drop (Ledger.ackCount sequence x.ledger.queued faults),
      (List.take_append_drop _ _).symm, ?_, ?_, hcov, ?_, ?_⟩
    · simp [World.ack, htaken, Ledger.ack, Ledger.commitFirst]
    · simp [World.ack, htaken, Ledger.ack, Ledger.commitFirst]
    · intro i hlt
      exact hok i (Nat.lt_of_lt_of_le hlt (List.length_take_le _ _))
    · intro _ group hgroup hle
      rw [List.length_take, Nat.min_eq_left hlen]
      exact hstop group (by rw [← hgroup, List.head?_drop]) hle
  · refine ⟨[], x.ledger.queued, rfl, ?_, ?_, by simp, by simp, fun h => absurd h htaken⟩
    · simp [World.ack, htaken]
    · simp [World.ack, htaken]

theorem Db.ack_syncFailed {db : Db E} (h : db.syncFailed.isSome) (store : Store)
    (faults : List Outcome) (syncFault : Outcome) (sequence : Nat) :
    ∃ e, db.ack store faults syncFault sequence = (db, store, .error e) := by
  obtain ⟨reason, hr⟩ := Option.isSome_iff_exists.mp h
  exact ⟨_, by simp [Db.ack, Db.guardSynced, hr]; rfl⟩

theorem WorldInv.sync_remembered (hi : WorldInv x₀ x) (faults : List Outcome) (e : Error)
    (sequence : Nat)
    (hmoved : (x.ack faults (some e) sequence).ledger.acked ≠ x.ledger.acked)
    (hj : x.db.journal = false) : (x.ack faults (some e) sequence).db.syncFailed.isSome := by
  have htaken : x.ackTaken sequence = true := by
    by_contra h
    simp [World.ack, h] at hmoved
  obtain ⟨h1, h2, h3, h4, h5, h6, h7, h8, h9⟩ :=
    Db.ackLoop_spec sequence hi.queue faults x.db x.store
  -- some group moved, so the loop committed and the ack syncs
  have hk : 0 < Ledger.ackCount sequence x.ledger.queued faults := by
    rcases Nat.eq_zero_or_pos (Ledger.ackCount sequence x.ledger.queued faults) with hz | hpos
    · simp [World.ack, htaken, Ledger.ack, hz, Ledger.commitFirst] at hmoved
    · exact hpos
  have hsync : x.db.syncFailed = none := by
    simp only [World.ackTaken, Bool.and_eq_true, Option.isNone_iff_eq_none] at htaken
    exact htaken.1
  cases hlast : x.db.pending.getLast? with
  | none =>
    have hq := List.getLast?_eq_none_iff.mp hlast
    have hqueued : x.ledger.queued = [] := by
      have := hi.queue
      rw [hq] at this
      exact List.forall₂_nil_left_iff.mp this
    simp [hqueued, Ledger.ackCount] at hk
  | some newest =>
    have hcov : ¬ newest.sequence < sequence := by
      simp only [World.ackTaken, hlast, Bool.and_eq_true, decide_eq_true_eq] at htaken
      omega
    have hcommitted : ((Db.ackLoop sequence x.db.pending faults x.db x.store).2.2.2
        && !(Db.ackLoop sequence x.db.pending faults x.db x.store).1.journal) = true := by
      rw [h4, h7, hj]
      simpa using hk
    simp [World.ack, Db.ack, Db.guardSynced, hsync, hlast, hcov, hcommitted]

/-- The answer of an ack. -/
theorem WorldInv.ack_answers (hi : WorldInv x₀ x) (hsync : x.db.syncFailed = none)
    (faults : List Outcome) (syncFault : Outcome) (sequence : Nat) :
    (x.ackTaken sequence → ∃ front rest,
      x.ledger.queued = front ++ rest ∧
      (x.ack faults syncFault sequence).ledger.queued = rest ∧
      (x.db.ack x.store faults syncFault sequence).2.2
        = ackAnswer x.db.journal faults syncFault sequence front rest) ∧
    (x.ackTaken sequence = false → ∃ newest, x.db.pending.getLast? = some newest ∧
      x.db.ack x.store faults syncFault sequence
        = (x.db, x.store, .error (.wrongAckSequence newest.sequence sequence))) := by
  have hguard : x.db.guardSynced = .ok () := by
    rw [Db.guardSynced, hsync]
  cases hlast : x.db.pending.getLast? with
  | none =>
    have htaken : x.ackTaken sequence = true := by
      rw [World.ackTaken, hsync, hlast]
      rfl
    refine ⟨fun _ => ?_, fun hnot => absurd htaken (by rw [hnot]; decide)⟩
    have hqueued : x.ledger.queued = [] := by
      have hqueue := hi.queue
      rw [List.getLast?_eq_none_iff.mp hlast] at hqueue
      exact List.forall₂_nil_left_iff.mp hqueue
    refine ⟨[], [], hqueued, ?_, ?_⟩
    · simp [World.ack, htaken, Ledger.ack, Ledger.commitFirst, hqueued]
    · rw [Db.ack, hguard]
      dsimp only
      rw [hlast]
      rfl
  | some newest =>
    have htaken : x.ackTaken sequence = decide (sequence ≤ newest.sequence) := by
      rw [World.ackTaken, hsync, hlast]
      rfl
    by_cases hcov : newest.sequence < sequence
    · refine ⟨fun h => ?_, fun _ => ⟨newest, rfl, ?_⟩⟩
      · rw [htaken, decide_eq_true_eq] at h
        omega
      · rw [Db.ack, hguard]
        dsimp only
        rw [hlast]
        dsimp only
        rw [if_pos hcov]
    · have htrue : x.ackTaken sequence = true := by
        rw [htaken]
        simpa using Nat.not_lt.mp hcov
      refine ⟨fun _ => ?_, fun hnot => absurd htrue (by rw [hnot]; decide)⟩
      obtain ⟨-, -, hresult, hcommitted, -, -, hjournal, -, -⟩ :=
        Db.ackLoop_spec sequence hi.queue faults x.db x.store
      obtain ⟨hlen, -, -, -⟩ := Ledger.ackCount_spec sequence x.ledger.queued faults
      refine ⟨x.ledger.queued.take (Ledger.ackCount sequence x.ledger.queued faults),
        x.ledger.queued.drop (Ledger.ackCount sequence x.ledger.queued faults),
        (List.take_append_drop _ _).symm, ?_, ?_⟩
      · simp [World.ack, htrue, Ledger.ack, Ledger.commitFirst]
      · have hempty : (x.ledger.queued.take
            (Ledger.ackCount sequence x.ledger.queued faults)).isEmpty
              = !decide (0 < Ledger.ackCount sequence x.ledger.queued faults) := by
          rcases Nat.eq_zero_or_pos (Ledger.ackCount sequence x.ledger.queued faults) with hz | hpos
          · rw [hz]
            rfl
          · have hne : x.ledger.queued ≠ [] := List.ne_nil_of_length_pos (by omega)
            simp [hpos, hne, Nat.ne_of_gt hpos]
        unfold ackAnswer Db.ack
        simp only [hguard, hlast, if_neg hcov, hempty, Bool.not_not, List.head?_drop,
          List.length_take, Nat.min_eq_left hlen, hcommitted, hjournal]
        -- the sync of an ack that committed a batch comes before the answer of its loop
        cases decide (0 < Ledger.ackCount sequence x.ledger.queued faults) && !x.db.journal with
        | true =>
          cases syncFault with
          | some e => rfl
          | none => exact hresult
        | false => exact hresult

theorem Db.ingest_ok {db db' : Db E} {store store' : Store} {commitFault syncFault : Outcome}
    {data : Db.InputData} {chain : List BlockCursor} {head : BlockCursor}
    {batch : Option ChangeBatch}
    (h : db.ingest store commitFault syncFault data chain head = (db', store', .ok batch)) :
    ∃ db₁ w, db.prepareIngest store data chain head = (db₁, .ok (w, batch)) := by
  unfold Db.ingest at h
  split at h
  · cases h
  · next db₁ w b hp =>
    split at h
    · cases h
    · cases h
      exact ⟨db₁, w, hp⟩

theorem Db.handleFork_ok {db db' : Db E} {store store' : Store} {commitFault syncFault : Outcome}
    {chain : List BlockCursor} {cursor : BlockCursor} {batch : Option ChangeBatch}
    (h : db.handleFork store commitFault syncFault chain = (db', store', .ok (cursor, batch))) :
    ∃ db₁ w, db.prepareFork store chain = (db₁, .ok (cursor, w, batch)) := by
  unfold Db.handleFork at h
  split at h
  · cases h
  · next db₁ cursor' w b hp =>
    split at h
    · cases h
    · cases h
      exact ⟨db₁, w, hp⟩

/-- A journaled batch whose sync fails. -/
theorem Db.finishCall_syncFailed {db : Db E} (hj : db.journal = true) (store : Store) (e : Error)
    (w : WriteBatch) (batch : ChangeBatch) (call : String) :
    (db.finishCall store none (some e) w (some batch) call).2.2 = .error (.syncFailed e.text) ∧
      (db.finishCall store none (some e) w (some batch) call).1.syncFailed = some e.text := by
  rw [Db.finishCall]
  rw [Db.pushPending]
  dsimp only
  rw [if_pos hj, Db.writeJournal]
  exact ⟨rfl, rfl⟩

theorem World.ingest_sync_remembered {x : World E} (hj : x.db.journal = true) (e : Error)
    (data : Db.InputData) (chain : List BlockCursor) (head : BlockCursor) (db : Db E)
    (store : Store) (batch : ChangeBatch)
    (hcall : x.db.ingest x.store none none data chain head = (db, store, .ok (some batch))) :
    (x.db.ingest x.store none (some e) data chain head).2.2 = .error (.syncFailed e.text) ∧
      (x.ingest none (some e) data chain head).db.syncFailed.isSome := by
  obtain ⟨db₁, w, hprep⟩ := Db.ingest_ok hcall
  have hspec := x.db.prepareIngest_spec x.store data chain head
  rw [hprep] at hspec
  have hj₁ : db₁.journal = true := by
    rw [hspec.journal, hj]
  obtain ⟨hanswer, hsync⟩ := Db.finishCall_syncFailed hj₁ x.store e w batch "heartbeat ingest"
  have hfail : x.db.ingest x.store none (some e) data chain head
      = ((db₁.finishCall x.store none (some e) w (some batch) "heartbeat ingest").1,
        (db₁.finishCall x.store none (some e) w (some batch) "heartbeat ingest").2.1,
        .error (.syncFailed e.text)) := by
    rw [Db.ingest, hprep]
    dsimp only
    split
    · next h =>
      rw [h] at hanswer ⊢
      cases hanswer
      rfl
    · next h =>
      rw [h] at hanswer
      cases hanswer
  refine ⟨by rw [hfail], ?_⟩
  rw [World.ingest, hfail]
  exact Option.isSome_iff_exists.mpr ⟨_, hsync⟩

theorem World.fork_sync_remembered {x : World E} (hj : x.db.journal = true) (e : Error)
    (chain : List BlockCursor) (db : Db E) (store : Store) (cursor : BlockCursor)
    (batch : ChangeBatch)
    (hcall : x.db.handleFork x.store none none chain = (db, store, .ok (cursor, some batch))) :
    (x.db.handleFork x.store none (some e) chain).2.2 = .error (.syncFailed e.text) ∧
      (x.handleFork none (some e) chain).db.syncFailed.isSome := by
  obtain ⟨db₁, w, hprep⟩ := Db.handleFork_ok hcall
  have hspec := x.db.prepareFork_spec x.store chain
  rw [hprep] at hspec
  have hj₁ : db₁.journal = true := by
    rw [hspec.journal, hj]
  obtain ⟨hanswer, hsync⟩ := Db.finishCall_syncFailed hj₁ x.store e w batch "heartbeat handle_fork"
  have hfail : x.db.handleFork x.store none (some e) chain
      = ((db₁.finishCall x.store none (some e) w (some batch) "heartbeat handle_fork").1,
        (db₁.finishCall x.store none (some e) w (some batch) "heartbeat handle_fork").2.1,
        .error (.syncFailed e.text)) := by
    rw [Db.handleFork, hprep]
    dsimp only
    split
    · next h =>
      rw [h] at hanswer ⊢
      cases hanswer
      rfl
    · next h =>
      rw [h] at hanswer
      cases hanswer
  refine ⟨by rw [hfail], ?_⟩
  rw [World.handleFork, hfail]
  exact Option.isSome_iff_exists.mpr ⟨_, hsync⟩

/-- **Commit order under faults.** In every run of ingest, fork and ack calls with any pattern
of commit and sync failures, disk is at every moment what a prefix of the successful ingest and
fork calls wrote, and the rest of them waits in the queue, batch by batch. -/
theorem commit_order (hr : DbRun x₀ x) : CommitOrder x₀ x := by
  have hi := WorldInv.of_run hr
  refine ⟨hi.content, hi.queue, ?_, ?_, x.ack_commits, hi.ack_answers, ?_, ?_,
    hi.sync_remembered, World.ingest_sync_remembered, World.fork_sync_remembered⟩
  · intro commitFault syncFault data chain head hne
    unfold World.ingest at hne
    dsimp only at hne
    split at hne
    · exact hi.pending_nil (Ledger.call_committed hne)
    · exact absurd rfl hne
  · intro commitFault syncFault chain hne
    unfold World.handleFork at hne
    dsimp only at hne
    split at hne
    · exact hi.pending_nil (Ledger.call_committed hne)
    · exact absurd rfl hne
  · intro hp
    refine ⟨?_, ?_⟩
    · intro commitFault syncFault data chain head
      obtain ⟨e, he⟩ := Db.prepareIngest_unhealthy (Or.inl hp) x.store data chain head
      exact ⟨e, by rw [Db.ingest, he]⟩
    · intro commitFault syncFault chain
      obtain ⟨e, he⟩ := Db.prepareFork_unhealthy (Or.inl hp) x.store chain
      exact ⟨e, by rw [Db.handleFork, he]⟩
  · intro hs
    exact ⟨hi.synced hs, fun faults syncFault sequence =>
      Db.ack_syncFailed hs x.store faults syncFault sequence⟩

/-- One trade waits for its ack, and the first commit of that ack fails. -/
theorem commit_order_failed_ack :
    ((tradesIngested false).ack [some (.storage "full")] none 1).ledger.queued.length = 1 ∧
    CommitOrder (tradesWorld false)
      ((tradesIngested false).ack [some (.storage "full")] none 1) := by
  refine ⟨by decide +kernel, commit_order ⟨tradesWorld_opened false, ?_⟩⟩
  exact (Relation.ReflTransGen.single (.ingest _ none none _ _ _)).tail (.ack _ _ none 1)

end Settle
