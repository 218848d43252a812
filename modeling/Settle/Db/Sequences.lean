import Settle.Db.CommitOrder

/-!
# Sequences and the ack queue

The sequences of the batches that one instance returns are consecutive, and the queue holds the
last of them: those that no ack committed. What an open restores is the sequence after the last
committed batch.
-/

namespace Settle

open Std

variable {E : Type} [Engine E] {x₀ x : World E}

/-- What a returned batch adds to the ledger. -/
theorem Ledger.returned_call (l : Ledger) (w : WriteBatch) (batch : Option Nat) :
    (l.call w batch).returned = l.returned ++ batch.toList := by
  cases batch with
  | some sequence => simp [Ledger.call, Ledger.returned]
  | none =>
    rw [Ledger.call]
    cases hl : l.queued.getLast? with
    | none => simp [Ledger.returned]
    | some newest =>
      have hq := List.dropLast_append_getLast? newest hl
      simp only [Ledger.returned, Option.toList_none, List.append_nil]
      conv_rhs => rw [← hq]
      simp

/-- The batch of an ingest call, if it returns one. -/
def Db.ingestBatch (r : Db E × Store × Except Error (Option ChangeBatch)) : Option Nat :=
  match r.2.2 with
  | .ok batch => batch.map ChangeBatch.sequence
  | .error _ => none

/-- The batch of a fork call, if it returns one. -/
def Db.forkBatch (r : Db E × Store × Except Error (BlockCursor × Option ChangeBatch)) :
    Option Nat :=
  match r.2.2 with
  | .ok (_, batch) => batch.map ChangeBatch.sequence
  | .error _ => none

theorem World.ingest_returned (x : World E) (commitFault syncFault : Outcome)
    (data : Db.InputData) (chain : List BlockCursor) (head : BlockCursor) :
    (x.ingest commitFault syncFault data chain head).ledger.returned = x.ledger.returned ++
      (Db.ingestBatch (x.db.ingest x.store commitFault syncFault data chain head)).toList := by
  unfold World.ingest Db.ingestBatch
  cases hr : x.db.ingest x.store commitFault syncFault data chain head with
  | mk db' rest =>
    obtain ⟨store', result⟩ := rest
    cases result with
    | error e => simp
    | ok batch =>
      obtain ⟨db₁, w, hp⟩ := Db.ingest_ok hr
      simp only [hp]
      exact Ledger.returned_call _ _ _

theorem World.handleFork_returned (x : World E) (commitFault syncFault : Outcome)
    (chain : List BlockCursor) :
    (x.handleFork commitFault syncFault chain).ledger.returned = x.ledger.returned ++
      (Db.forkBatch (x.db.handleFork x.store commitFault syncFault chain)).toList := by
  unfold World.handleFork Db.forkBatch
  cases hr : x.db.handleFork x.store commitFault syncFault chain with
  | mk db' rest =>
    obtain ⟨store', result⟩ := rest
    cases result with
    | error e => simp
    | ok r =>
      obtain ⟨cursor, batch⟩ := r
      obtain ⟨db₁, w, hp⟩ := Db.handleFork_ok hr
      simp only [hp]
      exact Ledger.returned_call _ _ _

theorem World.ack_returned (x : World E) (faults : List Outcome) (syncFault : Outcome)
    (sequence : Nat) : (x.ack faults syncFault sequence).ledger.returned = x.ledger.returned := by
  unfold World.ack
  dsimp only
  split
  · simp only [Ledger.ack, Ledger.commitFirst, Ledger.returned, List.append_assoc]
    rw [← List.map_append, List.take_append_drop]
  · rfl

/-- What holds of the queue and the sequences in state `x` of a run from `x₀`. -/
structure QueueAndSequences (x₀ x : World E) : Prop where
  /-- the sequences of the returned batches are consecutive from the restored one on -/
  consecutive : x.ledger.returned
    = List.range' x₀.store.nextSequence x.ledger.returned.length
  /-- the next call that returns a batch adds its sequence, every other call none -/
  ingest : ∀ commitFault syncFault data chain head,
    (x.ingest commitFault syncFault data chain head).ledger.returned = x.ledger.returned ++
      (Db.ingestBatch (x.db.ingest x.store commitFault syncFault data chain head)).toList
  fork : ∀ commitFault syncFault chain,
    (x.handleFork commitFault syncFault chain).ledger.returned = x.ledger.returned ++
      (Db.forkBatch (x.db.handleFork x.store commitFault syncFault chain)).toList
  ack : ∀ faults syncFault sequence,
    (x.ack faults syncFault sequence).ledger.returned = x.ledger.returned
  /-- the queue holds the returned batches that no ack committed, in their order -/
  queue : x.db.pending.map PendingAck.sequence
    = x.ledger.returned.drop x.ledger.acked.length
  /-- the places in use, where `m` is the configured number of batches -/
  room : ∀ m, x₀.db.maxPendingBatches = max m 1 → x.db.unackedBatches ≤ max m 1
  /-- a reopen continues after the last committed sequence -/
  reopen : x.db.journal = false →
    x.store.nextSequence = x₀.store.nextSequence + x.ledger.acked.length

/-- **Queue and sequences.** In every run with any failures and any acks. -/
theorem queue_and_sequences (hr : DbRun x₀ x) : QueueAndSequences x₀ x := by
  have hi := WorldInv.of_run hr
  refine ⟨hi.returned, x.ingest_returned, x.handleFork_returned, x.ack_returned, ?_, ?_, ?_⟩
  · rw [hi.queue_sequences, Ledger.returned, List.drop_left]
  · intro m hm
    rw [← hm, ← hi.maxPendingBatches]
    exact hi.room
  · intro _
    exact hi.store_nextSequence

/-- One trade waits for its ack. -/
theorem queue_and_sequences_one_trade :
    (tradesIngested false).ledger.returned = [1] ∧
    QueueAndSequences (tradesWorld false) (tradesIngested false) := by
  refine ⟨by decide +kernel, queue_and_sequences ⟨tradesWorld_opened false, ?_⟩⟩
  exact Relation.ReflTransGen.single (.ingest _ none none _ _ _)

end Settle
