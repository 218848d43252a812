import Settle.Db.Prepare
import Settle.Engine.Dag

/-!
# The ledger of a run

What the commit protocol of the database is for, without engine and storage: a *ledger* lists
the write sets of the successful ingest and fork calls in call order, first those that are on
disk and then those that wait. A call with a batch opens a group at the end of the queue, a call without
one joins the newest group or, with an empty queue, goes to disk at once, and an ack moves the
oldest groups that it covers to disk, up to the first commit that fails.

`DbStep` runs the calls of `Settle.Db.Calls` next to the ledger, with any outcome of each commit
and sync, and `commit_order` says that disk and queue always hold what the ledger says.
-/

namespace Settle

open Std

/-- The write sets of the successful calls of a run. -/
structure Ledger where
  /-- on disk, in call order -/
  committed : List WriteBatch := []
  /-- the sequences of the batches among them -/
  acked : List Nat := []
  /-- waiting: for each batch its sequence, its write set and those that joined it -/
  queued : List (Nat × List WriteBatch) := []

namespace Ledger

/-- Every write set, in call order. -/
def calls (l : Ledger) : List WriteBatch := l.committed ++ l.queued.flatMap Prod.snd

/-- The sequences of the returned batches, in the order of their calls. -/
def returned (l : Ledger) : List Nat := l.acked ++ l.queued.map Prod.fst

/-- A successful call with write set `w`, and with a batch of the given sequence or without a
batch. -/
def call (l : Ledger) (w : WriteBatch) : Option Nat → Ledger
  | some sequence => { l with queued := l.queued ++ [(sequence, [w])] }
  | none =>
    match l.queued.getLast? with
    | none => { l with committed := l.committed ++ [w] }
    | some newest =>
      { l with queued := l.queued.dropLast ++ [(newest.1, newest.2 ++ [w])] }

/-- The oldest `k` groups go to disk. -/
def commitFirst (l : Ledger) (k : Nat) : Ledger where
  committed := l.committed ++ (l.queued.take k).flatMap Prod.snd
  acked := l.acked ++ (l.queued.take k).map Prod.fst
  queued := l.queued.drop k

/-- How many groups an ack of `sequence` moves: those that it covers, up to the first commit
that fails. -/
def ackCount (sequence : Nat) : List (Nat × List WriteBatch) → List Outcome → Nat
  | [], _ => 0
  | group :: rest, faults =>
    if sequence < group.1 then 0
    else if (faults.headD none).isSome then 0
    else ackCount sequence rest faults.tail + 1

/-- An ack of `sequence` that is taken. -/
def ack (l : Ledger) (sequence : Nat) (faults : List Outcome) : Ledger :=
  l.commitFirst (ackCount sequence l.queued faults)

theorem calls_call (l : Ledger) (w : WriteBatch) (batch : Option Nat) :
    (l.call w batch).calls = l.calls ++ [w] := by
  cases batch with
  | some sequence => simp [call, calls]
  | none =>
    rw [call]
    cases h : l.queued.getLast? with
    | none =>
      have hnil := List.getLast?_eq_none_iff.mp h
      simp [calls, hnil]
    | some newest =>
      have hq := List.dropLast_append_getLast? newest h
      simp only [calls]
      conv_rhs => rw [← hq]
      simp

theorem calls_commitFirst (l : Ledger) (k : Nat) : (l.commitFirst k).calls = l.calls := by
  simp only [calls, commitFirst, List.append_assoc]
  rw [← List.flatMap_append, List.take_append_drop]

/-- **No write set is lost, doubled or moved:** an ack leaves the list of calls alone. -/
theorem calls_ack (l : Ledger) (sequence : Nat) (faults : List Outcome) :
    (l.ack sequence faults).calls = l.calls :=
  l.calls_commitFirst _

/-- An ack moves only groups that it covers, and only while the commits succeed. -/
theorem ackCount_spec (sequence : Nat) (queued : List (Nat × List WriteBatch))
    (faults : List Outcome) :
    ackCount sequence queued faults ≤ queued.length ∧
    (∀ group ∈ queued.take (ackCount sequence queued faults), group.1 ≤ sequence) ∧
    (∀ i < ackCount sequence queued faults, faults.getD i none = none) ∧
    (∀ group, queued[ackCount sequence queued faults]? = some group →
      group.1 ≤ sequence → (faults.getD (ackCount sequence queued faults) none).isSome) := by
  induction queued generalizing faults with
  | nil => simp [ackCount]
  | cons group rest ih =>
    rw [ackCount]
    split
    · next h =>
      refine ⟨Nat.zero_le _, by simp, by simp, ?_⟩
      intro g hg hle
      simp only [List.getElem?_cons_zero, Option.some.injEq] at hg
      subst hg
      omega
    · next h =>
      split
      · next hf =>
        refine ⟨Nat.zero_le _, by simp, by simp, ?_⟩
        intro g _ _
        cases faults with
        | nil => simp at hf
        | cons f faults => simpa using hf
      · next hf =>
        obtain ⟨hlen, hcov, hok, hstop⟩ := ih faults.tail
        refine ⟨by simpa using hlen, ?_, ?_, ?_⟩
        · intro g hg
          rcases List.mem_cons.mp (by simpa using hg) with rfl | hg
          · omega
          · exact hcov g hg
        · intro i hi
          cases i with
          | zero =>
            cases faults with
            | nil => rfl
            | cons f faults => simpa using hf
          | succ i =>
            have := hok i (by omega)
            cases faults with
            | nil => rfl
            | cons f faults => simpa using this
        · intro g hg hle
          have := hstop g (by simpa using hg) hle
          cases faults with
          | nil => simp at this
          | cons f faults => simpa using this

end Ledger

/-! ## Runs -/

variable {E : Type} [Engine E]

/-- An instance, its store, and the ledger of its run so far. -/
structure World (E : Type) where
  db : Db E
  store : Store
  ledger : Ledger := {}

namespace World

def ingest (x : World E) (commitFault syncFault : Outcome) (data : Db.InputData)
    (chain : List BlockCursor) (head : BlockCursor) : World E :=
  let r := x.db.ingest x.store commitFault syncFault data chain head
  { db := r.1
    store := r.2.1
    ledger := match r.2.2, (x.db.prepareIngest x.store data chain head).2 with
      | .ok batch, .ok (w, _) => x.ledger.call w (batch.map ChangeBatch.sequence)
      | _, _ => x.ledger }

def handleFork (x : World E) (commitFault syncFault : Outcome) (chain : List BlockCursor) :
    World E :=
  let r := x.db.handleFork x.store commitFault syncFault chain
  { db := r.1
    store := r.2.1
    ledger := match r.2.2, (x.db.prepareFork x.store chain).2 with
      | .ok (_, batch), .ok (_, w, _) => x.ledger.call w (batch.map ChangeBatch.sequence)
      | _, _ => x.ledger }

/-- Whether an ack of `sequence` is taken: the last sync did not fail, and some returned batch
is at or above it. -/
def ackTaken (x : World E) (sequence : Nat) : Bool :=
  x.db.syncFailed.isNone &&
    match x.db.pending.getLast? with
    | none => true
    | some newest => sequence ≤ newest.sequence

def ack (x : World E) (faults : List Outcome) (syncFault : Outcome) (sequence : Nat) : World E :=
  let r := x.db.ack x.store faults syncFault sequence
  { db := r.1
    store := r.2.1
    ledger := if x.ackTaken sequence then x.ledger.ack sequence faults else x.ledger }

end World

/-- One call, with any outcome of its commits and of its sync. -/
inductive DbStep : World E → World E → Prop
  | ingest (x : World E) (commitFault syncFault : Outcome) (data : Db.InputData)
      (chain : List BlockCursor) (head : BlockCursor) :
      DbStep x (x.ingest commitFault syncFault data chain head)
  | handleFork (x : World E) (commitFault syncFault : Outcome) (chain : List BlockCursor) :
      DbStep x (x.handleFork commitFault syncFault chain)
  | ack (x : World E) (faults : List Outcome) (syncFault : Outcome) (sequence : Nat) :
      DbStep x (x.ack faults syncFault sequence)

/-- The next sequence that an open restores. -/
def Store.nextSequence (s : Store) : Nat :=
  match s.metas[metaNextSequence]? with
  | some (.number n) => n
  | _ => 1

/-- An instance right after `open`, on a store whose next sequence, if it holds one, is a
positive number. -/
structure World.Opened (x : World E) : Prop where
  pending : x.db.pending = []
  poisoned : x.db.poisoned = none
  syncFailed : x.db.syncFailed = none
  room : 1 ≤ x.db.maxPendingBatches
  next : x.db.buffer.nextSequence = x.store.nextSequence
  stored : ∀ d, x.store.metas[metaNextSequence]? = some d → ∃ n, d = .number (n + 1)
  journal : x.db.journal = true → x.store.journal = ∅
  ledger : x.ledger = {}

/-- The runs of one instance. -/
def DbRun (x₀ x : World E) : Prop := x₀.Opened ∧ Relation.ReflTransGen DbStep x₀ x

/-- The trades database on an empty store. -/
def tradesWorld (journal : Bool) : World (SettleEngine Empty Empty) where
  db := tradesDb journal
  store := {}

theorem tradesWorld_opened (journal : Bool) : (tradesWorld journal).Opened where
  pending := rfl
  poisoned := rfl
  syncFailed := rfl
  room := Nat.le_of_ble_eq_true rfl
  next := by cases journal <;> decide +kernel
  stored := by
    intro d hd
    have hnone : (tradesWorld journal).store.metas[metaNextSequence]? = none :=
      ExtTreeMap.getElem?_empty
    rw [hnone] at hd
    cases hd
  journal := fun _ => rfl
  ledger := rfl

/-- The trades database after an ingest of one trade in block 1. -/
def tradesIngested (journal : Bool) : World (SettleEngine Empty Empty) :=
  (tradesWorld journal).ingest none none (tradeIn 1 5) [⟨1, "b"⟩] ⟨0, "a"⟩

end Settle
