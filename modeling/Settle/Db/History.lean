import Settle.Db.CallSteps

/-!
# Runs call by call

A run of `Settle.Db.Ledger` as the list of its calls, so that a property can say what each call
supplied. Each call is one of three things for the engine and the ledger (`CallCases`): accepted,
with a write set at the end of the ledger; refused, with the engine as it was but for the nodes;
or the instance is poisoned after it.
-/

namespace Settle

open Std

/-- A call, with the outcome of each commit and sync that it makes. -/
inductive Call where
  | ingest (commitFault syncFault : Outcome) (data : Db.InputData) (chain : List BlockCursor)
      (head : BlockCursor)
  | handleFork (commitFault syncFault : Outcome) (chain : List BlockCursor)
  | ack (faults : List Outcome) (syncFault : Outcome) (sequence : Nat)

def World.call {E : Type} [Engine E] (x : World E) : Call → World E
  | .ingest commitFault syncFault data chain head => x.ingest commitFault syncFault data chain head
  | .handleFork commitFault syncFault chain => x.handleFork commitFault syncFault chain
  | .ack faults syncFault sequence => x.ack faults syncFault sequence

theorem World.call_step {E : Type} [Engine E] (x : World E) (c : Call) : DbStep x (x.call c) := by
  cases c with
  | ingest commitFault syncFault data chain head => exact .ingest x _ _ _ _ _
  | handleFork commitFault syncFault chain => exact .handleFork x _ _ _
  | ack faults syncFault sequence => exact .ack x _ _ _

variable {R V : Type} [ReducerNode R] [ViewNode V]

/-! ## The end of a call -/

namespace Db

/-- The end of a call leaves the stamp, or drops it once it is on disk. -/
theorem finishCall_stamp (db : Db (SettleEngine R V)) (store : Store)
    (commitFault syncFault : Outcome) (w : WriteBatch) (batch : Option ChangeBatch)
    (call : String) :
    (db.finishCall store commitFault syncFault w batch call).1.stamp = db.stamp ∨
      (db.finishCall store commitFault syncFault w batch call).1.stamp = [] := by
  have hwrite : ∀ sf sequence part sync,
      (db.writeJournal store commitFault sf sequence part w sync).1.stamp = db.stamp := by
    intro sf sequence part sync
    unfold writeJournal
    cases commitFault with
    | some e => rfl
    | none => cases sync <;> cases sf <;> rfl
  cases batch with
  | some batch =>
    left
    have hw := hwrite syncFault batch.sequence 0 true
    simp only [finishCall, pushPending]
    split
    · split <;> next hr =>
        rw [hr] at hw
        exact hw
    · rfl
  | none =>
    simp only [finishCall, commitWithoutBatch]
    split
    · next newest _ =>
      left
      have hw := hwrite none newest.sequence (newest.joined + 1) false
      split
      · split <;> next hr =>
          rw [hr] at hw
          exact hw
      · rfl
    · cases commitFault with
      | some e => exact Or.inl rfl
      | none => exact Or.inr rfl

/-- The loop of `ack` changes nothing of the engine but the number of the last checkpoint on
disk. -/
theorem ackLoop_engine (sequence : Nat) (ps : List PendingAck) (faults : List Outcome)
    (db : Db (SettleEngine R V)) (store : Store) :
    (∃ n, (ackLoop sequence ps faults db store).1.engine
      = { db.engine with committedCheckpoint := n }) ∧
    ((ackLoop sequence ps faults db store).1.stamp = db.stamp ∨
      (ackLoop sequence ps faults db store).1.stamp = []) ∧
    (ackLoop sequence ps faults db store).1.poisoned = db.poisoned := by
  induction ps generalizing faults db store with
  | nil => exact ⟨⟨db.engine.committedCheckpoint, rfl⟩, Or.inl rfl, rfl⟩
  | cons p ps ih =>
    rw [ackLoop]
    split
    · exact ⟨⟨db.engine.committedCheckpoint, rfl⟩, Or.inl rfl, rfl⟩
    · cases faults.headD none with
      | some err => exact ⟨⟨db.engine.committedCheckpoint, rfl⟩, Or.inl rfl, rfl⟩
      | none =>
        obtain ⟨⟨n, hn⟩, hstamp, hpois⟩ := ih faults.tail
          { db with
            engine := Engine.setCommittedCheckpoint db.engine p.checkpoint, stamp := [] }
          (store.commit p.writeBatch)
        refine ⟨⟨n, hn⟩, Or.inr ?_, hpois⟩
        rcases hstamp with h | h
        · exact h
        · exact h

theorem ack_engine (db : Db (SettleEngine R V)) (store : Store) (faults : List Outcome)
    (syncFault : Outcome) (sequence : Nat) :
    (∃ n, (db.ack store faults syncFault sequence).1.engine
      = { db.engine with committedCheckpoint := n }) ∧
    ((db.ack store faults syncFault sequence).1.stamp = db.stamp ∨
      (db.ack store faults syncFault sequence).1.stamp = []) ∧
    ((db.ack store faults syncFault sequence).1.poisoned = none → db.poisoned = none) := by
  have hsame : (∃ n, db.engine = { db.engine with committedCheckpoint := n }) ∧
      (db.stamp = db.stamp ∨ db.stamp = []) ∧ (db.poisoned = none → db.poisoned = none) :=
    ⟨⟨db.engine.committedCheckpoint, rfl⟩, Or.inl rfl, id⟩
  unfold ack
  split
  · exact hsame
  · split
    · exact hsame
    · split
      · exact hsame
      · have hloop := ackLoop_engine sequence db.pending faults db store
        split
        next db₁ store₁ result committed heq =>
        rw [heq] at hloop
        obtain ⟨hengine, hstamp, hpois⟩ := hloop
        split
        · refine ⟨hengine, hstamp, ?_⟩
          intro hnone
          cases hnone
        · exact ⟨hengine, hstamp, fun hnone => hpois.symm.trans hnone⟩

end Db

/-! ## Calls -/

namespace World

/-- A call that is refused: the ledger stays, and the engine but for the nodes, unless the
instance is poisoned. -/
structure Refused (x x' : World (SettleEngine R V)) : Prop where
  ledger : x'.ledger.calls = x.ledger.calls
  stamp : x'.db.stamp = x.db.stamp ∨ x'.db.stamp = []
  engine : x'.db.poisoned = none → x.db.poisoned = none ∧
    ∃ nodes n, x'.db.engine = { x.db.engine with nodes := nodes, committedCheckpoint := n }

/-- A call that is accepted with the write set `w`, prepared as `db₁`. -/
structure Accepted (x x' : World (SettleEngine R V)) (db₁ : Db (SettleEngine R V))
    (w : WriteBatch) : Prop where
  poisoned : x.db.poisoned = none
  ledger : x'.ledger.calls = x.ledger.calls ++ [w]
  stamp : x'.db.stamp = db₁.stamp ∨ x'.db.stamp = []
  engine : ∃ n, x'.db.engine = { db₁.engine with committedCheckpoint := n }

theorem ingest_cases (x : World (SettleEngine R V))
    (hl : x.db.poisoned = none → x.db.engine.Levels)
    (commitFault syncFault : Outcome) (data : Db.InputData) (chain : List BlockCursor)
    (head : BlockCursor) :
    ((∃ err, (x.db.ingest x.store commitFault syncFault data chain head).2.2 = .error err) ∧
      Refused x (x.ingest commitFault syncFault data chain head)) ∨
    ∃ db₁ w batch, x.db.prepareIngest x.store data chain head = (db₁, .ok (w, batch)) ∧
      (x.db.ingest x.store commitFault syncFault data chain head).2.2 = .ok batch ∧
      Accepted x (x.ingest commitFault syncFault data chain head) db₁ w := by
  unfold World.ingest Db.ingest
  cases hprep : x.db.prepareIngest x.store data chain head with
  | mk db₁ result =>
    cases result with
    | error err =>
      left
      cases hpois : x.db.poisoned with
      | some reason =>
        -- a poisoned instance stays as it is
        have hbad : x.db.Unhealthy := Or.inl (by rw [hpois]; rfl)
        obtain ⟨err', herr'⟩ := Db.prepareIngest_unhealthy hbad x.store data chain head
        obtain rfl : db₁ = x.db := congrArg Prod.fst (hprep.symm.trans herr')
        refine ⟨⟨err, rfl⟩, rfl, Or.inl rfl, ?_⟩
        intro hnone
        exact absurd (hpois.symm.trans hnone) (by simp)
      | none =>
        obtain ⟨hstamp, hcases⟩ := Db.prepareIngest_failed (hl hpois) hprep
        refine ⟨⟨err, rfl⟩, rfl, Or.inl hstamp, ?_⟩
        intro hnone
        have hnone : db₁.poisoned = none := hnone
        rcases hcases with hp | ⟨nodes, hnodes⟩
        · rw [hnone] at hp
          cases hp
        · exact ⟨hpois, nodes, x.db.engine.committedCheckpoint, hnodes⟩
    | ok r =>
      obtain ⟨w, batch⟩ := r
      have hpois : x.db.poisoned = none := by
        unfold Db.prepareIngest at hprep
        split at hprep
        · cases hprep
        · next hc => exact (Db.checkIngest_ok hc).1
      have hend := db₁.finishCall_spec x.store commitFault syncFault w batch "heartbeat ingest"
      have hengine := db₁.finishCall_engine x.store commitFault syncFault w batch "heartbeat ingest"
      have hstamp := db₁.finishCall_stamp x.store commitFault syncFault w batch "heartbeat ingest"
      obtain ⟨_, _, _, _, _, _, _, _, _, _, _, _, _, _, _, hst, _⟩ :=
        Db.prepareIngest_steps (hl hpois) hprep
      dsimp only
      cases hf : db₁.finishCall x.store commitFault syncFault w batch "heartbeat ingest" with
      | mk db₂ rest =>
        obtain ⟨store₂, result⟩ := rest
        rw [hf] at hend hengine hstamp
        cases result with
        | error err =>
          left
          refine ⟨⟨err, rfl⟩, rfl, ?_, ?_⟩
          · rw [← hst]
            exact hstamp
          · intro hnone
            have hp := hend.poisoned
            rw [show db₂.poisoned = none from hnone] at hp
            cases hp
        | ok _ =>
          right
          exact ⟨db₁, w, batch, rfl, rfl, hpois, Ledger.calls_call x.ledger w _, hstamp, hengine⟩

theorem handleFork_cases (x : World (SettleEngine R V)) (commitFault syncFault : Outcome)
    (chain : List BlockCursor) :
    ((∃ err, (x.db.handleFork x.store commitFault syncFault chain).2.2 = .error err) ∧
      Refused x (x.handleFork commitFault syncFault chain)) ∨
    ∃ db₁ cursor w batch, x.db.prepareFork x.store chain = (db₁, .ok (cursor, w, batch)) ∧
      (x.db.handleFork x.store commitFault syncFault chain).2.2 = .ok (cursor, batch) ∧
      Accepted x (x.handleFork commitFault syncFault chain) db₁ w := by
  unfold World.handleFork Db.handleFork
  cases hprep : x.db.prepareFork x.store chain with
  | mk db₁ result =>
    cases result with
    | error err =>
      left
      obtain ⟨hstamp, hcases⟩ := Db.prepareFork_failed hprep
      refine ⟨⟨err, rfl⟩, rfl, Or.inl hstamp, ?_⟩
      intro hnone
      have hnone : db₁.poisoned = none := hnone
      rcases hcases with rfl | hp
      · exact ⟨hnone, x.db.engine.nodes, x.db.engine.committedCheckpoint, rfl⟩
      · rw [hnone] at hp
        cases hp
    | ok r =>
      obtain ⟨cursor, w, batch⟩ := r
      have hpois := (Db.prepareFork_ok hprep).1
      obtain ⟨_, _, _, _, _, _, hst, _⟩ := Db.prepareFork_steps hprep
      have hend := db₁.finishCall_spec x.store commitFault syncFault w batch "heartbeat handle_fork"
      have hengine := db₁.finishCall_engine x.store commitFault syncFault w batch
        "heartbeat handle_fork"
      have hstamp := db₁.finishCall_stamp x.store commitFault syncFault w batch
        "heartbeat handle_fork"
      dsimp only
      cases hf : db₁.finishCall x.store commitFault syncFault w batch "heartbeat handle_fork" with
      | mk db₂ rest =>
        obtain ⟨store₂, result⟩ := rest
        rw [hf] at hend hengine hstamp
        cases result with
        | error err =>
          left
          refine ⟨⟨err, rfl⟩, rfl, ?_, ?_⟩
          · rw [← hst]
            exact hstamp
          · intro hnone
            have hp := hend.poisoned
            rw [show db₂.poisoned = none from hnone] at hp
            cases hp
        | ok _ =>
          right
          exact ⟨db₁, cursor, w, batch, rfl, rfl, hpois, Ledger.calls_call x.ledger w _, hstamp,
            hengine⟩

/-- An ack is no write set. -/
theorem ack_refused (x : World (SettleEngine R V)) (faults : List Outcome) (syncFault : Outcome)
    (sequence : Nat) : Refused x (x.ack faults syncFault sequence) := by
  obtain ⟨⟨n, hn⟩, hstamp, hpois⟩ := x.db.ack_engine x.store faults syncFault sequence
  refine ⟨?_, hstamp, fun hnone => ⟨hpois hnone, x.db.engine.nodes, n, hn⟩⟩
  unfold World.ack
  dsimp only
  split
  · exact Ledger.calls_ack x.ledger sequence faults
  · rfl

end World

/-! ## Watermarks -/

namespace SettleEngine

/-- What an accepted call does to the watermarks: durable state and finality do not go back. -/
structure Advanced (e e' : SettleEngine R V) : Prop where
  rawTables : e'.rawTables = e.rawTables
  pipeline : e'.pipeline = e.pipeline
  retention : e'.rawRetentionBlocks = e.rawRetentionBlocks
  levels : e'.Levels
  latest : e'.latestBlock = none → e.latestBlock = none
  durable : ∀ d, e.durableBlock = some d → ∃ d', e'.durableBlock = some d' ∧ d ≤ d'
  finalized : e.finalizedBlock ≤ e'.finalizedBlock
  hasFinalized : e.hasFinalized = true → e'.hasFinalized = true

omit [ReducerNode R] [ViewNode V] in
/-- The latest block after the rollback of a call. -/
theorem RolledTo.fields {e e' : SettleEngine R V} {writes : WriteBatch}
    {fork : Option BlockNumber} (h : e.RolledTo e' writes fork) :
    e'.rawTables = e.rawTables ∧ e'.pipeline = e.pipeline ∧
      e'.rawRetentionBlocks = e.rawRetentionBlocks ∧ e'.durableBlock = e.durableBlock ∧
      e'.finalizedBlock = e.finalizedBlock ∧ e'.hasFinalized = e.hasFinalized ∧
      e'.latestBlock = fork.or e.latestBlock := by
  cases fork with
  | none =>
    obtain ⟨rfl, -⟩ := h
    exact ⟨rfl, rfl, rfl, rfl, rfl, rfl, rfl⟩
  | some p =>
    obtain ⟨-, ⟨nodes, rfl⟩, -⟩ := h
    exact ⟨rfl, rfl, rfl, rfl, rfl, rfl, rfl⟩

omit [ReducerNode R] [ViewNode V] in
/-- An ingest, from the rollback of its fork to its end. -/
theorem advanced_ingest {e e₁ e₂ : SettleEngine R V} {writes w₂ : WriteBatch}
    {fork : Option BlockNumber} {nodes : Nodes R V} {chain : List (BlockNumber × String)}
    {head : BlockNumber} {blocks : List (String × BlockNumber × List Row)} (hl : e.Levels)
    (hhead : e.finalizedBlock ≤ head) (hr : e.RolledTo e₁ writes fork)
    (hclosed : Closed { e₁ with
      nodes := nodes
      latestBlock := blocks.foldl (fun l t => bumpLatest l t.2.1) e₁.latestBlock }
      e₂ chain head w₂) : Advanced e e₂ := by
  obtain ⟨htables, hpipe, hret, hdur, hfin, hhas, hlatest⟩ := hr.fields
  -- the latest block is not below the old durable block
  have hfloor : ∀ d, e.durableBlock = some d → d ≤ head ∧ ∃ l, e₂.latestBlock = some l ∧ d ≤ l := by
    intro d hd
    refine ⟨UInt64.le_trans (hl d hd).1 hhead, ?_⟩
    obtain ⟨f, hf, hle⟩ := Db.durable_le_floor hl hr d (hdur.trans hd)
    obtain ⟨l, hfold, hfl⟩ := le_foldl_bumpLatest blocks f
    refine ⟨l, ?_, UInt64.le_trans hle hfl⟩
    rw [hclosed.latest, ← hfold, ← hf, ← hlatest]
  refine ⟨hclosed.rawTables.trans htables, hclosed.pipeline.trans hpipe,
    hclosed.retention.trans hret, ?_, ?_, ?_, ?_, fun _ => hclosed.hasFinalized⟩
  · intro d hd
    rw [hclosed.finalized]
    rcases hclosed.durable with hsame | ⟨latest, hlat, hmin⟩
    · exact hfloor d (hdur.symm.trans (hsame.symm.trans hd))
    · rw [hmin] at hd
      cases hd
      exact ⟨(BlockNumber.min_le head latest).1, latest, hclosed.latest.trans hlat,
        (BlockNumber.min_le head latest).2⟩
  · intro hnone
    cases hf : fork.or e.latestBlock with
    | some f =>
      obtain ⟨l, hfold, -⟩ := le_foldl_bumpLatest blocks f
      rw [hclosed.latest, hlatest, hf, hfold] at hnone
      cases hnone
    | none =>
      cases fork with
      | none => exact hf
      | some p => cases hf
  · intro d hd
    rcases hclosed.durable with hsame | ⟨latest, hlat, hmin⟩
    · exact ⟨d, hsame.trans (hdur.trans hd), UInt64.le_refl d⟩
    · refine ⟨_, hmin, ?_⟩
      obtain ⟨hdh, l, hl', hdl⟩ := hfloor d hd
      have : latest = l := Option.some.inj (hlat.symm.trans (hclosed.latest.symm.trans hl'))
      subst this
      rw [BlockNumber.min_eq]
      split
      · exact hdh
      · exact hdl
  · rw [hclosed.finalized]
    exact hhead

omit [ReducerNode R] [ViewNode V] in
/-- A fork call, from its rollback to its cursors. -/
theorem advanced_fork {e e₁ : SettleEngine R V} {writes : WriteBatch} {p : BlockNumber}
    {chain : List (BlockNumber × String)} (hl : e.Levels) (hr : e.RolledTo e₁ writes (some p)) :
    Advanced e (e₁.setRollbackChain chain) := by
  obtain ⟨htables, hpipe, hret, hdur, hfin, hhas, hlatest⟩ := hr.fields
  obtain ⟨hashes, changes, hset⟩ := e₁.setRollbackChain_marks chain
  rw [hset]
  refine ⟨htables, hpipe, hret, ?_, ?_, ?_, ?_, ?_⟩
  · intro d hd
    have hd : e₁.durableBlock = some d := hd
    obtain ⟨f, hf, hle⟩ := Db.durable_le_floor hl hr d hd
    refine ⟨?_, f, hlatest.trans hf, hle⟩
    show d ≤ e₁.finalizedBlock
    rw [hfin]
    exact (hl d (hdur.symm.trans hd)).1
  · intro hnone
    have hnone : e₁.latestBlock = none := hnone
    rw [hlatest] at hnone
    cases hnone
  · intro d hd
    exact ⟨d, hdur.trans hd, UInt64.le_refl d⟩
  · show e.finalizedBlock ≤ e₁.finalizedBlock
    rw [hfin]
    exact UInt64.le_refl e.finalizedBlock
  · intro hfinal
    exact hhas.trans hfinal

end SettleEngine

end Settle
