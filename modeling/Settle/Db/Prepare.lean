import Settle.Db.Calls

/-!
# What a call leaves alone

The work of an ingest or fork call before its end: it changes the engine and may poison the
instance, and it makes the write set of the call. This file says what it does *not* touch (the
queue, the journal mode, the sync state) and what a write set looks like: data operations, the
last of which stores the next sequence.
-/

namespace Settle

open Std

variable {E : Type} [Engine E]

namespace Db

/-- The two instances differ in the engine, the stamp, the buffer and the poison only. -/
structure SameQueue (db db' : Db E) : Prop where
  pending : db'.pending = db.pending
  maxPendingBatches : db'.maxPendingBatches = db.maxPendingBatches
  syncFailed : db'.syncFailed = db.syncFailed
  journal : db'.journal = db.journal

omit [Engine E] in
theorem SameQueue.refl (db : Db E) : SameQueue db db := ⟨rfl, rfl, rfl, rfl⟩

omit [Engine E] in
theorem SameQueue.trans {a b c : Db E} (h : SameQueue a b) (h' : SameQueue b c) :
    SameQueue a c :=
  ⟨h'.pending.trans h.pending, h'.maxPendingBatches.trans h.maxPendingBatches,
    h'.syncFailed.trans h.syncFailed, h'.journal.trans h.journal⟩

/-- A step that leaves the buffer and the queue alone. -/
structure EngineOnly (db db' : Db E) : Prop extends SameQueue db db' where
  buffer : db'.buffer = db.buffer

/-- Data operations: none of them is a journal operation. -/
def DataOnly (w : WriteBatch) : Prop := ∀ op ∈ w, op.isJournal = false

theorem DataOnly.nil : DataOnly [] := by
  intro op hop
  cases hop

theorem DataOnly.append {w w' : WriteBatch} (h : DataOnly w) (h' : DataOnly w') :
    DataOnly (w ++ w') := by
  intro op hop
  rcases List.mem_append.mp hop with hop | hop
  · exact h op hop
  · exact h' op hop

theorem dataOnly_of_nodeData {w : WriteBatch} (h : ∀ op ∈ w, op.isNodeData) : DataOnly w := by
  intro op hop
  have := h op hop
  cases op <;> first | rfl | cases this

/-! ## Rollback and processing -/

theorem rollbackEngine_frame (db : Db E) (store : Store) (p : BlockNumber) :
    EngineOnly db (db.rollbackEngine store p).1 ∧ DataOnly (db.rollbackEngine store p).2.1 ∧
    (∀ changes, (db.rollbackEngine store p).2.2 = .ok changes →
      (db.rollbackEngine store p).1.poisoned = db.poisoned) := by
  unfold rollbackEngine
  split
  · exact ⟨⟨SameQueue.refl db, rfl⟩, DataOnly.nil, fun _ _ => rfl⟩
  · have hdata := Engine.rollbackToBatch_data db.engine store
      (db.pending.map PendingAck.writeBatch) p
    split
    · next hr =>
      rw [hr] at hdata
      exact ⟨⟨⟨rfl, rfl, rfl, rfl⟩, rfl⟩, dataOnly_of_nodeData hdata, fun _ _ => rfl⟩
    · next hr =>
      rw [hr] at hdata
      exact ⟨⟨⟨rfl, rfl, rfl, rfl⟩, rfl⟩, dataOnly_of_nodeData hdata, fun _ h => by cases h⟩

theorem processTables_data (store : Store) (blocks : List (String × BlockNumber × List Row))
    (e : E) : DataOnly (processTables store blocks e).2.1 := by
  induction blocks generalizing e with
  | nil => exact DataOnly.nil
  | cons b rest ih =>
    obtain ⟨table, block, rows⟩ := b
    rw [processTables]
    have hdata := Engine.processBatchDeferred_data e store table block rows
    split
    · next hp =>
      rw [hp] at hdata
      exact dataOnly_of_nodeData hdata
    · next e' writes changes hp =>
      rw [hp] at hdata
      have ih := ih e'
      split
      · next hr =>
        rw [hr] at ih
        exact (dataOnly_of_nodeData hdata).append ih
      · next hr =>
        rw [hr] at ih
        exact (dataOnly_of_nodeData hdata).append ih

theorem dataOnly_of_processTables {store : Store}
    {blocks : List (String × BlockNumber × List Row)} {e e' : E} {writes : WriteBatch}
    {result : Except Error (List ChangeRecord)}
    (h : processTables store blocks e = (e', writes, result)) : DataOnly writes := by
  have hdata := processTables_data store blocks e
  rwa [h] at hdata

theorem failIngest_frame (db : Db E) (store : Store) (forkPoint recoveryBlock : Option BlockNumber)
    (e : Error) : EngineOnly db (db.failIngest store forkPoint recoveryBlock e).1 := by
  unfold failIngest
  split
  · exact ⟨⟨rfl, rfl, rfl, rfl⟩, rfl⟩
  · split
    · exact ⟨⟨rfl, rfl, rfl, rfl⟩, rfl⟩
    · exact ⟨⟨rfl, rfl, rfl, rfl⟩, rfl⟩

/-! ## Write sets -/

/-- A mark, if there is one, is a data operation. -/
theorem dataOnly_putMark (key : String) (block : Option BlockNumber) :
    DataOnly (match block with
      | some b => [BatchOp.putMeta key (.number b.toNat)]
      | none => []) := by
  intro op hop
  cases block with
  | none => cases hop
  | some b => rw [List.mem_singleton.mp hop]; rfl

theorem appendMetaToBatch_frame (db : Db E) (w : WriteBatch) :
    EngineOnly db (db.appendMetaToBatch w).1 ∧
    (db.appendMetaToBatch w).1.poisoned = db.poisoned ∧
    (DataOnly w → DataOnly (db.appendMetaToBatch w).2) := by
  refine ⟨⟨⟨rfl, rfl, rfl, rfl⟩, rfl⟩, rfl, fun hw => ?_⟩
  unfold appendMetaToBatch
  refine (((((hw.append (dataOnly_putMark _ _)).append (dataOnly_putMark _ _)).append
    (dataOnly_putMark _ _)).append ?_).append ?_)
  · intro op hop
    obtain ⟨⟨block, hash⟩, -, rfl⟩ := List.mem_map.mp hop
    cases hash <;> rfl
  · intro op hop
    obtain ⟨⟨key, value⟩, -, rfl⟩ := List.mem_map.mp hop
    rfl

/-- What a finished preparation gives: an untouched queue, and a write set of data operations
whose last one stores the next sequence. The flush took the next sequence exactly when there
is a batch. -/
structure Prepared (db db' : Db E) (w : WriteBatch) (batch : Option ChangeBatch) : Prop
    extends SameQueue db db' where
  poisoned : db'.poisoned = db.poisoned
  drained : db'.buffer.pending = []
  data : DataOnly w
  next : ∃ w₀, w = w₀ ++ [.putMeta metaNextSequence (.number db'.buffer.nextSequence)]
  sequence : match batch with
    | none => db'.buffer.nextSequence = db.buffer.nextSequence
    | some b => b.sequence = db.buffer.nextSequence ∧
        db'.buffer.nextSequence = db.buffer.nextSequence + 1

omit [Engine E] in
theorem flushBatch_prepared {db₀ db : Db E} {w : WriteBatch} (hq : SameQueue db₀ db)
    (hp : db.poisoned = db₀.poisoned) (hb : db.buffer.nextSequence = db₀.buffer.nextSequence)
    (hw : DataOnly w) :
    Prepared db₀ (db.flushBatch w).1 (db.flushBatch w).2.1 (db.flushBatch w).2.2 := by
  unfold flushBatch
  refine ⟨⟨hq.pending, hq.maxPendingBatches, hq.syncFailed, hq.journal⟩, hp, ?_, ?_, ⟨w, rfl⟩, ?_⟩
  · rcases db.buffer.flush_cases with ⟨-, -, h⟩ | ⟨_, -, -, -, h⟩
    · exact h
    · exact h
  · refine hw.append ?_
    intro op hop
    rw [List.mem_singleton.mp hop]
    rfl
  · rcases db.buffer.flush_cases with ⟨h, hn, -⟩ | ⟨b, h, hs, hn, -⟩
    · simp only [h]
      exact hn.trans hb
    · simp only [h]
      exact ⟨hs.trans hb, by rw [hn, hb]⟩

theorem finalizeIngest_prepared (db : Db E) {w : WriteBatch} (hw : DataOnly w)
    (changes : List ChangeRecord) (chain : List BlockCursor) (head : BlockCursor) :
    Prepared db (db.finalizeIngest w changes chain head).1
      (db.finalizeIngest w changes chain head).2.1
      (db.finalizeIngest w changes chain head).2.2 := by
  unfold finalizeIngest
  refine flushBatch_prepared ⟨rfl, rfl, rfl, rfl⟩ rfl rfl ?_
  refine (appendMetaToBatch_frame _ _).2.2 (hw.append ?_)
  split
  · exact dataOnly_of_nodeData (Engine.writeCheckpoint_data _)
  · exact DataOnly.nil

theorem rollbackFork_frame (db : Db E) (store : Store) (forkPoint : Option BlockNumber) :
    EngineOnly db (db.rollbackFork store forkPoint).1 ∧
    DataOnly (db.rollbackFork store forkPoint).2.1 ∧
    (∀ changes, (db.rollbackFork store forkPoint).2.2 = .ok changes →
      (db.rollbackFork store forkPoint).1.poisoned = db.poisoned) := by
  cases forkPoint with
  | none => exact ⟨⟨SameQueue.refl db, rfl⟩, DataOnly.nil, fun _ _ => rfl⟩
  | some p => exact rollbackEngine_frame db store p

/-- What the preparation of a call gives, with a write set or with an error. -/
def PrepareSpec (db : Db E) : Db E × Except Error (WriteBatch × Option ChangeBatch) → Prop
  | (db', .error _) => EngineOnly db db'
  | (db', .ok (w, batch)) => Prepared db db' w batch

theorem ingestTables_spec (db : Db E) (store : Store) (forkPoint recoveryBlock : Option BlockNumber)
    (tables : List (String × BTreeMap BlockNumber (List Row))) (chain : List BlockCursor)
    (head : BlockCursor) :
    PrepareSpec db (db.ingestTables store forkPoint recoveryBlock tables chain head) := by
  unfold ingestTables
  have hroll := rollbackFork_frame db store forkPoint
  split
  · next hr =>
    rw [hr] at hroll
    exact hroll.1
  · next db₁ writes changes hr =>
    rw [hr] at hroll
    obtain ⟨hq, hw, hpois⟩ := hroll
    dsimp only
    have hq₁ : ∀ engine, SameQueue db { db₁ with engine := engine } := fun _ =>
      ⟨hq.pending, hq.maxPendingBatches, hq.syncFailed, hq.journal⟩
    split
    · next engine _ e _ =>
      have hf := failIngest_frame { db₁ with engine := engine } store forkPoint recoveryBlock e
      exact ⟨(hq₁ engine).trans hf.toSameQueue, hf.buffer.trans hq.buffer⟩
    · next engine writes' changes' hproc =>
      have hfin := finalizeIngest_prepared { db₁ with engine := engine }
        (hw.append (dataOnly_of_processTables hproc))
        (changes ++ changes') chain head
      refine ⟨(hq₁ engine).trans hfin.toSameQueue, hfin.poisoned.trans (hpois _ rfl),
        hfin.drained, hfin.data, hfin.next, ?_⟩
      have hseq := hfin.sequence
      have hbuf : db₁.buffer = db.buffer := hq.buffer
      rw [← hbuf]
      exact hseq

/-- **An ingest call up to its write set.** -/
theorem prepareIngest_spec (db : Db E) (store : Store) (data : InputData)
    (chain : List BlockCursor) (head : BlockCursor) :
    PrepareSpec db (db.prepareIngest store data chain head) := by
  unfold prepareIngest
  split
  · exact ⟨SameQueue.refl db, rfl⟩
  · exact ingestTables_spec db store _ _ _ chain head

/-- `PrepareSpec` of a fork call, which also gives the cursor of its fork point. -/
def ForkSpec (db : Db E) :
    Db E × Except Error (BlockCursor × WriteBatch × Option ChangeBatch) → Prop
  | (db', .error _) => EngineOnly db db'
  | (db', .ok (_, w, batch)) => Prepared db db' w batch

/-- **A fork call up to its write set.** -/
theorem prepareFork_spec (db : Db E) (store : Store) (chain : List BlockCursor) :
    ForkSpec db (db.prepareFork store chain) := by
  unfold prepareFork
  split
  · exact ⟨SameQueue.refl db, rfl⟩
  · split
    · exact ⟨SameQueue.refl db, rfl⟩
    · dsimp only
      split
      · exact ⟨SameQueue.refl db, rfl⟩
      · next cursor _ =>
        have hroll := rollbackEngine_frame db store cursor.number
        split
        · next hr =>
          rw [hr] at hroll
          exact hroll.1
        · next db₁ writes changes hr =>
          rw [hr] at hroll
          obtain ⟨hq, hw, hpois⟩ := hroll
          have hmeta := appendMetaToBatch_frame
            { db₁ with engine := Engine.setRollbackChain db₁.engine (sortDesc (cursors chain)) }
            writes
          have hbuf : db₁.buffer = db.buffer := hq.buffer
          refine flushBatch_prepared ⟨hq.pending, hq.maxPendingBatches, hq.syncFailed, hq.journal⟩
            (hpois _ rfl) ?_ (hmeta.2.2 hw)
          rw [← hbuf]
          rfl

end Db

end Settle
