import Settle.Db.Sequences

/-!
# The journal of a run

In journal mode the store holds, next to its content, one part for each write set that waits in
the queue. `JournalRun` is the runs of an instance in journal mode whose syncs succeed; in each
of their states the journal lists exactly the queue (`JournalInv`).
-/

namespace Settle

open Std

/-! ## Journal operations of a batch -/

/-- What a commit does to the journal, the journal operations of the batch do. -/
theorem Store.journal_commit (batch : WriteBatch) {s s' : Store} (h : s.journal = s'.journal) :
    (s.commit batch).journal = (s'.commit (batch.filter (·.isJournal))).journal := by
  induction batch generalizing s s' with
  | nil => exact h
  | cons op batch ih =>
    rw [Store.commit_cons, List.filter_cons]
    by_cases hop : op.isJournal
    · rw [if_pos hop, Store.commit_cons]
      apply ih
      cases op <;> simp only [Store.apply, h]
    · rw [if_neg hop]
      apply ih
      rw [Store.journal_apply_of_not (by simpa using hop), h]

/-- A batch whose journal operations are the deletes of some parts. -/
theorem Store.journal_commit_deletes {batch : WriteBatch} {parts : List (Nat × Nat)}
    (h : batch.filter (·.isJournal) = parts.map fun k => .deleteJournal k.1 k.2) (s : Store)
    (k : Nat × Nat) :
    (s.commit batch).journal[k]? = if k ∈ parts then none else s.journal[k]? := by
  rw [Store.journal_commit batch rfl, h]
  clear h
  induction parts generalizing s with
  | nil => simp
  | cons p parts ih =>
    rw [List.map_cons, Store.commit_cons, ih]
    simp only [Store.apply, List.mem_cons]
    by_cases hp : k ∈ parts
    · simp [hp]
    · by_cases hk : k = p
      · subst hk
        simp [hp]
      · simp [hp, hk, Ne.symm hk, ExtTreeMap.getElem?_erase]

/-! ## The journal as a list -/

/-- The journal parts of a group. -/
def groupParts (group : Nat × List WriteBatch) : List ((Nat × Nat) × Datum) :=
  group.2.zipIdx.map fun (w, i) => ((group.1, i), .writes w)

/-- The journal of the write sets that wait. -/
def Ledger.parts (l : Ledger) : List ((Nat × Nat) × Datum) := l.queued.flatMap groupParts

/-- The journal of a run: the parts of the queue. -/
def JournalInv {E : Type} (x : World E) : Prop :=
  ∀ k d, (k, d) ∈ x.ledger.parts ↔ x.store.journal[k]? = some d

theorem mem_groupParts {group : Nat × List WriteBatch} {k : Nat × Nat} {d : Datum} :
    (k, d) ∈ groupParts group ↔ k.1 = group.1 ∧ ∃ w, group.2[k.2]? = some w ∧ d = .writes w := by
  obtain ⟨n, i⟩ := k
  simp only [groupParts, List.mem_map, Prod.exists, List.mem_zipIdx_iff_getElem?, Prod.mk.injEq]
  constructor
  · rintro ⟨w, j, hw, ⟨rfl, rfl⟩, rfl⟩
    exact ⟨rfl, w, hw, rfl⟩
  · rintro ⟨rfl, w, hw, rfl⟩
    exact ⟨w, i, hw, ⟨rfl, rfl⟩, rfl⟩

theorem groupParts_append (n : Nat) (ws : List WriteBatch) (w : WriteBatch) :
    groupParts (n, ws ++ [w]) = groupParts (n, ws) ++ [((n, ws.length), .writes w)] := by
  simp [groupParts, List.zipIdx_append]

/-- The order of journal keys. -/
theorem journalKey_lt {a b : Nat × Nat} :
    compare a b = .lt ↔ a.1 < b.1 ∨ (a.1 = b.1 ∧ a.2 < b.2) := by
  show compareLex (compareOn Prod.fst) (compareOn Prod.snd) a b = .lt ↔ _
  simp only [compareLex, compareOn]
  rw [Ordering.then_eq_lt]
  simp [Nat.compare_eq_lt]

theorem groupParts_ordered (group : Nat × List WriteBatch) :
    (groupParts group).Pairwise fun a b => compare a.1 b.1 = .lt := by
  obtain ⟨n, ws⟩ := group
  induction ws using List.reverseRecOn with
  | nil => exact List.Pairwise.nil
  | append_singleton ws w ih =>
    rw [groupParts_append]
    refine List.pairwise_append.mpr ⟨ih, List.pairwise_singleton _ _, ?_⟩
    rintro ⟨k, d⟩ hk e he
    rw [List.mem_singleton.mp he]
    obtain ⟨hn, w', hw', -⟩ := mem_groupParts.mp hk
    exact journalKey_lt.mpr (Or.inr ⟨hn, (List.getElem?_eq_some_iff.mp hw').1⟩)

/-- Groups with increasing sequences have their parts in key order. -/
theorem parts_ordered {groups : List (Nat × List WriteBatch)}
    (h : (groups.map Prod.fst).Pairwise (· < ·)) :
    (groups.flatMap groupParts).Pairwise fun a b => compare a.1 b.1 = .lt := by
  induction groups with
  | nil => exact List.Pairwise.nil
  | cons group groups ih =>
    rw [List.map_cons] at h
    obtain ⟨hlt, hrest⟩ := List.pairwise_cons.mp h
    rw [List.flatMap_cons]
    refine List.pairwise_append.mpr ⟨groupParts_ordered group, ih hrest, ?_⟩
    rintro ⟨k, d⟩ hk ⟨k', d'⟩ hk'
    obtain ⟨g, hg, hk'⟩ := List.mem_flatMap.mp hk'
    refine journalKey_lt.mpr (Or.inl ?_)
    rw [(mem_groupParts.mp hk).1, (mem_groupParts.mp hk').1]
    exact hlt _ (List.mem_map_of_mem hg)

/-! ## Runs in journal mode -/

variable {E : Type} [Engine E]

/-- One call. Its commits may fail; a sync of the journal does not. -/
inductive JournalStep : World E → World E → Prop
  | ingest (x : World E) (commitFault : Outcome) (data : Db.InputData) (chain : List BlockCursor)
      (head : BlockCursor) : JournalStep x (x.ingest commitFault none data chain head)
  | handleFork (x : World E) (commitFault : Outcome) (chain : List BlockCursor) :
      JournalStep x (x.handleFork commitFault none chain)
  | ack (x : World E) (faults : List Outcome) (syncFault : Outcome) (sequence : Nat) :
      JournalStep x (x.ack faults syncFault sequence)

/-- The runs of one instance in journal mode. -/
def JournalRun (x₀ x : World E) : Prop :=
  x₀.Opened ∧ x₀.db.journal = true ∧ Relation.ReflTransGen JournalStep x₀ x

variable {x₀ x : World E}

omit [Engine E] in
theorem WorldInv.queued_increasing (hi : WorldInv x₀ x) :
    (x.ledger.queued.map Prod.fst).Pairwise (· < ·) := by
  have h : x.ledger.returned.Pairwise (· < ·) := by
    rw [hi.returned]
    exact List.pairwise_lt_range'
  exact (List.pairwise_append.mp h).2.1

namespace JournalInv

omit [Engine E] in
/-- A new part at the end of the journal. -/
theorem insert (hj : JournalInv x) {x' : World E} (hi' : WorldInv x₀ x') {k : Nat × Nat} {d : Datum}
    (hp : x'.ledger.parts = x.ledger.parts ++ [(k, d)])
    (hst : x'.store.journal = x.store.journal.insert k d) : JournalInv x' := by
  have hord := parts_ordered hi'.queued_increasing
  have hord : (x.ledger.parts ++ [(k, d)]).Pairwise fun a b => compare a.1 b.1 = .lt := by
    rw [← hp]
    exact hord
  intro k' d'
  rw [hp, hst, List.mem_append, List.mem_singleton, ExtTreeMap.getElem?_insert, hj k' d',
    Prod.mk.injEq]
  by_cases hk : k = k'
  · subst hk
    have hnew : ¬ x.store.journal[k]? = some d' := by
      intro hmem
      have hlt := (List.pairwise_append.mp hord).2.2 (k, d') ((hj k d').mpr hmem) (k, d) (by simp)
      simp [ReflCmp.compare_self] at hlt
    simp [hnew, eq_comm]
  · simp [hk, Ne.symm hk]

/-- The end of a call. -/
theorem finish (hj : JournalInv x) (hi : WorldInv x₀ x) (hjournal : x.db.journal = true)
    {db₁ db₂ : Db E} {store₂ : Store} {w : WriteBatch} {batch : Option ChangeBatch}
    (hprep : Db.Prepared x.db db₁ w batch) (hend : Db.FinishedEnd db₁ db₂ x.store store₂ w batch)
    (hi' : WorldInv x₀ { db := db₂, store := store₂
                         ledger := x.ledger.call w (batch.map ChangeBatch.sequence) }) :
    JournalInv { db := db₂, store := store₂
                 ledger := x.ledger.call w (batch.map ChangeBatch.sequence) } := by
  have hmode : db₁.journal = true := hprep.journal.trans hjournal
  cases hend.finished with
  | commit hq hq' =>
    have hqueued : x.ledger.queued = [] := by
      have := hi.queue
      rw [← hprep.pending, hq] at this
      exact List.forall₂_nil_left_iff.mp this
    intro k d
    have hparts : (x.ledger.call w none).parts = x.ledger.parts := by
      simp [Ledger.parts, Ledger.call, hqueued]
    rw [Option.map_none]
    show (k, d) ∈ (x.ledger.call w none).parts ↔ (x.store.commit w).journal[k]? = some d
    rw [hparts, Store.journal_commit_of_not hprep.data]
    exact hj k d
  | join init newest checkpoint hq hq' =>
    have hqueue := hi.queue
    have hseqs := hi.queue_sequences
    rw [← hprep.pending, hq] at hqueue
    cases hl : x.ledger.queued.getLast? with
    | none =>
      rw [List.getLast?_eq_none_iff.mp hl] at hqueue
      have := List.forall₂_nil_right_iff.mp hqueue
      simp at this
    | some glast =>
      have hqueued := List.dropLast_append_getLast? glast hl
      have hlast : Queued x.db.journal newest glast := by
        rw [← hqueued] at hqueue
        have hrev := List.forall₂_reverse_iff.mpr hqueue
        simp only [List.reverse_append, List.reverse_singleton, List.singleton_append] at hrev
        exact (List.forall₂_cons.mp hrev).1
      have hlen : newest.joined + 1 = glast.2.length := hlast.joined
      refine hj.insert (k := (newest.sequence, newest.joined + 1)) (d := .writes w) hi' ?_ ?_
      · rw [Option.map_none]
        simp only [Ledger.parts, Ledger.call, hl]
        conv_rhs => rw [← hqueued]
        rw [List.flatMap_append, List.flatMap_append, List.flatMap_singleton,
          List.flatMap_singleton, groupParts_append, hlast.sequence, hlen, List.append_assoc]
      · show (x.store.commit (Db.journalPart db₁.journal _ _ w)).journal = _
        rw [Db.journalPart, if_pos hmode]
        rfl
  | push b checkpoint hq' =>
    refine hj.insert (k := (b.sequence, 0)) (d := .writes w) hi' ?_ ?_
    · rw [Option.map_some]
      simp [Ledger.parts, Ledger.call, groupParts]
    · show (x.store.commit (Db.journalPart db₁.journal _ _ w)).journal = _
      rw [Db.journalPart, if_pos hmode]
      rfl

/-- The keys of the parts of some groups. -/
def partKeys (groups : List (Nat × List WriteBatch)) : List (Nat × Nat) :=
  groups.flatMap fun group => (List.range group.2.length).map fun i => (group.1, i)

theorem mem_partKeys {groups : List (Nat × List WriteBatch)} {k : Nat × Nat} :
    k ∈ partKeys groups ↔ ∃ d, (k, d) ∈ groups.flatMap groupParts := by
  obtain ⟨n, i⟩ := k
  simp only [partKeys, List.mem_flatMap, List.mem_map, List.mem_range, Prod.mk.injEq,
    mem_groupParts]
  constructor
  · rintro ⟨group, hg, j, hj, rfl, rfl⟩
    exact ⟨_, group, hg, rfl, _, List.getElem?_eq_getElem hj, rfl⟩
  · rintro ⟨d, group, hg, rfl, w, hw, rfl⟩
    exact ⟨group, hg, i, (List.getElem?_eq_some_iff.mp hw).1, rfl, rfl⟩

/-- The deletes of the batches that an ack commits. -/
theorem deletes {ps : List PendingAck} {groups : List (Nat × List WriteBatch)}
    (h : List.Forall₂ (Queued true) ps groups) :
    (ps.flatMap PendingAck.writeBatch).filter (·.isJournal)
      = (partKeys groups).map fun k => .deleteJournal k.1 k.2 := by
  induction h with
  | nil => rfl
  | @cons p group ps groups hp _ ih =>
    have hcons : partKeys (group :: groups)
        = ((List.range group.2.length).map fun i => (group.1, i)) ++ partKeys groups := rfl
    rw [List.flatMap_cons, List.filter_append, ih, hp.deletes, hcons, List.map_append,
      List.map_map, if_pos rfl, hp.sequence]
    rfl

omit [Engine E] in
/-- The oldest `k` batches go to disk, and their parts leave the journal. -/
theorem commitFirst (hj : JournalInv x) (hi : WorldInv x₀ x) (hjournal : x.db.journal = true)
    (n : Nat) {x' : World E} (hl : x'.ledger = x.ledger.commitFirst n)
    (hst : x'.store = x.store.commit ((x.db.pending.take n).flatMap PendingAck.writeBatch)) :
    JournalInv x' := by
  have hqueue := hi.queue
  rw [hjournal] at hqueue
  have hord := parts_ordered hi.queued_increasing
  have hsplit : x.ledger.parts = (x.ledger.queued.take n).flatMap groupParts ++
      (x.ledger.queued.drop n).flatMap groupParts := by
    rw [← List.flatMap_append, List.take_append_drop]
    rfl
  have hord : ((x.ledger.queued.take n).flatMap groupParts ++
      (x.ledger.queued.drop n).flatMap groupParts).Pairwise
        fun a b => compare a.1 b.1 = .lt := by
    rw [← hsplit]
    exact hord
  intro k d
  have hparts : x'.ledger.parts = (x.ledger.queued.drop n).flatMap groupParts := by
    rw [hl]
    rfl
  rw [hparts, hst, Store.journal_commit_deletes (deletes (List.forall₂_take n hqueue))]
  have hmem := hj k d
  rw [hsplit, List.mem_append] at hmem
  by_cases hk : k ∈ partKeys (x.ledger.queued.take n)
  · rw [if_pos hk]
    obtain ⟨d', hd'⟩ := mem_partKeys.mp hk
    constructor
    · intro hd
      have hlt := (List.pairwise_append.mp hord).2.2 (k, d') hd' (k, d) hd
      simp [ReflCmp.compare_self] at hlt
    · intro h
      cases h
  · rw [if_neg hk, ← hmem]
    constructor
    · exact Or.inr
    · rintro (h | h)
      · exact absurd (mem_partKeys.mpr ⟨d, h⟩) hk
      · exact h

end JournalInv

namespace Db

/-- A failed end of a call whose sync succeeds leaves the store alone. -/
theorem finishCall_error {db db' : Db E} {store store' : Store} {commitFault : Outcome}
    {w : WriteBatch} {batch : Option ChangeBatch} {call : String} {e : Error}
    (h : db.finishCall store commitFault none w batch call = (db', store', .error e)) :
    store' = store ∧ db'.syncFailed = db.syncFailed := by
  have hwrite : ∀ sequence part sync {db' : Db E} {store' : Store} {e : Error},
      db.writeJournal store commitFault none sequence part w sync = (db', store', .error e) →
      store' = store ∧ db'.syncFailed = db.syncFailed := by
    intro sequence part sync db' store' e h
    cases commitFault with
    | some e =>
      simp only [writeJournal, Prod.mk.injEq] at h
      obtain ⟨hdb, hst, -⟩ := h
      exact ⟨hst.symm, by rw [← hdb]⟩
    | none => cases sync <;> simp [writeJournal] at h
  cases batch with
  | some batch =>
    simp only [finishCall, pushPending] at h
    split at h
    · split at h
      · next hw =>
        simp only [Prod.mk.injEq] at h
        obtain ⟨rfl, rfl, -⟩ := h
        exact hwrite _ _ _ hw
      · simp at h
    · simp at h
  | none =>
    simp only [finishCall, commitWithoutBatch] at h
    split at h
    · split at h
      · split at h
        · next hw =>
          simp only [Prod.mk.injEq] at h
          obtain ⟨rfl, rfl, -⟩ := h
          exact hwrite _ _ _ hw
        · simp at h
      · simp at h
    · cases commitFault with
      | some e =>
        simp only [Prod.mk.injEq] at h
        obtain ⟨hdb, hst, -⟩ := h
        exact ⟨hst.symm, by rw [← hdb]⟩
      | none => simp at h

end Db

/-- What holds along every run in journal mode. -/
structure JournalState (x₀ x : World E) : Prop where
  inv : WorldInv x₀ x
  parts : JournalInv x
  synced : x.db.syncFailed = none
  mode : x.db.journal = true
  room : 1 ≤ x.db.maxPendingBatches

namespace JournalState

theorem init (h : x₀.Opened) (hmode : x₀.db.journal = true) : JournalState x₀ x₀ where
  inv := WorldInv.init h
  parts := by
    intro k d
    simp [Ledger.parts, h.ledger, h.journal hmode]
  synced := h.syncFailed
  mode := hmode
  room := h.room

omit [Engine E] in
/-- A step that leaves the store and the queue alone. -/
theorem same (hs : JournalState x₀ x) {x' : World E} (hi : WorldInv x₀ x')
    (hl : x'.ledger = x.ledger) (hst : x'.store = x.store)
    (hsync : x'.db.syncFailed = x.db.syncFailed) : JournalState x₀ x' where
  inv := hi
  parts := by
    intro k d
    rw [hl, hst]
    exact hs.parts k d
  synced := hsync.trans hs.synced
  mode := by rw [hi.journal, ← hs.inv.journal, hs.mode]
  room := by rw [hi.maxPendingBatches, ← hs.inv.maxPendingBatches]; exact hs.room

theorem ingest (hs : JournalState x₀ x) (commitFault : Outcome) (data : Db.InputData)
    (chain : List BlockCursor) (head : BlockCursor) :
    JournalState x₀ (x.ingest commitFault none data chain head) := by
  have hi := hs.inv.ingest hs.room commitFault none data chain head
  revert hi
  unfold World.ingest Db.ingest
  have hspec := x.db.prepareIngest_spec x.store data chain head
  cases hprep : x.db.prepareIngest x.store data chain head with
  | mk db₁ result =>
    rw [hprep] at hspec
    cases result with
    | error e => exact fun hi => hs.same hi rfl rfl hspec.syncFailed
    | ok r =>
      obtain ⟨w, batch⟩ := r
      have hend := db₁.finishCall_spec x.store commitFault none w batch "heartbeat ingest"
      dsimp only
      cases hf : db₁.finishCall x.store commitFault none w batch "heartbeat ingest" with
      | mk db₂ rest =>
        obtain ⟨store₂, result⟩ := rest
        rw [hf] at hend
        intro hi
        cases result with
        | error e =>
          obtain ⟨hst, hsync⟩ := Db.finishCall_error hf
          exact hs.same hi rfl hst (hsync.trans hspec.syncFailed)
        | ok _ =>
          exact
            { inv := hi
              parts := hs.parts.finish hs.inv hs.mode hspec hend hi
              synced := (hend.syncFailed.trans hspec.syncFailed).trans hs.synced
              mode := (hend.journal.trans hspec.journal).trans hs.mode
              room := by rw [hi.maxPendingBatches, ← hs.inv.maxPendingBatches]; exact hs.room }

theorem handleFork (hs : JournalState x₀ x) (commitFault : Outcome) (chain : List BlockCursor) :
    JournalState x₀ (x.handleFork commitFault none chain) := by
  have hi := hs.inv.handleFork hs.room commitFault none chain
  revert hi
  unfold World.handleFork Db.handleFork
  have hspec := x.db.prepareFork_spec x.store chain
  cases hprep : x.db.prepareFork x.store chain with
  | mk db₁ result =>
    rw [hprep] at hspec
    cases result with
    | error e => exact fun hi => hs.same hi rfl rfl hspec.syncFailed
    | ok r =>
      obtain ⟨cursor, w, batch⟩ := r
      have hend := db₁.finishCall_spec x.store commitFault none w batch "heartbeat handle_fork"
      dsimp only
      cases hf : db₁.finishCall x.store commitFault none w batch "heartbeat handle_fork" with
      | mk db₂ rest =>
        obtain ⟨store₂, result⟩ := rest
        rw [hf] at hend
        intro hi
        cases result with
        | error e =>
          obtain ⟨hst, hsync⟩ := Db.finishCall_error hf
          exact hs.same hi rfl hst (hsync.trans hspec.syncFailed)
        | ok _ =>
          exact
            { inv := hi
              parts := hs.parts.finish hs.inv hs.mode hspec hend hi
              synced := (hend.syncFailed.trans hspec.syncFailed).trans hs.synced
              mode := (hend.journal.trans hspec.journal).trans hs.mode
              room := by rw [hi.maxPendingBatches, ← hs.inv.maxPendingBatches]; exact hs.room }

/-- The store after an ack that is taken, and the sync state. -/
theorem ack_store (hs : JournalState x₀ x) (faults : List Outcome) (syncFault : Outcome)
    {sequence : Nat} (htaken : x.ackTaken sequence) :
    (x.ack faults syncFault sequence).store = x.store.commit
      ((x.db.pending.take (Ledger.ackCount sequence x.ledger.queued faults)).flatMap
        PendingAck.writeBatch) ∧
    (x.ack faults syncFault sequence).db.syncFailed = none := by
  simp only [World.ackTaken, hs.synced] at htaken
  unfold World.ack Db.ack Db.guardSynced
  rw [hs.synced]
  dsimp only
  cases hlast : x.db.pending.getLast? with
  | none =>
    rw [List.getLast?_eq_none_iff.mp hlast]
    exact ⟨by simp, hs.synced⟩
  | some newest =>
    rw [hlast] at htaken
    dsimp only
    rw [if_neg (Nat.not_lt.mpr (by simpa using htaken))]
    obtain ⟨-, h2, -, -, -, h6, h7, -, -⟩ :=
      Db.ackLoop_spec sequence hs.inv.queue faults x.db x.store
    have hmode : (Db.ackLoop sequence x.db.pending faults x.db x.store).1.journal = true :=
      h7.trans hs.mode
    simp only [hmode, Bool.not_true, Bool.and_false]
    exact ⟨h2, h6.trans hs.synced⟩

theorem ack (hs : JournalState x₀ x) (faults : List Outcome) (syncFault : Outcome)
    (sequence : Nat) : JournalState x₀ (x.ack faults syncFault sequence) := by
  have hi := hs.inv.ack faults syncFault sequence
  by_cases htaken : x.ackTaken sequence
  · obtain ⟨hst, hsync⟩ := hs.ack_store faults syncFault htaken
    refine
      { inv := hi
        parts := hs.parts.commitFirst hs.inv hs.mode _ ?_ hst
        synced := hsync
        mode := by rw [hi.journal, ← hs.inv.journal, hs.mode]
        room := by rw [hi.maxPendingBatches, ← hs.inv.maxPendingBatches]; exact hs.room }
    simp [World.ack, htaken, Ledger.ack]
  · -- an ack that is not taken is refused
    have hnot := htaken
    simp only [World.ackTaken, hs.synced] at hnot
    have hrefused : ∃ r, x.db.ack x.store faults syncFault sequence = (x.db, x.store, r) := by
      unfold Db.ack Db.guardSynced
      rw [hs.synced]
      dsimp only
      cases hlast : x.db.pending.getLast? with
      | none => exact ⟨_, rfl⟩
      | some newest =>
        rw [hlast] at hnot
        dsimp only
        rw [if_pos (by simpa using hnot)]
        exact ⟨_, rfl⟩
    obtain ⟨r, hr⟩ := hrefused
    refine hs.same hi ?_ ?_ ?_
    · simp [World.ack, htaken]
    · simp [World.ack, hr]
    · simp [World.ack, hr]

theorem of_run (hr : JournalRun x₀ x) : JournalState x₀ x := by
  obtain ⟨hopen, hmode, hsteps⟩ := hr
  induction hsteps with
  | refl => exact init hopen hmode
  | tail _ hstep ih =>
    cases hstep with
    | ingest commitFault data chain head => exact ih.ingest commitFault data chain head
    | handleFork commitFault chain => exact ih.handleFork commitFault chain
    | ack faults syncFault sequence => exact ih.ack faults syncFault sequence

end JournalState

end Settle
