import Settle.Db.Journal

/-!
# Journal recovery

A crash leaves the store with the journal of the queue. `recoverJournal` then brings it to the
state after batch `a`, the newest batch that the target applied: it succeeds exactly for the
sequences between the last committed and the last returned batch, and commits what an ack of
`a` would have committed.
-/

namespace Settle

open Std

variable {E : Type} [Engine E] {x₀ x : World E}

/-! ## The writes of a recovery -/

/-- The writes that bring some groups to the state after batch `applied`. -/
def groupWrites (applied : Nat) (group : Nat × List WriteBatch) : WriteBatch :=
  group.2.zipIdx.flatMap fun (w, i) =>
    (if group.1 ≤ applied then w else []) ++ [.deleteJournal group.1 i]

/-- The operations of one part. -/
def partOps (committed applied : Nat) (p : JournalPart) : Except Error WriteBatch :=
  if committed < p.sequence ∧ p.sequence ≤ applied then decodeJournal p.entry else .ok []

theorem recoveryWrites_cons {committed applied : Nat} {p : JournalPart} {parts : List JournalPart}
    {ws : WriteBatch} :
    recoveryWrites committed applied (p :: parts) = .ok ws ↔
      ∃ ops rest, partOps committed applied p = .ok ops ∧
        recoveryWrites committed applied parts = .ok rest ∧
        ws = ops ++ .deleteJournal p.sequence p.part :: rest := by
  rw [recoveryWrites, partOps]
  constructor
  · intro h
    split at h
    · next hif =>
      rw [if_pos hif]
      cases hops : decodeJournal p.entry with
      | error e => simp [hops, bind, Except.bind] at h
      | ok ops =>
        cases hrest : recoveryWrites committed applied parts with
        | error e => simp [hops, hrest, bind, Except.bind] at h
        | ok rest =>
          refine ⟨ops, rest, rfl, rfl, ?_⟩
          simpa [hops, hrest, bind, Except.bind] using h.symm
    · next hif =>
      rw [if_neg hif]
      cases hrest : recoveryWrites committed applied parts with
      | error e => simp [hrest, bind, Except.bind] at h
      | ok rest =>
        refine ⟨[], rest, rfl, rfl, ?_⟩
        simpa [hrest, bind, Except.bind] using h.symm
  · rintro ⟨ops, rest, hops, hrest, rfl⟩
    by_cases hif : committed < p.sequence ∧ p.sequence ≤ applied
    · rw [if_pos hif] at hops ⊢
      simp [hops, hrest, bind, Except.bind]
    · rw [if_neg hif] at hops ⊢
      cases hops
      simp [hrest, bind, Except.bind]

theorem recoveryWrites_append (committed applied : Nat) {parts parts' : List JournalPart}
    {ws ws' : WriteBatch} (h : recoveryWrites committed applied parts = .ok ws)
    (h' : recoveryWrites committed applied parts' = .ok ws') :
    recoveryWrites committed applied (parts ++ parts') = .ok (ws ++ ws') := by
  induction parts generalizing ws with
  | nil =>
    rw [recoveryWrites, Except.ok.injEq] at h
    rw [← h]
    exact h'
  | cons p parts ih =>
    obtain ⟨ops, rest, hops, hrest, rfl⟩ := recoveryWrites_cons.mp h
    rw [List.cons_append]
    refine recoveryWrites_cons.mpr ⟨ops, rest ++ ws', hops, ih hrest, ?_⟩
    rw [List.append_assoc, List.cons_append]

/-- A stored journal entry, as `recover_journal` reads it. -/
def journalPartOf (entry : (Nat × Nat) × Datum) : JournalPart :=
  { sequence := entry.1.1, part := entry.1.2, entry := entry.2 }

theorem recoveryWrites_group {committed applied : Nat} {group : Nat × List WriteBatch}
    (hc : committed < group.1) :
    recoveryWrites committed applied ((groupParts group).map journalPartOf)
      = .ok (groupWrites applied group) := by
  obtain ⟨n, ws⟩ := group
  induction ws using List.reverseRecOn with
  | nil => rfl
  | append_singleton ws w ih =>
    rw [groupParts_append, List.map_append]
    have hlast : recoveryWrites committed applied
        ([((n, ws.length), Datum.writes w)].map journalPartOf)
          = .ok ((if n ≤ applied then w else []) ++ [.deleteJournal n ws.length]) := by
      have hc : committed < n := hc
      by_cases ha : n ≤ applied
      · simp [recoveryWrites, journalPartOf, decodeJournal, hc, ha, bind, Except.bind]
      · simp [recoveryWrites, journalPartOf, ha, bind, Except.bind]
    rw [recoveryWrites_append committed applied (ih hc) hlast]
    simp [groupWrites, List.zipIdx_append]

/-- The writes of a recovery, group by group. -/
theorem recoveryWrites_groups {committed applied : Nat} {groups : List (Nat × List WriteBatch)}
    (hc : ∀ group ∈ groups, committed < group.1) :
    recoveryWrites committed applied ((groups.flatMap groupParts).map journalPartOf)
      = .ok (groups.flatMap (groupWrites applied)) := by
  induction groups with
  | nil => rfl
  | cons group groups ih =>
    rw [List.flatMap_cons, List.map_append, List.flatMap_cons]
    apply recoveryWrites_append
    · exact recoveryWrites_group (hc group (by simp))
    · exact ih fun g hg => hc g (List.mem_cons_of_mem _ hg)

/-- The data writes of a group that a recovery keeps. -/
theorem groupWrites_data {applied : Nat} {group : Nat × List WriteBatch}
    (hd : ∀ w ∈ group.2, Db.DataOnly w) :
    (groupWrites applied group).filter (!·.isJournal)
      = if group.1 ≤ applied then group.2.flatten else [] := by
  obtain ⟨n, ws⟩ := group
  induction ws using List.reverseRecOn with
  | nil => simp [groupWrites]
  | append_singleton ws w ih =>
    have hstep : groupWrites applied (n, ws ++ [w]) = groupWrites applied (n, ws) ++
        ((if n ≤ applied then w else []) ++ [.deleteJournal n ws.length]) := by
      simp [groupWrites, List.zipIdx_append]
    have hw := (filter_data (hd w (by simp))).1
    rw [hstep, List.filter_append, ih fun w' hw' => hd w' (List.mem_append_left _ hw')]
    by_cases ha : n ≤ applied
    · simp [ha, hw]
    · simp [ha]

/-- A recovery deletes every part of the groups. -/
theorem groupWrites_deletes {applied : Nat} {group : Nat × List WriteBatch}
    (hd : ∀ w ∈ group.2, Db.DataOnly w) :
    (groupWrites applied group).filter (·.isJournal)
      = (JournalInv.partKeys [group]).map fun k => .deleteJournal k.1 k.2 := by
  obtain ⟨n, ws⟩ := group
  induction ws using List.reverseRecOn with
  | nil => simp [groupWrites, JournalInv.partKeys]
  | append_singleton ws w ih =>
    have hstep : groupWrites applied (n, ws ++ [w]) = groupWrites applied (n, ws) ++
        ((if n ≤ applied then w else []) ++ [.deleteJournal n ws.length]) := by
      simp [groupWrites, List.zipIdx_append]
    have hw := (filter_data (hd w (by simp))).2
    rw [hstep, List.filter_append, ih fun w' hw' => hd w' (List.mem_append_left _ hw')]
    by_cases ha : n ≤ applied
    · simp [ha, hw, JournalInv.partKeys, List.range_succ]
    · simp [ha, JournalInv.partKeys, List.range_succ]

/-- The data of a recovery is what an ack of `applied` commits. -/
theorem recovered_data {applied : Nat} {groups : List (Nat × List WriteBatch)}
    (hd : ∀ group ∈ groups, ∀ w ∈ group.2, Db.DataOnly w)
    (hinc : (groups.map Prod.fst).Pairwise (· < ·)) :
    (groups.flatMap (groupWrites applied)).filter (!·.isJournal)
      = ((groups.take (Ledger.ackCount applied groups [])).flatMap Prod.snd).flatten := by
  induction groups with
  | nil => rfl
  | cons group groups ih =>
    rw [List.map_cons] at hinc
    obtain ⟨hlt, hrest⟩ := List.pairwise_cons.mp hinc
    have hd' : ∀ g ∈ groups, ∀ w ∈ g.2, Db.DataOnly w :=
      fun g hg => hd g (List.mem_cons_of_mem _ hg)
    rw [List.flatMap_cons, List.filter_append, groupWrites_data (hd group (by simp)),
      ih hd' hrest, Ledger.ackCount]
    by_cases ha : applied < group.1
    · -- no later group is covered either
      have hnone : Ledger.ackCount applied groups [] = 0 := by
        cases groups with
        | nil => rfl
        | cons g groups =>
          have := hlt g.1 (by simp)
          rw [Ledger.ackCount, if_pos (by omega)]
      simp [ha, hnone]
    · simp [ha, Nat.not_lt.mp ha]

/-! ## What the crashed store holds -/

/-- The last committed sequence in state `x` of a run from `x₀`. -/
def lastCommitted (x₀ x : World E) : Nat := x₀.store.nextSequence + x.ledger.acked.length - 1

/-- The last returned sequence. -/
def lastReturned (x₀ x : World E) : Nat := x₀.store.nextSequence + x.ledger.returned.length - 1

omit [Engine E] in
theorem World.Opened.nextSequence_pos (h : x₀.Opened) : 1 ≤ x₀.store.nextSequence := by
  unfold Store.nextSequence
  cases hd : x₀.store.metas[metaNextSequence]? with
  | none => exact Nat.le_refl 1
  | some d =>
    obtain ⟨n, rfl⟩ := h.stored d hd
    exact Nat.le_add_left 1 n

/-- The newest batch on disk, as `recover_journal` computes it. -/
theorem WorldInv.stored_committed (hopen : x₀.Opened) (hi : WorldInv x₀ x) :
    ∃ next, metaU64 x.store metaNextSequence = .ok next ∧
      ((next = none ∧ lastCommitted x₀ x = 0) ∨
        ∃ m, next = some m ∧ m - 1 = lastCommitted x₀ x) := by
  have hmetas : x.store.metas = (x₀.store.content.commit x.ledger.committed.flatten).metas := by
    rw [← hi.content]
    rfl
  have hnext := hi.store_nextSequence
  rw [Store.nextSequence] at hnext
  unfold metaU64 lastCommitted
  cases hd : x.store.metas[metaNextSequence]? with
  | none =>
    refine ⟨none, rfl, Or.inl ⟨rfl, ?_⟩⟩
    rw [hd] at hnext
    dsimp only at hnext
    omega
  | some d =>
    -- every call stores a number here, and so did the run that wrote the opened store
    have hnumber : ∃ n, d = .number n := by
      cases hlast : x.ledger.committed.getLast? with
      | none =>
        rw [hmetas, List.getLast?_eq_none_iff.mp hlast] at hd
        obtain ⟨n, hn⟩ := hopen.stored d hd
        exact ⟨n + 1, hn⟩
      | some w =>
        have hstored := hi.last w hlast
        rw [hmetas, ← List.dropLast_append_getLast? w hlast, List.flatten_append,
          List.flatten_singleton, Store.commit_append, hstored.commit] at hd
        exact ⟨_, (Option.some.inj hd).symm⟩
    obtain ⟨n, rfl⟩ := hnumber
    refine ⟨some n, rfl, Or.inr ⟨n, rfl, ?_⟩⟩
    rw [hd] at hnext
    dsimp only at hnext
    omega

omit [Engine E] in
/-- The sequences of the queue follow the last committed one. -/
theorem WorldInv.queued_range (hopen : x₀.Opened) (hi : WorldInv x₀ x) :
    x.ledger.queued.map Prod.fst
      = List.range' (lastCommitted x₀ x + 1) x.ledger.queued.length := by
  have hpos := hopen.nextSequence_pos
  have hr := hi.returned
  have hlen : x.ledger.returned.length = x.ledger.acked.length + x.ledger.queued.length := by
    simp [Ledger.returned]
  have hdrop := congrArg (List.drop x.ledger.acked.length) hr
  rw [Ledger.returned, List.drop_left, List.drop_range'] at hdrop
  rw [hdrop]
  congr 1
  · unfold lastCommitted
    omega
  · simp only [List.length_append, List.length_map]
    omega

omit [Engine E] in
/-- The entries of the journal are the parts of the queue, in order. -/
theorem JournalState.journalParts (hs : JournalState x₀ x) :
    x.store.journalParts = x.ledger.parts.map journalPartOf := by
  rw [Store.journalParts, OrdMap.toList_eq_of_ordered (parts_ordered hs.inv.queued_increasing) hs.parts]
  rfl

/-- The batches on record are those of the queue. -/
theorem journaled_sequences {groups : List (Nat × List WriteBatch)}
    (hne : ∀ group ∈ groups, group.2 ≠ []) :
    ((((groups.flatMap groupParts).map journalPartOf).filter fun p => p.part == 0).map
      JournalPart.sequence) = groups.map Prod.fst := by
  induction groups with
  | nil => rfl
  | cons group groups ih =>
    obtain ⟨n, ws⟩ := group
    have hfirst : ∀ (ws : List WriteBatch) (k : Nat), 0 < k →
        ((((ws.zipIdx k).map fun (w, i) => (((n, i) : Nat × Nat), Datum.writes w)).map
          journalPartOf).filter fun p => p.part == 0) = [] := by
      intro ws k hk
      refine List.filter_eq_nil_iff.mpr ?_
      intro p hp
      simp only [List.map_map, List.mem_map, Prod.exists, List.mem_zipIdx_iff_le_and_getElem?_sub]
        at hp
      obtain ⟨w, i, ⟨hi, -⟩, rfl⟩ := hp
      simp [journalPartOf]
      omega
    have ih := ih fun g hg => hne g (List.mem_cons_of_mem _ hg)
    cases ws with
    | nil => exact absurd rfl (hne (n, []) (by simp))
    | cons w ws =>
      rw [List.flatMap_cons, List.map_append, List.filter_append, List.map_append, ih]
      have hgroup : groupParts (n, w :: ws) = ((n, 0), .writes w) ::
          (ws.zipIdx 1).map fun (w, i) => ((n, i), Datum.writes w) := by
        simp [groupParts, List.zipIdx_cons]
      rw [hgroup, List.map_cons, List.filter_cons, hfirst ws 1 Nat.one_pos]
      rfl

/-- A batch without a record exists exactly above the last returned one. -/
theorem find_missing {first k : Nat} (count : Nat) {journaled : List Nat}
    (hj : journaled = List.range' first k) :
    ((List.range' first count).find? fun s => !journaled.contains s) = none ↔ count ≤ k := by
  subst hj
  simp only [List.find?_eq_none, List.mem_range'_1, Bool.not_eq_true']
  constructor
  · intro h
    by_contra hlt
    have := h (first + k) (by omega)
    simp at this
  · intro h s hs
    simp
    omega

/-! ## Recovery -/

/-- What `recover_journal` promises on the store that a crash in state `x` leaves. -/
structure JournalRecovery (x₀ x : World E) : Prop where
  /-- it succeeds exactly between the last committed and the last returned batch -/
  succeeds : ∀ applied, (recoverJournal x.store none none (some applied)).2 = .ok () ↔
    lastCommitted x₀ x ≤ applied ∧ applied ≤ lastReturned x₀ x
  /-- and then it brings the store to the state after that batch -/
  recovered : ∀ applied, lastCommitted x₀ x ≤ applied → applied ≤ lastReturned x₀ x →
    ∃ s, recoverJournal x.store none none (some applied) = (s, .ok ()) ∧
      s.content = (x.ack [] none applied).store.content ∧
      s.journal = ∅ ∧
      s.nextSequence = applied + 1 ∧
      (∀ commitFault syncFault,
        recoverJournal s commitFault syncFault (some applied) = (s, .ok ())) ∧
      -- a crash before its commit leaves the store, one after its commit the recovered store
      (∀ commitFault syncFault,
        (recoverJournal x.store commitFault syncFault (some applied)).1
          = if commitFault.isSome then x.store else s)
  /-- a recovery that is refused changes nothing -/
  refused : ∀ applied commitFault syncFault,
    ¬ (lastCommitted x₀ x ≤ applied ∧ applied ≤ lastReturned x₀ x) →
      ∃ e, recoverJournal x.store commitFault syncFault (some applied) = (x.store, .error e)
  /-- without an applied sequence it succeeds only where nothing is on record -/
  unknown : ∀ commitFault syncFault,
    (x.store.journal = ∅ →
      recoverJournal x.store commitFault syncFault none = (x.store, .ok ())) ∧
    (x.store.journal ≠ ∅ →
      ∃ e, recoverJournal x.store commitFault syncFault none = (x.store, .error e))

/-- The outcome of a recovery, with the last committed batch `committed` and the parts on
record given. -/
def recoverFrom (store : Store) (commitFault syncFault : Outcome) (committed applied : Nat)
    (parts : List JournalPart) : Store × Except Error Unit :=
  if applied < committed then
    (store, .error (.invalidOperation ("the target applied batch " ++ toString applied ++
      ", but batch " ++ toString committed ++
      " is acked: the target lost batches that it applied, or does not store their sequence")))
  else
    match (List.range' (committed + 1) (applied - committed)).find? fun s =>
        !((parts.filter fun p => p.part == 0).map JournalPart.sequence).contains s with
    | some missing =>
      (store, .error (.invalidOperation ("the target applied batch " ++ toString applied ++
        ", but the database has no record of batch " ++ toString missing)))
    | none =>
      match recoveryWrites committed applied parts with
      | .error e => (store, .error e)
      | .ok recovery =>
        if recovery.isEmpty then (store, .ok ())
        else
          match commitFault with
          | some e => (store, .error e)
          | none =>
            match syncFault with
            | some e => (store.commit recovery, .error e)
            | none => (store.commit recovery, .ok ())

theorem recoverJournal_from (hopen : x₀.Opened) (hi : WorldInv x₀ x) (applied : Nat)
    (commitFault syncFault : Outcome) :
    recoverJournal x.store commitFault syncFault (some applied)
      = recoverFrom x.store commitFault syncFault (lastCommitted x₀ x) applied
        x.store.journalParts := by
  obtain ⟨next, hnext, hcommitted⟩ := hi.stored_committed hopen
  unfold recoverJournal
  simp only [hnext]
  rcases hcommitted with ⟨rfl, hc⟩ | ⟨m, rfl, hc⟩
  · rw [hc]
    rfl
  · rw [← hc]
    rfl

namespace JournalState

/-- The outcome of a recovery, by the position of `applied`. -/
theorem recoverJournal_eq (hopen : x₀.Opened) (hs : JournalState x₀ x) (applied : Nat)
    (commitFault syncFault : Outcome) :
    if lastCommitted x₀ x ≤ applied ∧ applied ≤ lastReturned x₀ x then
      recoverJournal x.store commitFault syncFault (some applied) =
        (let recovery := x.ledger.queued.flatMap (groupWrites applied)
        if recovery.isEmpty then (x.store, .ok ())
        else
          match commitFault with
          | some e => (x.store, .error e)
          | none =>
            match syncFault with
            | some e => (x.store.commit recovery, .error e)
            | none => (x.store.commit recovery, .ok ()))
    else ∃ e, recoverJournal x.store commitFault syncFault (some applied) = (x.store, .error e) := by
  have hrange := hs.inv.queued_range hopen
  have hpos := hopen.nextSequence_pos
  have hlast : lastReturned x₀ x = lastCommitted x₀ x + x.ledger.queued.length := by
    simp only [lastReturned, lastCommitted, Ledger.returned, List.length_append, List.length_map]
    omega
  rw [recoverJournal_from hopen hs.inv, recoverFrom]
  by_cases hlow : applied < lastCommitted x₀ x
  · rw [if_neg (by omega), if_pos hlow]
    exact ⟨_, rfl⟩
  · rw [if_neg hlow, hs.journalParts, Ledger.parts]
    rw [journaled_sequences (Queued.ne_nil hs.inv.queue)]
    have hmissing := find_missing (applied - lastCommitted x₀ x) hrange
    by_cases hhigh : applied ≤ lastReturned x₀ x
    · rw [if_pos ⟨Nat.not_lt.mp hlow, hhigh⟩, hmissing.mpr (by omega)]
      have habove : ∀ group ∈ x.ledger.queued, lastCommitted x₀ x < group.1 := by
        intro group hgroup
        have hmem : group.1 ∈ x.ledger.queued.map Prod.fst := List.mem_map_of_mem hgroup
        rw [hrange, List.mem_range'_1] at hmem
        omega
      rw [recoveryWrites_groups habove]
    · rw [if_neg (by omega)]
      cases hfind : (List.range' (lastCommitted x₀ x + 1) (applied - lastCommitted x₀ x)).find?
          fun s => !(x.ledger.queued.map Prod.fst).contains s with
      | none => exact absurd (hmissing.mp hfind) (by omega)
      | some missing => exact ⟨_, rfl⟩

omit [Engine E] in
theorem queued_data (hs : JournalState x₀ x) :
    ∀ group ∈ x.ledger.queued, ∀ w ∈ group.2, Db.DataOnly w := by
  intro group hgroup w hw
  apply hs.inv.data
  exact List.mem_append_right _ (List.mem_flatMap.mpr ⟨group, hgroup, hw⟩)

omit [Engine E] in
/-- A recovery deletes the whole journal. -/
theorem recovered_journal (hs : JournalState x₀ x) (applied : Nat) :
    (x.store.commit (x.ledger.queued.flatMap (groupWrites applied))).journal = ∅ := by
  have hdeletes : ∀ {groups : List (Nat × List WriteBatch)},
      (∀ group ∈ groups, ∀ w ∈ group.2, Db.DataOnly w) →
      (groups.flatMap (groupWrites applied)).filter (·.isJournal)
        = (JournalInv.partKeys groups).map fun k => .deleteJournal k.1 k.2 := by
    intro groups hd
    induction groups with
    | nil => rfl
    | cons group groups ih =>
      have hcons : JournalInv.partKeys (group :: groups)
          = JournalInv.partKeys [group] ++ JournalInv.partKeys groups := by
        simp [JournalInv.partKeys]
      rw [List.flatMap_cons, List.filter_append, groupWrites_deletes (hd group (by simp)),
        ih fun g hg => hd g (List.mem_cons_of_mem _ hg), hcons, List.map_append]
  apply ExtTreeMap.ext_getElem?
  intro k
  rw [Store.journal_commit_deletes (hdeletes hs.queued_data), ExtTreeMap.getElem?_empty]
  split
  · rfl
  · next hk =>
    cases hd : x.store.journal[k]? with
    | none => rfl
    | some d => exact absurd (JournalInv.mem_partKeys.mpr ⟨d, (hs.parts k d).mpr hd⟩) hk

/-- A recovery commits what an ack commits. -/
theorem recovered_content (hs : JournalState x₀ x) {applied : Nat} (htaken : x.ackTaken applied) :
    (x.store.commit (x.ledger.queued.flatMap (groupWrites applied))).content
      = (x.ack [] none applied).store.content := by
  rw [Store.content_commit, recovered_data hs.queued_data hs.inv.queued_increasing,
    (hs.ack_store [] none htaken).1,
    Queued.content_all (List.forall₂_take _ hs.inv.queue)]

/-- An ack up to the last returned batch is taken. -/
theorem ackTaken_of_le (hs : JournalState x₀ x) {applied : Nat}
    (h : applied ≤ lastReturned x₀ x) : x.ackTaken applied := by
  simp only [World.ackTaken, hs.synced]
  cases hlast : x.db.pending.getLast? with
  | none => rfl
  | some newest =>
    have hseqs := congrArg List.getLast? hs.inv.queue_sequences
    rw [List.getLast?_map, hlast, List.getLast?_map] at hseqs
    cases hl : x.ledger.queued.getLast? with
    | none =>
      rw [hl] at hseqs
      cases hseqs
    | some group =>
      rw [hl] at hseqs
      have hgroup := hs.inv.newest_sequence (List.dropLast_append_getLast? group hl).symm
      have hsequence : newest.sequence = group.1 := by simpa using hseqs
      unfold lastReturned at h
      simp
      omega

/-- After an ack of `applied`, its sequence is the last committed one. -/
theorem acked_through (hopen : x₀.Opened) (hs : JournalState x₀ x) {applied : Nat}
    (hlow : lastCommitted x₀ x ≤ applied) (hhigh : applied ≤ lastReturned x₀ x) :
    (x.ack [] none applied).store.nextSequence = applied + 1 := by
  have hrange := hs.inv.queued_range hopen
  have hcount : ∀ {groups : List (Nat × List WriteBatch)} {first : Nat},
      groups.map Prod.fst = List.range' first groups.length → first ≤ applied + 1 →
      applied < first + groups.length →
      Ledger.ackCount applied groups [] = applied + 1 - first := by
    intro groups
    induction groups with
    | nil =>
      intro first _ h1 h2
      simp only [List.length_nil] at h2
      rw [Ledger.ackCount]
      omega
    | cons group groups ih =>
      intro first hr h1 h2
      rw [List.map_cons, List.length_cons, List.range'_succ, List.cons.injEq] at hr
      rw [Ledger.ackCount, List.headD_nil]
      by_cases hlt : applied < group.1
      · rw [if_pos hlt]
        omega
      · rw [List.length_cons] at h2
        rw [if_neg hlt, if_neg (by simp), List.tail_nil, ih hr.2 (by omega) (by omega)]
        omega
  have hpos := hopen.nextSequence_pos
  have hlast : lastReturned x₀ x = lastCommitted x₀ x + x.ledger.queued.length := by
    simp only [lastReturned, lastCommitted, Ledger.returned, List.length_append, List.length_map]
    omega
  have hk := hcount hrange (by omega) (by omega)
  rw [(hs.inv.ack [] none applied).store_nextSequence]
  simp only [World.ack, hs.ackTaken_of_le hhigh, if_true, Ledger.ack, hk, Ledger.commitFirst,
    List.length_append, List.length_map, List.length_take]
  unfold lastCommitted at *
  omega

end JournalState

/-- A recovery of a store without a journal changes nothing. -/
theorem recoverJournal_done {s : Store} {applied : Nat} (hj : s.journal = ∅)
    (hn : ∃ next, metaU64 s metaNextSequence = .ok next ∧
      ((next = none ∧ applied = 0) ∨ ∃ m, next = some m ∧ m - 1 = applied))
    (commitFault syncFault : Outcome) :
    recoverJournal s commitFault syncFault (some applied) = (s, .ok ()) := by
  have hparts : s.journalParts = [] := by
    rw [Store.journalParts, hj]
    rfl
  obtain ⟨next, hnext, hcommitted⟩ := hn
  unfold recoverJournal
  simp only [hnext, hparts]
  rcases hcommitted with ⟨rfl, rfl⟩ | ⟨m, rfl, rfl⟩
  · rfl
  · simp [recoveryWrites]

/-- **Journal recovery:** after a crash between any two calls of a run in journal mode,
`recover_journal` with an applied sequence between the last committed and the last returned one
has the effect of the ack of that sequence, once; with any other it refuses and changes
nothing. -/
theorem journal_recovery (hr : JournalRun x₀ x) : JournalRecovery x₀ x := by
  have hopen := hr.1
  have hs := JournalState.of_run hr
  refine ⟨?_, ?_, ?_, ?_⟩
  · intro applied
    have heq := hs.recoverJournal_eq hopen applied none none
    split at heq
    · next hin =>
      rw [heq]
      refine ⟨fun _ => hin, fun _ => ?_⟩
      dsimp only
      split <;> rfl
    · next hout =>
      obtain ⟨e, he⟩ := heq
      rw [he]
      refine ⟨fun h => ?_, fun h => absurd h hout⟩
      cases h
  · intro applied hlow hhigh
    have heq := fun commitFault syncFault =>
      hs.recoverJournal_eq hopen applied commitFault syncFault
    simp only [hlow, hhigh, and_self, if_true] at heq
    have htaken := hs.ackTaken_of_le hhigh
    have hcontent := hs.recovered_content htaken
    have hjournal := hs.recovered_journal applied
    -- without parts on record nothing is committed, and the commit of nothing is the store
    have hsame : (x.ledger.queued.flatMap (groupWrites applied)).isEmpty →
        x.store.commit (x.ledger.queued.flatMap (groupWrites applied)) = x.store := by
      intro hnil
      rw [List.isEmpty_iff.mp hnil, Store.commit_nil]
    have hmetas : (x.store.commit (x.ledger.queued.flatMap (groupWrites applied))).metas
        = (x.ack [] none applied).store.metas := by
      have := congrArg Store.metas hcontent
      simpa only [Store.content] using this
    have hnext : (x.store.commit
        (x.ledger.queued.flatMap (groupWrites applied))).nextSequence = applied + 1 := by
      rw [← hs.acked_through hopen hlow hhigh, Store.nextSequence, hmetas, Store.nextSequence]
    refine ⟨x.store.commit (x.ledger.queued.flatMap (groupWrites applied)), ?_, hcontent,
      hjournal, hnext, ?_, ?_⟩
    · rw [heq none none]
      split
      · next hnil => rw [hsame hnil]
      · rfl
    · apply recoverJournal_done hjournal
      obtain ⟨next, hstored, hcommitted⟩ :=
        (hs.inv.ack [] none applied).stored_committed hopen
      have hlast : lastCommitted x₀ (x.ack [] none applied) = applied := by
        have hthrough := hs.acked_through hopen hlow hhigh
        rw [(hs.inv.ack [] none applied).store_nextSequence] at hthrough
        unfold lastCommitted
        omega
      rw [hlast] at hcommitted
      refine ⟨next, ?_, hcommitted⟩
      rw [← hstored, metaU64, metaU64, hmetas]
    · intro commitFault syncFault
      rw [heq commitFault syncFault]
      split
      · next hnil => rw [hsame hnil, ite_self]
      · cases commitFault with
        | some e => rfl
        | none => cases syncFault <;> rfl
  · intro applied commitFault syncFault hout
    have heq := hs.recoverJournal_eq hopen applied commitFault syncFault
    rwa [if_neg hout] at heq
  · intro commitFault syncFault
    unfold recoverJournal Store.journalParts
    refine ⟨fun hj => ?_, fun hj => ?_⟩
    · rw [hj]
      rfl
    cases hl : x.store.journal.toList with
    | nil => exact absurd (ExtTreeMap.toList_eq_nil_iff.mp hl) hj
    | cons entry rest => exact ⟨_, rfl⟩

/-- One trade is on record, and its ack never came. -/
theorem journal_recovery_one_trade :
    (tradesIngested true).store.journalParts.length = 1 ∧
    JournalRecovery (tradesWorld true) (tradesIngested true) := by
  refine ⟨by decide +kernel, journal_recovery ⟨tradesWorld_opened true, rfl, ?_⟩⟩
  exact Relation.ReflTransGen.single (.ingest _ none _ _ _)

end Settle
