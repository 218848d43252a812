import Settle.Db.ForkCall
import Settle.Db.InputRows

/-!
# What a call does, step by step

The calls of `Settle.Db.Calls` over the pipeline, taken apart: a successful ingest is the rollback
of its fork, its rows and the end that `Closed` describes, and a successful fork call is its
rollback and its cursors. A call that fails without poisoning the instance leaves the engine as it
was but for the nodes.
-/

namespace Settle

open Std

variable {R V : Type} [ReducerNode R] [ViewNode V]

/-! ## The metadata of a call -/

/-- What `append_meta_to_batch` adds. -/
def metaTail (e : SettleEngine R V) (stamp : List (String × Datum)) : WriteBatch :=
  (e.latestBlock.map fun b => BatchOp.putMeta metaLatestBlock (.number b.toNat)).toList ++
    (e.durableBlock.map fun b => BatchOp.putMeta metaDurableBlock (.number b.toNat)).toList ++
    ((if e.hasFinalized then some e.finalizedBlock else none).map fun b =>
      BatchOp.putMeta metaFinalityBlock (.number b.toNat)).toList ++
    e.hashChanges.toList.map (fun b =>
      match e.blockHashes[b]? with
      | some hash => .putBlockHash b hash
      | none => .deleteBlockHash b) ++
    stamp.map fun (key, value) => .putMeta key value

/-- The write of a mark, if there is one. -/
theorem putMark_eq (key : String) (block : Option BlockNumber) :
    (match block with
      | some b => ([.putMeta key (.number b.toNat)] : WriteBatch)
      | none => []) = (block.map fun b => BatchOp.putMeta key (.number b.toNat)).toList := by
  cases block <;> rfl

omit [ReducerNode R] [ViewNode V] in
/-- The writes of the hashes. -/
theorem hashWrites_eq (e : SettleEngine R V) :
    (SettleEngine.takeHashChanges e).2.map (fun (block, hash) =>
      match hash with
      | some hash => BatchOp.putBlockHash block hash
      | none => .deleteBlockHash block)
      = (e.hashChanges.toList.map fun b =>
        match e.blockHashes[b]? with
        | some hash => (.putBlockHash b hash : BatchOp Datum)
        | none => .deleteBlockHash b) := by
  rw [SettleEngine.takeHashChanges, List.map_map]
  rfl

theorem appendMetaToBatch_marks (db : Db (SettleEngine R V)) (batch : WriteBatch) :
    db.appendMetaToBatch batch
      = ({ db with engine := { db.engine with hashChanges := ∅ } },
          batch ++ metaTail db.engine db.stamp) := by
  rw [metaTail, ← putMark_eq, ← putMark_eq, ← putMark_eq, ← hashWrites_eq]
  simp only [← List.append_assoc]
  rfl

/-- The stamp writes none of the keys of the watermarks. -/
def StampOk (stamp : List (String × Datum)) : Prop :=
  ∀ entry ∈ stamp, entry.1 ≠ metaDurableBlock ∧ entry.1 ≠ metaLatestBlock ∧
    entry.1 ≠ metaFinalityBlock

/-- Writes of other meta keys. -/
theorem Store.metas_commit_of_ne {key : String} {batch : WriteBatch}
    (h : ∀ op ∈ batch, ∀ k v, op = .putMeta k v → k ≠ key) (s : Store) :
    (s.commit batch).metas[key]? = s.metas[key]? := by
  induction batch generalizing s with
  | nil => rfl
  | cons op batch ih =>
    rw [Store.commit_cons, ih fun op' hop' => h op' (List.mem_cons_of_mem op hop')]
    have hop := h op (by simp)
    cases op with
    | putMeta k v =>
      show (s.metas.insert k v)[key]? = _
      rw [ExtTreeMap.getElem?_insert, if_neg]
      exact fun heq => hop k v rfl (LawfulEqCmp.eq_of_compare heq)
    | _ => rfl

/-- Writes of no block hash. -/
theorem Store.blockHashes_commit_of_not {batch : WriteBatch}
    (h : ∀ op ∈ batch, (∀ b hash, op ≠ .putBlockHash b hash) ∧ ∀ b, op ≠ .deleteBlockHash b)
    (s : Store) : (s.commit batch).blockHashes = s.blockHashes := by
  induction batch generalizing s with
  | nil => rfl
  | cons op batch ih =>
    rw [Store.commit_cons, ih fun op' hop' => h op' (List.mem_cons_of_mem op hop')]
    have hop := h op (by simp)
    cases op with
    | putBlockHash b hash => exact absurd rfl (hop.1 b hash)
    | deleteBlockHash b => exact absurd rfl (hop.2 b)
    | _ => rfl

/-- The writes of some hashes. -/
theorem Store.blockHashes_commit_changes (hashes : BTreeMap BlockNumber String)
    (blocks : List BlockNumber) (s : Store) (b : BlockNumber) :
    (s.commit (blocks.map fun b => match hashes[b]? with
      | some hash => .putBlockHash b hash
      | none => .deleteBlockHash b)).blockHashes[b]?
      = if b ∈ blocks then hashes[b]? else s.blockHashes[b]? := by
  induction blocks generalizing s with
  | nil => simp
  | cons c blocks ih =>
    rw [List.map_cons, Store.commit_cons, ih]
    by_cases hmem : b ∈ blocks
    · simp [hmem]
    · have hone : (s.apply (match hashes[c]? with
          | some hash => .putBlockHash c hash
          | none => .deleteBlockHash c)).blockHashes[b]?
          = if b = c then hashes[b]? else s.blockHashes[b]? := by
        by_cases hbc : b = c
        · subst hbc
          rw [if_pos rfl]
          cases hashes[b]? with
          | some hash =>
            show (s.blockHashes.insert b hash)[b]? = _
            simp
          | none =>
            show (s.blockHashes.erase b)[b]? = _
            simp
        · have hne : ¬ compare c b = .eq := fun heq => hbc (LawfulEqCmp.eq_of_compare heq).symm
          rw [if_neg hbc]
          cases hashes[c]? with
          | some hash =>
            show (s.blockHashes.insert c hash)[b]? = _
            rw [ExtTreeMap.getElem?_insert, if_neg hne]
          | none =>
            show (s.blockHashes.erase c)[b]? = _
            rw [ExtTreeMap.getElem?_erase, if_neg hne]
      rw [if_neg hmem, hone]
      by_cases hbc : b = c
      · simp [hbc]
      · simp [hbc, hmem]

/-- The record in storage, except for the blocks that are marked. -/
def HashSync (s : Store) (e : SettleEngine R V) : Prop :=
  ∀ b : BlockNumber, b ∉ e.hashChanges → s.blockHashes[b]? = e.blockHashes[b]?

omit [ReducerNode R] [ViewNode V] in
theorem HashSync.marks {s : Store} {e e' : SettleEngine R V} (h : HashSync s e) (hm : e.Marks e') :
    HashSync s e' := fun b hb => by
  rw [h b (hm b hb).1, (hm b hb).2]

section MetaTail

variable (e : SettleEngine R V) {stamp : List (String × Datum)} (s : Store)

omit [ReducerNode R] [ViewNode V] in
theorem mem_metaTail {op : BatchOp Datum} (h : op ∈ metaTail e stamp) :
    (∃ k v, op = .putMeta k v) ∨ (∃ b hash, op = .putBlockHash b hash) ∨
      ∃ b, op = .deleteBlockHash b := by
  simp only [metaTail, List.mem_append, Option.mem_toList, Option.map_eq_some_iff, List.mem_map]
    at h
  rcases h with (((⟨b, -, rfl⟩ | ⟨b, -, rfl⟩) | ⟨b, -, rfl⟩) | ⟨b, -, rfl⟩) | ⟨kv, -, rfl⟩
  · exact Or.inl ⟨_, _, rfl⟩
  · exact Or.inl ⟨_, _, rfl⟩
  · exact Or.inl ⟨_, _, rfl⟩
  · cases e.blockHashes[b]? with
    | some hash => exact Or.inr (Or.inl ⟨_, _, rfl⟩)
    | none => exact Or.inr (Or.inr ⟨_, rfl⟩)
  · exact Or.inl ⟨_, _, rfl⟩

omit [ReducerNode R] [ViewNode V] in
/-- The metadata does not touch raw rows. -/
theorem metaTail_raw : ∀ op ∈ metaTail e stamp, op.isRaw = false := by
  intro op hop
  rcases mem_metaTail e hop with ⟨k, v, rfl⟩ | ⟨b, hash, rfl⟩ | ⟨b, rfl⟩ <;> rfl

/-- A stored block. -/
def blockMeta (block : Option BlockNumber) : Option Datum := block.map fun b => .number b.toNat

/-- The blocks that the metadata stores. -/
def markMeta (key : String) : Option BlockNumber :=
  if key = metaLatestBlock then e.latestBlock
  else if key = metaDurableBlock then e.durableBlock
  else if e.hasFinalized then some e.finalizedBlock else none

theorem Store.metas_commit_block (key k : String) (block : Option BlockNumber) :
    (s.commit (block.map fun b => BatchOp.putMeta key (.number b.toNat)).toList).metas[k]?
      = if key = k then (blockMeta block).or s.metas[k]? else s.metas[k]? := by
  cases block with
  | none =>
    have hnone : (blockMeta none).or s.metas[k]? = s.metas[k]? := rfl
    rw [hnone, ite_self]
    rfl
  | some b =>
    show (s.metas.insert key (.number b.toNat))[k]? = _
    rw [ExtTreeMap.getElem?_insert]
    by_cases hk : key = k
    · subst hk
      rw [if_pos (by simp), if_pos rfl]
      rfl
    · rw [if_neg fun heq => hk (LawfulEqCmp.eq_of_compare heq), if_neg hk]

omit [ReducerNode R] [ViewNode V] in
/-- **The metadata stores the watermarks.** A watermark that is not set leaves its key. -/
theorem metaTail_metas (hstamp : StampOk stamp) {key : String}
    (hkey : key = metaLatestBlock ∨ key = metaDurableBlock ∨ key = metaFinalityBlock) :
    (s.commit (metaTail e stamp)).metas[key]?
      = (blockMeta (markMeta e key)).or s.metas[key]? := by
  have hstamped : ∀ s : Store, (s.commit (stamp.map fun (key, value) =>
      (.putMeta key value : BatchOp Datum))).metas[key]? = s.metas[key]? := by
    intro s
    refine Store.metas_commit_of_ne ?_ s
    intro op hop k v heq
    obtain ⟨entry, hmem, rfl⟩ := List.mem_map.mp hop
    cases heq
    obtain ⟨hd, hl, hf⟩ := hstamp entry hmem
    rcases hkey with rfl | rfl | rfl
    · exact hl
    · exact hd
    · exact hf
  have hhashes : ∀ s : Store, (s.commit (e.hashChanges.toList.map (fun b =>
      match e.blockHashes[b]? with
      | some hash => (.putBlockHash b hash : BatchOp Datum)
      | none => .deleteBlockHash b))).metas[key]? = s.metas[key]? := by
    intro s
    refine Store.metas_commit_of_ne ?_ s
    intro op hop k v heq
    obtain ⟨b, -, rfl⟩ := List.mem_map.mp hop
    cases hh : e.blockHashes[b]? <;> rw [hh] at heq <;> cases heq
  rw [metaTail, Store.commit_append, hstamped, Store.commit_append, hhashes, Store.commit_append,
    Store.metas_commit_block, Store.commit_append, Store.metas_commit_block,
    Store.metas_commit_block]
  have h₁ : metaLatestBlock ≠ metaDurableBlock := by decide
  have h₂ : metaLatestBlock ≠ metaFinalityBlock := by decide
  have h₃ : metaDurableBlock ≠ metaFinalityBlock := by decide
  rcases hkey with rfl | rfl | rfl
  · rw [if_neg h₂.symm, if_neg h₁.symm, if_pos rfl, markMeta, if_pos rfl]
  · rw [if_neg h₃.symm, if_pos rfl, if_neg h₁, markMeta, if_neg h₁.symm, if_pos rfl]
  · rw [if_pos rfl, if_neg h₃, if_neg h₂, markMeta, if_neg h₂.symm, if_neg h₃.symm]

omit [ReducerNode R] [ViewNode V] in
/-- After the metadata, storage has the record of the engine. -/
theorem metaTail_hashes (h : HashSync s e) (b : BlockNumber) :
    (s.commit (metaTail e stamp)).blockHashes[b]? = e.blockHashes[b]? := by
  have hmeta : ∀ (s : Store) (batch : WriteBatch), (∀ op ∈ batch, ∃ k v, op = .putMeta k v) →
      (s.commit batch).blockHashes = s.blockHashes := by
    intro s batch hbatch
    refine Store.blockHashes_commit_of_not ?_ s
    intro op hop
    obtain ⟨k, v, rfl⟩ := hbatch op hop
    exact ⟨by simp, by simp⟩
  rw [metaTail, Store.commit_append, Store.commit_append, hmeta _ (stamp.map _) (by
    intro op hop
    obtain ⟨kv, -, rfl⟩ := List.mem_map.mp hop
    exact ⟨_, _, rfl⟩), Store.blockHashes_commit_changes, hmeta s _ (by
    intro op hop
    simp only [List.mem_append, Option.mem_toList, Option.map_eq_some_iff] at hop
    rcases hop with (⟨b, -, rfl⟩ | ⟨b, -, rfl⟩) | ⟨b, -, rfl⟩ <;> exact ⟨_, _, rfl⟩)]
  by_cases hmem : b ∈ e.hashChanges
  · rw [if_pos (ExtTreeSet.mem_toList.mpr hmem)]
  · rw [if_neg fun hl => hmem (ExtTreeSet.mem_toList.mp hl), h b hmem]

end MetaTail

/-! ## Calls -/

namespace SettleEngine

/-- The durable block is at or below finality and the latest block. -/
def Levels (e : SettleEngine R V) : Prop :=
  ∀ d, e.durableBlock = some d →
    d ≤ e.finalizedBlock ∧ ∃ latest, e.latestBlock = some latest ∧ d ≤ latest

/-- The rollback of the fork of a call, if it has one. -/
def RolledTo (e e' : SettleEngine R V) (writes : WriteBatch) : Option BlockNumber → Prop
  | none => e' = e ∧ writes = []
  | some p => e.Target p ∧
    (∃ nodes, e' = dropHashes { e with nodes := nodes, latestBlock := some p } (p + 1)) ∧
    e.DeletesAbove writes p ∧ ∀ op ∈ writes, ∃ table, op = .deleteRawRowsAfter table p

end SettleEngine

namespace Db

open SettleEngine

variable {db db' : Db (SettleEngine R V)} {store : Store} {chain : List BlockCursor}
  {head : BlockCursor} {data : InputData}

/-- The end of an ingest: its cursors, finality, the checkpoint and the metadata. -/
theorem finalizeIngest_steps (db : Db (SettleEngine R V)) (writes : WriteBatch)
    (changes : List ChangeRecord) (chain : List BlockCursor) (head : BlockCursor) :
    ∃ nodes e' wc n,
      Closed { db.engine with nodes := nodes } e' (cursors (chain ++ [head])) head.number wc ∧
      (db.finalizeIngest writes changes chain head).1.engine = { e' with hashChanges := ∅ } ∧
      (db.finalizeIngest writes changes chain head).1.stamp = db.stamp ∧
      (db.finalizeIngest writes changes chain head).2.1
        = writes ++ wc ++ metaTail e' db.stamp ++ [.putMeta metaNextSequence (.number n)] := by
  unfold finalizeIngest
  dsimp only
  generalize checkpointDue (E := SettleEngine R V) _ head.number = due
  have hclosed := closed_closeIngest (Engine.takeChanges db.engine).1
    (cursors (chain ++ [head])) head.number due
  rw [appendMetaToBatch_marks]
  exact ⟨_, _, _, _, hclosed, rfl, rfl, rfl⟩

theorem rollbackEngine_steps {p : BlockNumber} (ht : db.engine.Target p) {writes : WriteBatch}
    {changes : List ChangeRecord} (h : db.rollbackEngine store p = (db', writes, .ok changes)) :
    ∃ e', db' = { db with engine := e' } ∧ db.engine.RolledTo e' writes (some p) := by
  unfold rollbackEngine at h
  have hcheck : Engine.checkRollbackTarget db.engine p = .ok () := checkRollbackTarget_ok ht
  rw [hcheck] at h
  dsimp only at h
  split at h
  · next e' w cs hroll =>
    cases h
    obtain ⟨hnodes, hdeletes, hops⟩ := rollbackToBatch_marks ht hroll
    exact ⟨e', rfl, ht, hnodes, hdeletes, hops⟩
  · cases h

theorem rollbackEngine_stamp {p : BlockNumber} {writes : WriteBatch}
    {result : Except Error (List ChangeRecord)}
    (h : db.rollbackEngine store p = (db', writes, result)) : db'.stamp = db.stamp := by
  unfold rollbackEngine at h
  split at h
  · cases h
    rfl
  · split at h <;> cases h <;> rfl

/-- A rollback that fails leaves the instance alone, or poisons it. -/
theorem rollbackEngine_failed {p : BlockNumber} {writes : WriteBatch} {err : Error}
    (h : db.rollbackEngine store p = (db', writes, .error err)) :
    db' = db ∨ db'.poisoned.isSome := by
  unfold rollbackEngine at h
  split at h
  · cases h
    exact Or.inl rfl
  · split at h
    · cases h
    · cases h
      exact Or.inr rfl

theorem rollbackFork_steps {fork : Option BlockNumber}
    (ht : ∀ p, fork = some p → db.engine.Target p) {writes : WriteBatch}
    {changes : List ChangeRecord} (h : db.rollbackFork store fork = (db', writes, .ok changes)) :
    ∃ e', db' = { db with engine := e' } ∧ db.engine.RolledTo e' writes fork := by
  cases fork with
  | none =>
    cases h
    exact ⟨db.engine, rfl, rfl, rfl⟩
  | some p => exact rollbackEngine_steps (ht p rfl) h

/-- The checks of an ingest that succeeded. -/
theorem checkIngest_steps {fork recovery : Option BlockNumber}
    {tables : List (String × BTreeMap BlockNumber (List Row))}
    (h : db.checkIngest data chain head = .ok (fork, recovery, tables)) :
    db.engine.finalizedBlock ≤ head.number ∧ db.detectFork chain head = .ok fork ∧
      recovery = fork.or db.engine.latestBlock ∧ db.groupInputRows data recovery = .ok tables := by
  unfold checkIngest at h
  simp only [bind, Except.bind] at h
  split at h
  · cases h
  · split at h
    · cases h
    · split at h
      · cases h
      · split at h
        · cases h
        · next hfin =>
          have hle : db.engine.finalizedBlock ≤ head.number := UInt64.not_lt.mp hfin
          split at h
          · cases h
          · next fork' hfork =>
            split at h
            · cases h
            · next tables' htables =>
              cases h
              exact ⟨hle, hfork, rfl, htables⟩

omit [ReducerNode R] [ViewNode V] in
/-- The floor of an ingest: its fork point, or the latest block. The durable block is not
above it. -/
theorem durable_le_floor {e e' : SettleEngine R V} {writes : WriteBatch}
    {fork : Option BlockNumber} (hl : e.Levels) (hr : e.RolledTo e' writes fork) :
    ∀ d, e'.durableBlock = some d → ∃ f, fork.or e.latestBlock = some f ∧ d ≤ f := by
  intro d hd
  cases fork with
  | none =>
    obtain ⟨rfl, -⟩ := hr
    exact (hl d hd).2
  | some p =>
    obtain ⟨ht, ⟨nodes, rfl⟩, -⟩ := hr
    exact ⟨p, rfl, UInt64.le_trans (hl d hd).1 ht.2⟩

/-- **A successful ingest, step by step:** the rollback of its fork, its rows, and the end. -/
theorem prepareIngest_steps (hl : db.engine.Levels) {w : WriteBatch} {batch : Option ChangeBatch}
    (h : db.prepareIngest store data chain head = (db', .ok (w, batch))) :
    ∃ fork tables e₁ w₁ nodes e₂ w₂ n,
      db.engine.finalizedBlock ≤ head.number ∧ db.detectFork chain head = .ok fork ∧
      db.groupInputRows data (fork.or db.engine.latestBlock) = .ok tables ∧
      db.engine.RolledTo e₁ w₁ fork ∧
      (∀ t ∈ inputBlocks tables, e₁.rawTables.contains t.1) ∧
      Closed { e₁ with
        nodes := nodes
        latestBlock := (inputBlocks tables).foldl (fun l t => bumpLatest l t.2.1) e₁.latestBlock }
        e₂ (cursors (chain ++ [head])) head.number w₂ ∧
      db'.engine = { e₂ with hashChanges := ∅ } ∧ db'.stamp = db.stamp ∧
      w = w₁ ++ (inputBlocks tables).flatMap e₁.putRows ++ w₂ ++ metaTail e₂ db.stamp ++
        [.putMeta metaNextSequence (.number n)] := by
  unfold prepareIngest at h
  split at h
  · cases h
  · next fork recovery tables hcheck =>
    obtain ⟨hle, hfork, rfl, htables⟩ := checkIngest_steps hcheck
    unfold ingestTables at h
    split at h
    · cases h
    · next db₁ w₁ changes hroll =>
      obtain ⟨e₁, rfl, hrolled⟩ := rollbackFork_steps
        (fun p hp => detectFork_target (by rw [hfork, hp])) hroll
      dsimp only at h
      split at h
      · cases h
      · next e' w' changes' hproc =>
        obtain ⟨nodes, done, rest, hsplit, rfl, hok⟩ := processTables_marks store
          (groupInputRows_above htables) e₁ (durable_le_floor hl hrolled) hproc
        obtain ⟨rfl, rfl, hcontains⟩ := hok changes' rfl
        rw [List.append_nil] at hsplit
        subst hsplit
        obtain ⟨nodes', e₂, w₂, n, hclosed, heng, hstamp, hw⟩ := finalizeIngest_steps
          { db with engine := { e₁ with
              nodes := nodes
              latestBlock := (inputBlocks tables).foldl (fun l t => bumpLatest l t.2.1)
                e₁.latestBlock } } (w₁ ++ (inputBlocks tables).flatMap e₁.putRows)
          (changes ++ changes') chain head
        have hres := Prod.mk.inj h
        have hresult := Except.ok.inj hres.2
        refine ⟨fork, tables, e₁, w₁, nodes', e₂, w₂, n, hle, hfork, htables, hrolled, hcontains,
          hclosed, ?_, ?_, ?_⟩
        · rw [← hres.1]
          exact heng
        · rw [← hres.1]
          exact hstamp
        · rw [show w = _ from (congrArg Prod.fst hresult).symm]
          exact hw

/-- An ingest that fails before its write set leaves the engine as it was but for the nodes, or
poisons the instance. -/
theorem prepareIngest_failed (hl : db.engine.Levels) {err : Error}
    (h : db.prepareIngest store data chain head = (db', .error err)) :
    db'.stamp = db.stamp ∧
      (db'.poisoned.isSome ∨ ∃ nodes, db'.engine = { db.engine with nodes := nodes }) := by
  unfold prepareIngest at h
  split at h
  · cases h
    exact ⟨rfl, Or.inr ⟨db.engine.nodes, rfl⟩⟩
  · next fork recovery tables hcheck =>
    obtain ⟨hle, hfork, rfl, htables⟩ := checkIngest_steps hcheck
    unfold ingestTables at h
    split at h
    · next db₁ w₁ err' hroll =>
      cases h
      cases fork with
      | none => cases hroll
      | some p =>
        refine ⟨rollbackEngine_stamp hroll, ?_⟩
        rcases rollbackEngine_failed hroll with rfl | hp
        · exact Or.inr ⟨db'.engine.nodes, rfl⟩
        · exact Or.inl hp
    · next db₁ w₁ changes hroll =>
      obtain ⟨e₁, rfl, hrolled⟩ := rollbackFork_steps
        (fun p hp => detectFork_target (by rw [hfork, hp])) hroll
      dsimp only at h
      split at h
      · next e' w' err' hproc =>
        obtain ⟨nodes, done, rest, hsplit, rfl, -⟩ := processTables_marks store
          (groupInputRows_above htables) e₁ (durable_le_floor hl hrolled) hproc
        cases h
        cases fork with
        | some p => exact ⟨rfl, Or.inl rfl⟩
        | none =>
          obtain ⟨rfl, -⟩ := hrolled
          unfold failIngest
          rw [if_neg (by simp)]
          split
          · next e'' hundo => exact ⟨rfl, Or.inr (undoIngest_marks hundo)⟩
          · exact ⟨rfl, Or.inl rfl⟩
      · cases h

/-- **A successful fork call, step by step:** its rollback, its cursors and the metadata. -/
theorem prepareFork_steps {cursor : BlockCursor} {w : WriteBatch} {batch : Option ChangeBatch}
    (h : db.prepareFork store chain = (db', .ok (cursor, w, batch))) :
    ∃ e₁ w₁ n,
      db.engine.resolveForkCursorBounded (sortDesc (cursors chain)) = some cursor ∧
      db.engine.RolledTo e₁ w₁ (some cursor.number) ∧
      db'.engine = { e₁.setRollbackChain (sortDesc (cursors chain)) with hashChanges := ∅ } ∧
      db'.stamp = db.stamp ∧
      w = w₁ ++ metaTail (e₁.setRollbackChain (sortDesc (cursors chain))) db.stamp ++
        [.putMeta metaNextSequence (.number n)] := by
  unfold prepareFork at h
  split at h
  · cases h
  · split at h
    · cases h
    · dsimp only at h
      split at h
      · cases h
      · next cursor' hcursor =>
        split at h
        · cases h
        · next db₁ w₁ changes hroll =>
          have hmatch := (resolve_some hcursor).2.1
          obtain ⟨e₁, rfl, hrolled⟩ := rollbackEngine_steps ⟨hmatch.1, hmatch.2.1⟩ hroll
          rw [appendMetaToBatch_marks] at h
          cases h
          exact ⟨e₁, w₁, _, hcursor, hrolled, rfl, rfl, rfl⟩

/-- A fork call that fails leaves the instance alone, or poisons it. -/
theorem prepareFork_failed {err : Error} (h : db.prepareFork store chain = (db', .error err)) :
    db'.stamp = db.stamp ∧ (db' = db ∨ db'.poisoned.isSome) := by
  unfold prepareFork at h
  split at h
  · cases h
    exact ⟨rfl, Or.inl rfl⟩
  · split at h
    · cases h
      exact ⟨rfl, Or.inl rfl⟩
    · dsimp only at h
      split at h
      · cases h
        exact ⟨rfl, Or.inl rfl⟩
      · split at h
        · next hroll =>
          cases h
          exact ⟨rollbackEngine_stamp hroll, rollbackEngine_failed hroll⟩
        · cases h

end Db

end Settle
