import Settle.Db.Reopen

/-!
# The record of block hashes

What `prune_block_hashes`, `set_rollback_chain` and the rollbacks make of the hashes that the calls
supply (`HashImage`). From finality up the record should be the image: the last hash supplied for a
block, unless a rollback went below it. Below finality it should hold the hashes of the durable and
the latest block only, and storage with the queued write sets should hold the same record.

Hashes from finality up and storage are always so. Below finality, two calls store cursors
and do not prune: a fork call, and an ingest that leaves finality where the durable state is. **In
every run where these supply no other cursor below finality** (`SoundCall`)**, the record is as it
should be after every successful call** (`hash_record_of_sound`).
-/

namespace Settle

open Std

variable {R V : Type} [ReducerNode R] [ViewNode V]

/-! ## Images -/

/-- The hashes that the calls supplied, as far as no rollback went below their block. -/
abbrev HashImage := BlockNumber → Option String

namespace HashImage

def rollback (image : HashImage) : Option BlockNumber → HashImage
  | none => image
  | some p => fun block => if p < block then none else image block

/-- The cursors of a call. -/
def supply (image : HashImage) (cursors : List (BlockNumber × String)) : HashImage := fun block =>
  match cursors.find? (·.1 == block) with
  | some cursor => some cursor.2
  | none => image block

theorem supply_of_mem {image : HashImage} {cursors : List (BlockNumber × String)}
    (hone : SettleEngine.OneHash cursors) {block : BlockNumber} {hash : String}
    (h : (block, hash) ∈ cursors) : image.supply cursors block = some hash := by
  unfold supply
  cases hfind : cursors.find? (·.1 == block) with
  | none =>
    have := List.find?_eq_none.mp hfind (block, hash) h
    simp at this
  | some cursor =>
    have hmem := List.mem_of_find?_eq_some hfind
    have hblock : cursor.1 = block := by simpa using List.find?_some hfind
    have hcursor : (block, cursor.2) ∈ cursors := by
      rw [← hblock]
      exact hmem
    exact congrArg some (hone block cursor.2 hash hcursor h)

theorem supply_of_not_mem {image : HashImage} {cursors : List (BlockNumber × String)}
    {block : BlockNumber} (h : ∀ hash, (block, hash) ∉ cursors) :
    image.supply cursors block = image block := by
  unfold supply
  cases hfind : cursors.find? (·.1 == block) with
  | none => rfl
  | some cursor =>
    have hmem := List.mem_of_find?_eq_some hfind
    have hblock : cursor.1 = block := by simpa using List.find?_some hfind
    exact absurd (by rw [← hblock]; exact hmem) (h cursor.2)

/-- The order of the cursors does not matter. -/
theorem supply_perm {image : HashImage} {cursors cursors' : List (BlockNumber × String)}
    (hone : SettleEngine.OneHash cursors) (hp : cursors'.Perm cursors) :
    image.supply cursors = image.supply cursors' := by
  funext b
  by_cases hmem : ∃ hash, (b, hash) ∈ cursors
  · obtain ⟨hash, hmem⟩ := hmem
    have hone' : SettleEngine.OneHash cursors' := fun b h h' hm hm' =>
      hone b h h' (hp.mem_iff.mp hm) (hp.mem_iff.mp hm')
    rw [supply_of_mem hone hmem, supply_of_mem hone' (hp.mem_iff.mpr hmem)]
  · rw [supply_of_not_mem fun hash hm => hmem ⟨hash, hm⟩,
      supply_of_not_mem fun hash hm => hmem ⟨hash, hp.mem_iff.mp hm⟩]

end HashImage

/-! ## The record of an engine -/

/-- The record against the supplied hashes: the image from finality up, and below it the durable
and the latest block only. -/
structure Recorded (e : SettleEngine R V) (image : HashImage) : Prop where
  above : ∀ b, e.finalizedBlock ≤ b → e.blockHashes[b]? = image b
  below : ∀ b hash, b < e.finalizedBlock → e.blockHashes[b]? = some hash →
    e.durableBlock = some b ∨ e.latestBlock = some b

namespace SettleEngine

omit [ReducerNode R] [ViewNode V] in
/-- Storing cursors, against the image. -/
theorem setRollbackChain_supply {e : SettleEngine R V} {cursors : List (BlockNumber × String)}
    (hone : OneHash cursors) {image : HashImage} {b : BlockNumber}
    (h : e.blockHashes[b]? = image b) :
    (e.setRollbackChain cursors).blockHashes[b]? = image.supply cursors b := by
  obtain ⟨hin, hout⟩ := setRollbackChain_hashes hone e b
  by_cases hmem : ∃ hash, (b, hash) ∈ cursors
  · obtain ⟨hash, hmem⟩ := hmem
    rw [hin hash hmem, HashImage.supply_of_mem hone hmem]
  · have hnot : ∀ hash, (b, hash) ∉ cursors := fun hash hm => hmem ⟨hash, hm⟩
    rw [hout hnot, HashImage.supply_of_not_mem hnot, h]

omit [ReducerNode R] [ViewNode V] in
/-- The hashes after the rollback of a call. -/
theorem RolledTo.hashes {e e' : SettleEngine R V} {writes : WriteBatch}
    {fork : Option BlockNumber} (h : e.RolledTo e' writes fork)
    (hmax : fork ≠ some BlockNumber.max) (b : BlockNumber) :
    e'.blockHashes[b]? = HashImage.rollback (fun b => e.blockHashes[b]?) fork b := by
  cases fork with
  | none =>
    obtain ⟨rfl, -⟩ := h
    rfl
  | some p =>
    obtain ⟨-, ⟨nodes, rfl⟩, -⟩ := h
    have hp : p ≠ BlockNumber.max := fun heq => hmax (by rw [heq])
    show (OrdMap.keep e.blockHashes fun b => decide (b < p + 1))[b]? = _
    rw [OrdMap.getElem?_keep]
    by_cases hb : p < b
    · have hnot : ¬ b < p + 1 := fun hlt =>
        UInt64.not_le.mpr hb ((BlockNumber.lt_succ_iff hp).mp hlt)
      rw [if_neg (by simpa using hnot)]
      exact (if_pos hb).symm
    · have hlt : b < p + 1 := (BlockNumber.lt_succ_iff hp).mpr (UInt64.not_lt.mp hb)
      rw [if_pos (by simpa using hlt)]
      exact (if_neg hb).symm

omit [ReducerNode R] [ViewNode V] in
theorem RolledTo.marks {e e' : SettleEngine R V} {writes : WriteBatch}
    {fork : Option BlockNumber} (h : e.RolledTo e' writes fork) : e.Marks e' := by
  cases fork with
  | none =>
    obtain ⟨rfl, -⟩ := h
    exact Marks.refl e'
  | some p =>
    obtain ⟨-, ⟨nodes, rfl⟩, -⟩ := h
    exact marks_dropHashes { e with nodes := nodes, latestBlock := some p } (p + 1)

end SettleEngine

/-! ## One call -/

section Call

variable {e e₁ e₂ : SettleEngine R V} {image : HashImage} {w₁ w₂ : WriteBatch}
  {fork : Option BlockNumber} {cursors : List (BlockNumber × String)}

/-- An ingest that leaves finality at the durable block. -/
def Merged (e : SettleEngine R V) (head : BlockNumber) : Prop :=
  e.hasFinalized = true ∧ head = e.finalizedBlock ∧ e.durableThrough head = true

omit [ReducerNode R] [ViewNode V] in
/-- **The record after an ingest** that supplies no cursor below finality, or moves it. -/
theorem Recorded.ingest (h : Recorded e image) (hl : e.Levels)
    (hone : SettleEngine.OneHash cursors) {head : BlockNumber} (hhead : e.finalizedBlock ≤ head)
    (hsound : Merged e head → ∀ c ∈ cursors, e.finalizedBlock ≤ c.1)
    (hr : e.RolledTo e₁ w₁ fork) (hmax : fork ≠ some BlockNumber.max) {nodes : Nodes R V}
    {latest : Option BlockNumber}
    (hclosed : SettleEngine.Closed { e₁ with nodes := nodes, latestBlock := latest } e₂ cursors
      head w₂) :
    Recorded e₂ ((image.rollback fork).supply cursors) := by
  obtain ⟨-, -, -, hdur, hfin, hhas, -⟩ := hr.fields
  have himage : ∀ b, e.finalizedBlock ≤ b → e₁.blockHashes[b]? = image.rollback fork b := by
    intro b hb
    rw [hr.hashes hmax b]
    cases fork with
    | none => exact h.above b hb
    | some p =>
      show (if p < b then none else e.blockHashes[b]?) = if p < b then none else image b
      rw [h.above b hb]
  refine ⟨?_, ?_⟩
  · intro b hb
    rw [hclosed.finalized] at hb
    rw [hclosed.above b hb]
    exact SettleEngine.setRollbackChain_supply hone (himage b (UInt64.le_trans hhead hb))
  · intro b hash hb hsome
    rw [hclosed.finalized] at hb
    rcases hclosed.below b hash hb hsome with hanchor | ⟨hfinal, hsame, hthrough, hchain⟩
    · exact hanchor
    · have hfinal : e₁.hasFinalized = true := hfinal
      have hsame : head = e₁.finalizedBlock := hsame
      have hthrough : e₁.durableThrough head = true := hthrough
      have hmerged : Merged e head := by
        refine ⟨hhas.symm.trans hfinal, hsame.trans hfin, ?_⟩
        rw [SettleEngine.durableThrough, hdur] at hthrough
        exact hthrough
      -- the hash was there before: no cursor is below finality
      have hnot : ∀ hash, (b, hash) ∉ cursors := by
        intro hash' hmem
        have hle := hsound hmerged _ hmem
        rw [← hmerged.2.1] at hle
        exact UInt64.not_le.mpr hb hle
      have hold : e.blockHashes[b]? = some hash := by
        have hout := (SettleEngine.setRollbackChain_hashes hone
          { e₁ with nodes := nodes, latestBlock := latest } b).2 hnot
        have hrolled : e₁.blockHashes[b]? = some hash := hout.symm.trans hchain
        rw [hr.hashes hmax b] at hrolled
        cases fork with
        | none => exact hrolled
        | some p =>
          have hrolled : (if p < b then none else e.blockHashes[b]?) = some hash := hrolled
          split at hrolled
          · cases hrolled
          · exact hrolled
      -- but the durable block is at finality, and the latest one is not below it
      have hbelow : b < e.finalizedBlock := by
        rw [← hmerged.2.1]
        exact hb
      have hdurable : ∀ d, e.durableBlock = some d → b < d := by
        intro d hd
        have hle := hmerged.2.2
        rw [SettleEngine.durableThrough, hd] at hle
        exact lt_of_lt_of_le hb (by simpa using hle)
      obtain ⟨d, hd⟩ : ∃ d, e.durableBlock = some d := by
        have hle := hmerged.2.2
        rw [SettleEngine.durableThrough] at hle
        cases hd : e.durableBlock with
        | none => simp [hd] at hle
        | some d => exact ⟨d, rfl⟩
      rcases h.below b hash hbelow hold with hb' | hb'
      · exact absurd (hdurable b hb') (UInt64.lt_irrefl b)
      · obtain ⟨-, l, hl', hdl⟩ := hl d hd
        rw [hb'] at hl'
        cases hl'
        exact absurd (lt_of_lt_of_le (hdurable d hd) hdl) (UInt64.lt_irrefl b)

omit [ReducerNode R] [ViewNode V] in
/-- **The record after a fork call** that supplies no cursor below finality but that of the
durable block. -/
theorem Recorded.handleFork (h : Recorded e image) (hone : SettleEngine.OneHash cursors)
    {p : BlockNumber} (hr : e.RolledTo e₁ w₁ (some p)) (hmax : p ≠ BlockNumber.max)
    (hsound : ∀ c ∈ cursors, e.finalizedBlock ≤ c.1 ∨ e.durableBlock = some c.1) :
    Recorded (e₁.setRollbackChain cursors) ((image.rollback (some p)).supply cursors) := by
  obtain ⟨-, -, -, hdur, hfin, -, hlatest⟩ := hr.fields
  have hmax' : some p ≠ some BlockNumber.max := fun heq => hmax (Option.some.inj heq)
  obtain ⟨hashes, changes, hset⟩ := e₁.setRollbackChain_marks cursors
  have hfinal : (e₁.setRollbackChain cursors).finalizedBlock = e.finalizedBlock := by
    rw [hset]
    exact hfin
  refine ⟨?_, ?_⟩
  · intro b hb
    rw [hfinal] at hb
    refine SettleEngine.setRollbackChain_supply hone ?_
    rw [hr.hashes hmax' b]
    show (if p < b then none else e.blockHashes[b]?) = if p < b then none else image b
    rw [h.above b hb]
  · intro b hash hb hsome
    rw [hfinal] at hb
    have hanchor : (e₁.setRollbackChain cursors).durableBlock = e.durableBlock := by
      rw [hset]
      exact hdur
    rw [hanchor]
    left
    by_cases hmem : ∃ hash', (b, hash') ∈ cursors
    · obtain ⟨hash', hmem⟩ := hmem
      rcases hsound _ hmem with hle | hd
      · exact absurd hb (UInt64.not_lt.mpr hle)
      · exact hd
    · have hnot : ∀ hash', (b, hash') ∉ cursors := fun hash' hm => hmem ⟨hash', hm⟩
      rw [(SettleEngine.setRollbackChain_hashes hone e₁ b).2 hnot, hr.hashes hmax' b] at hsome
      have hsome : (if p < b then none else e.blockHashes[b]?) = some hash := hsome
      split at hsome
      · cases hsome
      · rcases h.below b hash hb hsome with hd | hlat
        · exact hd
        · -- the target is at or above finality and at or below the latest block
          have ht := hr.1
          have hle : p ≤ b := by
            have := ht.1
            rw [hlat] at this
            exact this
          exact absurd (lt_of_lt_of_le hb ht.2) (UInt64.not_lt.mpr hle)

end Call

/-! ## Storage -/

/-- The operations of a write set before its metadata. -/
def HashFree (w : WriteBatch) : Prop :=
  ∀ op ∈ w, (∀ b hash, op ≠ .putBlockHash b hash) ∧ ∀ b, op ≠ .deleteBlockHash b

omit [ReducerNode R] [ViewNode V] in
/-- The write set of a call stores the record after it. -/
theorem HashSync.commit {e e' : SettleEngine R V} {s : Store} (h : HashSync s e)
    (hm : e.Marks e') {w : WriteBatch} (hw : HashFree w) (stamp : List (String × Datum)) (n : Nat)
    (b : BlockNumber) :
    (s.commit (w ++ metaTail e' stamp ++ [.putMeta metaNextSequence (.number n)])).blockHashes[b]?
      = e'.blockHashes[b]? := by
  have hsync : HashSync (s.commit w) e' := by
    intro b hb
    rw [Store.blockHashes_commit_of_not hw]
    exact h.marks hm b hb
  have hnext : HashFree [.putMeta metaNextSequence (.number n)] := by
    intro op hop
    rw [List.mem_singleton.mp hop]
    exact ⟨by simp, by simp⟩
  rw [Store.commit_append, Store.blockHashes_commit_of_not hnext, Store.commit_append]
  exact metaTail_hashes e' (s.commit w) hsync b

omit [ReducerNode R] [ViewNode V] in
theorem hashFree_rolledTo {e e' : SettleEngine R V} {w : WriteBatch} {fork : Option BlockNumber}
    (h : e.RolledTo e' w fork) : HashFree w := by
  intro op hop
  cases fork with
  | none =>
    rw [h.2] at hop
    cases hop
  | some p =>
    obtain ⟨table, rfl⟩ := h.2.2.2 op hop
    exact ⟨by simp, by simp⟩

omit [ReducerNode R] [ViewNode V] in
theorem hashFree_ingest {e₁ e₂ : SettleEngine R V} {w₁ w₂ : WriteBatch}
    {chain : List (BlockNumber × String)} {head : BlockNumber} (h₁ : HashFree w₁)
    (hclosed : SettleEngine.Closed e₁ e₂ chain head w₂) (e : SettleEngine R V)
    (blocks : List (String × BlockNumber × List Row)) :
    HashFree (w₁ ++ blocks.flatMap e.putRows ++ w₂) := by
  intro op hop
  simp only [List.mem_append] at hop
  rcases hop with (hop | hop) | hop
  · exact h₁ op hop
  · obtain ⟨table, block, d, rfl⟩ := putRows_mem hop
    exact ⟨by simp, by simp⟩
  · rcases hclosed.writes op hop with hnode | ⟨table, fromBlock, toBlock, d, rfl, -⟩
    · refine ⟨fun b hash heq => ?_, fun b heq => ?_⟩
      · rw [heq] at hnode
        cases hnode
      · rw [heq] at hnode
        cases hnode
    · exact ⟨by simp, by simp⟩

/-! ## Runs -/

/-- No call supplies two hashes for one block. -/
def OneHashCall : Call → Prop
  | .ingest _ _ _ chain head => SettleEngine.OneHash (Db.cursors (chain ++ [head]))
  | .handleFork _ _ chain => SettleEngine.OneHash (Db.cursors chain)
  | .ack .. => True

/-- A call that keeps the anchors below finality as they should be: an ingest that leaves finality
at the durable block has no cursor below it, and a fork call none but that of the durable block. A
fork call has no match at `u64::MAX`, where the block after it wraps. -/
def SoundCall (e : SettleEngine R V) : Call → Prop
  | .ingest _ _ _ chain head =>
    Merged e head.number → ∀ c ∈ Db.cursors (chain ++ [head]), e.finalizedBlock ≤ c.1
  | .handleFork _ _ chain => ∀ c ∈ Db.cursors chain,
      (e.finalizedBlock ≤ c.1 ∨ e.durableBlock = some c.1) ∧
      (e.Matches c → c.1 ≠ BlockNumber.max)
  | .ack .. => True

/-- The image after a successful call; none for an ack, and for a call that is refused. -/
def World.supplies (x : World (SettleEngine R V)) (image : HashImage) : Call → Option HashImage
  | .ingest commitFault syncFault data chain head =>
    match (x.db.ingest x.store commitFault syncFault data chain head).2.2,
        x.db.detectFork chain head with
    | .ok _, .ok fork => some ((image.rollback fork).supply (Db.cursors (chain ++ [head])))
    | _, _ => none
  | .handleFork commitFault syncFault chain =>
    match (x.db.handleFork x.store commitFault syncFault chain).2.2 with
    | .ok (cursor, _) => some ((image.rollback (some cursor.number)).supply (Db.cursors chain))
    | .error _ => none
  | .ack .. => none

/-- A run with the image of its hashes, where no call supplies two hashes for one block and each
call meets the condition `sound`. -/
inductive HashRun (sound : SettleEngine R V → Call → Prop) (x₀ : World (SettleEngine R V))
    (image₀ : HashImage) : World (SettleEngine R V) → HashImage → Prop
  | start : HashRun sound x₀ image₀ x₀ image₀
  | call {x : World (SettleEngine R V)} {image : HashImage} (c : Call)
      (run : HashRun sound x₀ image₀ x image) (one : OneHashCall c)
      (meets : sound x.db.engine c) :
      HashRun sound x₀ image₀ (x.call c) ((x.supplies image c).getD image)

theorem HashRun.steps {sound : SettleEngine R V → Call → Prop} {x₀ x : World (SettleEngine R V)}
    {image₀ image : HashImage} (h : HashRun sound x₀ image₀ x image) :
    Relation.ReflTransGen DbStep x₀ x := by
  induction h with
  | start => exact .refl
  | call c _ _ _ ih => exact ih.tail (World.call_step _ c)

/-- What holds of a healthy engine along a run. -/
structure HashInv (e : SettleEngine R V) (s : Store) (image : HashImage) : Prop where
  levels : e.Levels
  recorded : Recorded e image
  sync : HashSync s e

omit [ReducerNode R] [ViewNode V] in
theorem HashInv.congr {e e' : SettleEngine R V} {s : Store} {image : HashImage}
    (h : HashInv e s image) (hl : e'.Levels) (hf : e'.finalizedBlock = e.finalizedBlock)
    (hd : e'.durableBlock = e.durableBlock) (hlat : e'.latestBlock = e.latestBlock)
    (hh : e'.blockHashes = e.blockHashes) (hc : e'.hashChanges = e.hashChanges) :
    HashInv e' s image := by
  refine ⟨hl, ⟨?_, ?_⟩, ?_⟩
  · rw [hf, hh]
    exact h.recorded.above
  · rw [hf, hh, hd, hlat]
    exact h.recorded.below
  · intro b hb
    rw [hc] at hb
    rw [hh]
    exact h.sync b hb

omit [ReducerNode R] [ViewNode V] in
/-- The engine after the write set of a call. -/
theorem HashInv.done {e : SettleEngine R V} {s : Store} {image : HashImage} (n : Nat)
    (hl : e.Levels) (hr : Recorded e image)
    (hs : ∀ b : BlockNumber, s.blockHashes[b]? = e.blockHashes[b]?) :
    HashInv { e with hashChanges := ∅, committedCheckpoint := n } s image :=
  ⟨hl, ⟨hr.above, hr.below⟩, fun b _ => hs b⟩

theorem Db.detectFork_ne_max {db : Db (SettleEngine R V)} {chain : List BlockCursor}
    {head : BlockCursor} {fork : Option BlockNumber} (h : db.detectFork chain head = .ok fork) :
    fork ≠ some BlockNumber.max := by
  rintro rfl
  cases hl : db.engine.latestBlock with
  | none =>
    unfold Db.detectFork at h
    have hl' : Engine.latestBlockIfAny db.engine = none := hl
    rw [hl'] at h
    cases h
  | some latest =>
    rw [Db.detectFork_eq hl] at h
    split at h
    · cases h
    · dsimp only at h
      split at h
      · cases h
      · simp only [Except.ok.injEq] at h
        split at h
        · next hlt =>
          rw [Option.some.inj h] at hlt
          exact absurd hlt (UInt64.not_lt.mpr (BlockNumber.le_max latest))
        · cases h

/-- **One call** of a run, with the image that it leaves. After a successful call storage with the
queued write sets has the record of the engine. -/
theorem HashInv.call {x₀ x : World (SettleEngine R V)} {image : HashImage}
    (hi : x.db.poisoned = none →
      HashInv x.db.engine (x₀.store.commit x.ledger.calls.flatten) image)
    {c : Call} (hone : OneHashCall c) (hsound : SoundCall x.db.engine c) :
    (x.supplies image c = none ∧ ((x.call c).db.poisoned = none →
      HashInv (x.call c).db.engine (x₀.store.commit (x.call c).ledger.calls.flatten) image)) ∨
    ∃ image', x.supplies image c = some image' ∧
      HashInv (x.call c).db.engine (x₀.store.commit (x.call c).ledger.calls.flatten) image' ∧
      (x.call c).db.engine.hashChanges = ∅ := by
  have hrefused : ∀ x', x.Refused x' → x'.db.poisoned = none →
      HashInv x'.db.engine (x₀.store.commit x'.ledger.calls.flatten) image := by
    intro x' hr hp
    obtain ⟨hp₀, nodes, n, he⟩ := hr.engine hp
    rw [he, hr.ledger]
    exact (hi hp₀).congr (hi hp₀).levels rfl rfl rfl rfl rfl
  have hstore : ∀ x' db₁ w, x.Accepted x' db₁ w → x₀.store.commit x'.ledger.calls.flatten
      = (x₀.store.commit x.ledger.calls.flatten).commit w := by
    intro x' db₁ w ha
    rw [ha.ledger, List.flatten_append, Store.commit_append, List.flatten_singleton]
  cases c with
  | ack faults syncFault sequence =>
    exact Or.inl ⟨rfl, hrefused _ (x.ack_refused faults syncFault sequence)⟩
  | ingest commitFault syncFault data chain head =>
    rcases x.ingest_cases (fun hp => (hi hp).levels) commitFault syncFault data chain head with
      ⟨⟨err, herr⟩, hr⟩ | ⟨db₁, w, batch, hprep, hok, ha⟩
    · left
      refine ⟨?_, hrefused _ hr⟩
      rw [World.supplies, herr]
    · right
      obtain ⟨hl, hrec, hsync⟩ := hi ha.poisoned
      obtain ⟨fork, tables, e₁, w₁, nodes, e₂, w₂, n, hhead, hfork, -, hrolled, -, hclosed, he, -,
        hw⟩ := Db.prepareIngest_steps hl hprep
      obtain ⟨m, hm⟩ := ha.engine
      rw [he] at hm
      have hadv := SettleEngine.advanced_ingest hl hhead hrolled hclosed
      have hrec' := hrec.ingest hl hone hhead hsound hrolled (Db.detectFork_ne_max hfork) hclosed
      have hmarks := hrolled.marks.trans hclosed.marks
      have hfree := hashFree_ingest (hashFree_rolledTo hrolled) hclosed e₁ (Db.inputBlocks tables)
      refine ⟨(image.rollback fork).supply (Db.cursors (chain ++ [head])), ?_, ?_, ?_⟩
      · rw [World.supplies, hok, hfork]
      · show HashInv (x.ingest _ _ _ _ _).db.engine (x₀.store.commit
          (x.ingest _ _ _ _ _).ledger.calls.flatten) _
        rw [hm, hstore _ _ _ ha, hw]
        exact HashInv.done (e := e₂) m hadv.levels hrec' (hsync.commit hmarks hfree _ n)
      · show (x.ingest _ _ _ _ _).db.engine.hashChanges = ∅
        rw [hm]
  | handleFork commitFault syncFault chain =>
    rcases x.handleFork_cases commitFault syncFault chain with
      ⟨⟨err, herr⟩, hr⟩ | ⟨db₁, cursor, w, batch, hprep, hok, ha⟩
    · left
      refine ⟨?_, hrefused _ hr⟩
      rw [World.supplies, herr]
    · right
      obtain ⟨hl, hrec, hsync⟩ := hi ha.poisoned
      obtain ⟨e₁, w₁, n, hcursor, hrolled, he, -, hw⟩ := Db.prepareFork_steps hprep
      obtain ⟨m, hm⟩ := ha.engine
      rw [he] at hm
      -- the supplied cursors in descending order are the supplied cursors
      have hperm : (Db.sortDesc (Db.cursors chain)).Perm (Db.cursors chain) :=
        List.mergeSort_perm _ _
      have hone' : SettleEngine.OneHash (Db.sortDesc (Db.cursors chain)) := fun b h h' hm hm' =>
        hone b h h' (hperm.mem_iff.mp hm) (hperm.mem_iff.mp hm')
      obtain ⟨hmem, hmatch, -⟩ := SettleEngine.resolve_some hcursor
      have hmax := (hsound _ hmem).2 hmatch
      have hrec' := hrec.handleFork hone' hrolled hmax fun c hc =>
        (hsound c (hperm.mem_iff.mp hc)).1
      have hadv : x.db.engine.Advanced (e₁.setRollbackChain (Db.sortDesc (Db.cursors chain))) :=
        SettleEngine.advanced_fork hl hrolled
      have hmarks := hrolled.marks.trans (e₁.marks_setRollbackChain (Db.sortDesc (Db.cursors chain)))
      refine ⟨(image.rollback (some cursor.number)).supply (Db.cursors chain), ?_, ?_, ?_⟩
      · rw [World.supplies, hok]
      · show HashInv (x.handleFork _ _ _).db.engine (x₀.store.commit
          (x.handleFork _ _ _).ledger.calls.flatten) _
        rw [hm, hstore _ _ _ ha, hw, HashImage.supply_perm hone hperm]
        exact HashInv.done (e := e₁.setRollbackChain (Db.sortDesc (Db.cursors chain))) m
          hadv.levels hrec' (hsync.commit hmarks (hashFree_rolledTo hrolled) _ n)
      · show (x.handleFork _ _ _).db.engine.hashChanges = ∅
        rw [hm]

/-- An opened instance whose record is that of storage, but for marked blocks, and of an image. -/
structure HashStart (x₀ : World (SettleEngine R V)) (image₀ : HashImage) : Prop where
  opened : x₀.Opened
  record : HashInv x₀.db.engine x₀.store image₀

theorem HashInv.of_run {x₀ x : World (SettleEngine R V)} {image₀ image : HashImage}
    (hs : HashStart x₀ image₀) (hr : HashRun SoundCall x₀ image₀ x image) :
    x.db.poisoned = none →
      HashInv x.db.engine (x₀.store.commit x.ledger.calls.flatten) image := by
  induction hr with
  | start =>
    intro _
    have hcalls : x₀.ledger.calls = [] := by rw [hs.opened.ledger]; rfl
    rw [hcalls]
    exact hs.record
  | call c _ hone hsound ih =>
    intro hp
    rcases HashInv.call ih hone hsound with ⟨hnone, hi⟩ | ⟨image', hsome, hi, -⟩
    · rw [hnone]
      exact hi hp
    · rw [hsome]
      exact hi

/-- **The record of hashes** as it should be: in storage with the queued write sets, from finality
up and below it. -/
structure HashRecord (x : World (SettleEngine R V)) (image : HashImage) : Prop where
  stored : ∀ b : BlockNumber,
    (x.db.settled x.store).blockHashes[b]? = x.db.engine.blockHashes[b]?
  recorded : Recorded x.db.engine image

omit [ReducerNode R] [ViewNode V] in
/-- The content of storage with the queued write sets. -/
theorem settled_content_of_run {x₀ x : World (SettleEngine R V)} (hw : WorldInv x₀ x) :
    (x.db.settled x.store).content = (x₀.store.commit x.ledger.calls.flatten).content := by
  have hdata : Db.DataOnly x.ledger.calls.flatten := by
    intro op hop
    obtain ⟨w, hmem, hop⟩ := List.mem_flatten.mp hop
    exact hw.data w hmem op hop
  rw [Store.content_commit_of_not hdata, Db.settled, ← List.flatMap_def,
    Queued.content_all hw.queue, hw.content, ← Store.commit_append, ← List.flatten_append,
    Ledger.calls]

/-- **In every run whose calls keep the anchors, the record of hashes is as it should be after
every successful call.** -/
theorem hash_record_of_sound {x₀ x : World (SettleEngine R V)} {image₀ image image' : HashImage}
    (hs : HashStart x₀ image₀) (hr : HashRun SoundCall x₀ image₀ x image) {c : Call} (hone : OneHashCall c)
    (hsound : SoundCall x.db.engine c) (hok : x.supplies image c = some image') :
    HashRecord (x.call c) image' := by
  have hw := WorldInv.of_run ⟨hs.opened, hr.steps.tail (x.call_step c)⟩
  rcases HashInv.call (HashInv.of_run hs hr) hone hsound with ⟨hnone, -⟩ | ⟨image'', hsome, hi, hc⟩
  · rw [hnone] at hok
    cases hok
  · rw [hok] at hsome
    cases hsome
    refine ⟨?_, hi.recorded⟩
    intro b
    have hcontent : ((x.call c).db.settled (x.call c).store).content.blockHashes
        = (x₀.store.commit (x.call c).ledger.calls.flatten).content.blockHashes := by
      rw [settled_content_of_run hw]
    have hsame : ((x.call c).db.settled (x.call c).store).blockHashes
        = (x₀.store.commit (x.call c).ledger.calls.flatten).blockHashes := hcontent
    rw [hsame]
    refine hi.sync b ?_
    rw [hc]
    simp

/-- An instance opened on an empty store starts without hashes. -/
theorem hashStart_of_open [NodeBuild R V] [SerdeJson] {schema : Schema} {margin : UInt64}
    {x : World (SettleEngine R V)} (h : OpenedOn schema margin x) (hempty : x.store = {}) :
    HashStart x fun _ => none := by
  refine ⟨h.opened, ?_⟩
  obtain ⟨config, db, hstart, hdb⟩ := h.start
  obtain ⟨e, hnew, hrestore, -⟩ := start_steps hstart
  obtain ⟨-, -, hl, hd, hf, hc⟩ := SettleEngine.new_fields hnew
  rw [hempty] at hrestore
  have hmeta : ∀ key, Db.metaBlock {} key = .ok none := by
    intro key
    have hnone : ({} : Store).metas[key]? = none := ExtTreeMap.getElem?_empty
    unfold Db.metaBlock metaU64
    rw [hnone]
    rfl
  obtain ⟨nodes, he⟩ : ∃ nodes, db.engine
      = { e with blockHashes := ({} : Store).blockHashes, nodes := nodes } := by
    unfold Db.restoreEngine at hrestore
    rw [hmeta, hmeta, hmeta] at hrestore
    simp only [bind, Except.bind, Option.map_none, Option.getD_none] at hrestore
    split at hrestore
    · split at hrestore
      · cases hrestore
      · next e' hreplay =>
        obtain ⟨nodes, rfl⟩ := SettleEngine.replayUnfinalized_fields hreplay
        exact ⟨nodes, (Except.ok.inj hrestore).symm⟩
    · exact ⟨e.nodes, (Except.ok.inj hrestore).symm⟩
  have hnone : ∀ b : BlockNumber, ({} : Store).blockHashes[b]? = none := fun b =>
    ExtTreeMap.getElem?_empty
  rw [hdb, he, hempty]
  refine ⟨?_, ⟨fun b _ => hnone b, ?_⟩, fun b _ => rfl⟩
  · intro d hdur
    have hdur : e.durableBlock = some d := hdur
    rw [hd] at hdur
    cases hdur
  · intro b hash _ hsome
    have hsome : ({} : Store).blockHashes[b]? = some hash := hsome
    rw [hnone b] at hsome
    cases hsome

/-! ### A heartbeat with a cursor below finality -/

/-- A trade in block 5 with finality at 3. -/
def finalTrade : Call := .ingest none none (tradeIn 5 7) [⟨5, "e"⟩] ⟨3, "c"⟩

/-- An ingest without rows that leaves finality at 3 and supplies block 1. -/
def oldCursorHeartbeat : Call := .ingest none none (.rows ∅) [⟨1, "x"⟩] ⟨3, "c"⟩

theorem tradesWorld_hashStart : HashStart (tradesWorld false) fun _ => none := by
  have hnone : ∀ b : BlockNumber, (tradesWorld false).db.engine.blockHashes[b]? = none := fun b =>
    ExtTreeMap.getElem?_empty
  refine ⟨tradesWorld_opened false, ?_, ⟨fun b _ => hnone b, ?_⟩, ?_⟩
  · intro d hd
    cases hd
  · intro b hash _ hsome
    rw [hnone b] at hsome
    cases hsome
  · intro b _
    rw [hnone b]
    exact ExtTreeMap.getElem?_empty

theorem oneHash_pair {c c' : BlockCursor} (h : c.number ≠ c'.number) :
    SettleEngine.OneHash (Db.cursors ([c] ++ [c'])) := by
  intro b hash hash' hmem hmem'
  simp only [Db.cursors, List.map_cons, List.map_nil, List.cons_append, List.nil_append,
    List.mem_cons, Prod.mk.injEq, List.not_mem_nil, or_false] at hmem hmem'
  rcases hmem with ⟨rfl, rfl⟩ | ⟨rfl, rfl⟩ <;> rcases hmem' with ⟨hb, rfl⟩ | ⟨hb, rfl⟩
  · rfl
  · exact absurd hb h
  · exact absurd hb.symm h
  · rfl

/-- The heartbeat leaves the hash of block 1, below finality at 3, and block 1 is neither the
durable nor the latest block. -/
theorem heartbeat_leaves_old_hash :
    ¬ ∀ (x₀ x : World (SettleEngine Empty Empty)) (image₀ image image' : HashImage) (c : Call),
      HashStart x₀ image₀ → HashRun (fun _ _ => True) x₀ image₀ x image → OneHashCall c →
        x.supplies image c = some image' → HashRecord (x.call c) image' := by
  intro hclaim
  have hone₁ : OneHashCall finalTrade := oneHash_pair (by decide)
  have hone₂ : OneHashCall oldCursorHeartbeat := oneHash_pair (by decide)
  have hrun : HashRun (fun _ _ => True) (tradesWorld false) (fun _ => none)
      ((tradesWorld false).call finalTrade) _ := .call finalTrade .start hone₁ trivial
  have hok : (((tradesWorld false).call finalTrade).supplies
      (((tradesWorld false).supplies (fun _ => none) finalTrade).getD fun _ => none)
      oldCursorHeartbeat).isSome = true := by decide +kernel
  obtain ⟨image', himage⟩ := Option.isSome_iff_exists.mp hok
  have hrec := hclaim _ _ _ _ image' oldCursorHeartbeat tradesWorld_hashStart hrun hone₂ himage
  have hhash : (((tradesWorld false).call finalTrade).call
      oldCursorHeartbeat).db.engine.blockHashes[(1 : BlockNumber)]? = some "x" := by decide +kernel
  have hbelow : (1 : BlockNumber) < (((tradesWorld false).call finalTrade).call
      oldCursorHeartbeat).db.engine.finalizedBlock := by decide +kernel
  rcases hrec.recorded.below 1 "x" hbelow hhash with hd | hl
  · exact absurd hd (by decide +kernel)
  · exact absurd hl (by decide +kernel)

/-- The record after the trade. -/
theorem hash_record_of_trade : ∃ image', (tradesWorld false).supplies (fun _ => none) finalTrade
    = some image' ∧ HashRecord ((tradesWorld false).call finalTrade) image' := by
  have hok : ((tradesWorld false).supplies (fun _ => none) finalTrade).isSome = true := by
    decide +kernel
  obtain ⟨image', himage⟩ := Option.isSome_iff_exists.mp hok
  refine ⟨image', himage, hash_record_of_sound tradesWorld_hashStart .start
    (oneHash_pair (by decide)) ?_ himage⟩
  intro hmerged
  exact absurd hmerged.1 (by decide +kernel)

end Settle
