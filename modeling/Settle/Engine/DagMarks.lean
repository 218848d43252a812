import Settle.Engine.DagRollback

/-!
# What each step of a call does to the watermarks

The steps of an ingest and of a fork call, with the nodes of the pipeline left open: each lemma
gives the engine after a step as the engine before it with the fields that the step sets. The
blocks, the watermarks and the hashes are in these fields; the states of the nodes are not.
-/

namespace Settle

open Std

variable {R V : Type} [ReducerNode R] [ViewNode V]

/-! ## Blocks -/

theorem BlockNumber.max_eq (a b : BlockNumber) : Max.max a b = if a ≤ b then b else a := rfl

theorem BlockNumber.le_max_left (a b : BlockNumber) : a ≤ Max.max a b := by
  rw [max_eq]
  split
  · assumption
  · exact UInt64.le_refl a

theorem BlockNumber.le_max_right (a b : BlockNumber) : b ≤ Max.max a b := by
  rw [max_eq]
  split
  · exact UInt64.le_refl b
  · next h => exact UInt64.le_of_lt (UInt64.not_le.mp h)

theorem BlockNumber.min_eq (a b : BlockNumber) : Min.min a b = if a ≤ b then a else b := rfl

theorem BlockNumber.min_le (a b : BlockNumber) : Min.min a b ≤ a ∧ Min.min a b ≤ b := by
  rw [min_eq]
  split
  · next h => exact ⟨UInt64.le_refl a, h⟩
  · next h => exact ⟨UInt64.le_of_lt (UInt64.not_le.mp h), UInt64.le_refl b⟩

namespace SettleEngine

/-! ## Rows -/

/-- The latest block after the rows of a block. -/
def bumpLatest (latest : Option BlockNumber) (block : BlockNumber) : Option BlockNumber :=
  some (match latest with
    | some latest => max latest block
    | none => block)

/-- The durable block after the rows of a block, whose state is not on disk. -/
def lowerDurable (durable : Option BlockNumber) (block : BlockNumber) : Option BlockNumber :=
  match durable with
  | some d => if block ≤ d then (if block = 0 then none else some (block - 1)) else some d
  | none => none

/-- A block above the durable one leaves it. -/
theorem lowerDurable_of_lt {durable : Option BlockNumber} {block : BlockNumber}
    (h : ∀ d, durable = some d → d < block) : lowerDurable durable block = durable := by
  cases durable with
  | none => rfl
  | some d => rw [lowerDurable, if_neg (UInt64.not_le.mpr (h d rfl))]

/-- The write of the rows of a block. -/
def putRows (e : SettleEngine R V) : String × BlockNumber × List Row → WriteBatch
  | (table, block, rows) =>
    match e.rawTables[table]? with
    | some raw => if rows.isEmpty then [] else [.putRawRows raw.name block (.rows rows)]
    | none => []

/-- The engine after the rows of a block, and also the engine that a failed block leaves. -/
theorem processBatchDeferred_cases (e : SettleEngine R V) (store : Store) (table : String)
    (block : BlockNumber) (rows : List Row) :
    (∃ nodes writes err, e.processBatchDeferred store table block rows
      = ({ e with nodes := nodes }, writes, .error err)) ∨
    ∃ nodes changes, e.rawTables.contains table ∧
      e.processBatchDeferred store table block rows
        = ({ e with
              nodes := nodes
              latestBlock := bumpLatest e.latestBlock block
              durableBlock := lowerDurable e.durableBlock block },
            e.putRows (table, block, rows), .ok changes) := by
  unfold processBatchDeferred
  split
  · exact Or.inl ⟨e.nodes, [], _, rfl⟩
  · next raw hraw =>
    dsimp only
    split
    · next nodes err _ => exact Or.inl ⟨nodes, _, err, rfl⟩
    · next nodes _ =>
      refine Or.inr ⟨nodes, (raw.ingestToBatch block rows (e.virtualTables.contains table)).2, ?_, ?_⟩
      · rw [ExtTreeMap.contains_eq_isSome_getElem?, hraw]
        rfl
      · have hputs : (raw.ingestToBatch block rows (e.virtualTables.contains table)).1
            = e.putRows (table, block, rows) := by
          rw [putRows, hraw, RawTableEngine.ingestToBatch]
          split <;> simp_all
        rw [hputs]
        rfl

/-- The loops over the tables and their blocks, where every block is above `floor`: the latest
block does not go below `floor`, and the durable block stays. -/
theorem processTables_marks {floor : Option BlockNumber} (store : Store)
    {blocks : List (String × BlockNumber × List Row)}
    (habove : ∀ t ∈ blocks, ∀ f, floor = some f → f < t.2.1) (e : SettleEngine R V)
    (hd : ∀ d, e.durableBlock = some d → ∃ f, floor = some f ∧ d ≤ f)
    {e' : SettleEngine R V} {writes : WriteBatch} {result : Except Error (List ChangeRecord)}
    (h : Db.processTables store blocks e = (e', writes, result)) :
    ∃ nodes done rest, blocks = done ++ rest ∧
      e' = { e with
        nodes := nodes
        latestBlock := done.foldl (fun l t => bumpLatest l t.2.1) e.latestBlock } ∧
      (∀ changes, result = .ok changes → rest = [] ∧ writes = blocks.flatMap e.putRows ∧
        ∀ t ∈ blocks, e.rawTables.contains t.1) := by
  induction blocks generalizing e e' writes result with
  | nil =>
    rw [Db.processTables] at h
    cases h
    exact ⟨e.nodes, [], [], rfl, rfl, fun _ _ => ⟨rfl, rfl, by simp⟩⟩
  | cons t blocks ih =>
    obtain ⟨table, block, rows⟩ := t
    have hblock : ∀ d, e.durableBlock = some d → d < block := by
      intro d hdur
      obtain ⟨f, hf, hle⟩ := hd d hdur
      exact lt_of_le_of_lt hle (habove (table, block, rows) (by simp) f hf)
    rw [Db.processTables] at h
    rcases e.processBatchDeferred_cases store table block rows with
      ⟨nodes, w, err, hstep⟩ | ⟨nodes, changes, htable, hstep⟩
    · have hstep' : Engine.processBatchDeferred e store table block rows
          = ({ e with nodes := nodes }, w, .error err) := hstep
      rw [hstep'] at h
      cases h
      refine ⟨nodes, [], (table, block, rows) :: blocks, rfl, rfl, ?_⟩
      intro changes hok
      cases hok
    · have hstep' : Engine.processBatchDeferred e store table block rows = _ := hstep
      rw [hstep', lowerDurable_of_lt hblock] at h
      dsimp only at h
      cases hrest : Db.processTables store blocks
          { e with nodes := nodes, latestBlock := bumpLatest e.latestBlock block } with
      | mk e₂ rest₂ =>
        obtain ⟨w₂, r₂⟩ := rest₂
        obtain ⟨nodes', done, rest, hsplit, he₂, hok⟩ := ih
          (fun t ht f hf => habove t (List.mem_cons_of_mem _ ht) f hf)
          { e with nodes := nodes, latestBlock := bumpLatest e.latestBlock block } hd hrest
        have hrest' : Db.processTables store blocks
            { e with nodes := nodes, latestBlock := bumpLatest e.latestBlock block,
                     durableBlock := e.durableBlock } = (e₂, w₂, r₂) := hrest
        rw [hrest'] at h
        refine ⟨nodes', (table, block, rows) :: done, rest, by rw [hsplit]; rfl, ?_, ?_⟩
        · cases r₂ with
          | error err =>
            cases h
            rw [he₂]
            rfl
          | ok changes' =>
            cases h
            rw [he₂]
            rfl
        · intro changes' hr
          cases r₂ with
          | error err =>
            cases h
            cases hr
          | ok changes₂ =>
            cases h
            obtain ⟨hnil, hw, htables⟩ := hok changes₂ rfl
            refine ⟨hnil, ?_, ?_⟩
            · rw [hw, List.flatMap_cons]
              rfl
            · intro t ht
              rcases List.mem_cons.mp ht with rfl | ht
              · exact htable
              · exact htables t ht

/-- Blocks only raise the latest one. -/
theorem le_foldl_bumpLatest (blocks : List (String × BlockNumber × List Row)) (l : BlockNumber) :
    ∃ l', blocks.foldl (fun l t => bumpLatest l t.2.1) (some l) = some l' ∧ l ≤ l' := by
  induction blocks generalizing l with
  | nil => exact ⟨l, rfl, le_refl l⟩
  | cons t blocks ih =>
    obtain ⟨l', hl', hle⟩ := ih (max l t.2.1)
    exact ⟨l', hl', UInt64.le_trans (BlockNumber.le_max_left l t.2.1) hle⟩

/-! ## Rollbacks -/

/-- The engine after a rollback, and its writes. -/
theorem rollbackToBatch_marks {e e' : SettleEngine R V} {store : Store} {pending : List WriteBatch}
    {p : BlockNumber} (ht : e.Target p) {writes : WriteBatch} {changes : List ChangeRecord}
    (h : e.rollbackToBatch store pending p = (e', writes, .ok changes)) :
    (∃ nodes, e' = dropHashes { e with nodes := nodes, latestBlock := some p } (p + 1)) ∧
    e.DeletesAbove writes p ∧ ∀ op ∈ writes, ∃ table, op = .deleteRawRowsAfter table p := by
  have hdeletes := (rollbackToBatch_spec ht h).2.2
  rw [rollbackToBatch, checkRollbackTarget_ok ht] at h
  dsimp only at h
  rw [if_neg (UInt64.not_lt.mpr ht.1), unwindTo] at h
  have hwrites := e.unwindNodes_writes store pending p e.pipeline.reverse e.nodes
  cases hu : e.unwindNodes store pending p e.pipeline.reverse e.nodes with
  | mk nodes rest =>
    obtain ⟨w, result⟩ := rest
    rw [hu] at h hwrites
    cases result with
    | error err => cases h
    | ok cs =>
      cases h
      exact ⟨⟨nodes, rfl⟩, hdeletes, hwrites⟩

/-- The undo of a failed ingest leaves the engine as the ingest found it, but for the nodes. -/
theorem undoIngest_marks {e : SettleEngine R V} {nodes : Nodes R V}
    {blocks : List (String × BlockNumber × List Row)} {store : Store}
    {pending : List WriteBatch} {e' : SettleEngine R V}
    (h : SettleEngine.undoIngest
      { e with
        nodes := nodes
        latestBlock := blocks.foldl (fun l t => bumpLatest l t.2.1) e.latestBlock }
      store pending e.latestBlock = (e', .ok ())) :
    ∃ nodes', e' = { e with nodes := nodes' } := by
  unfold undoIngest discardChanges at h
  cases hl : e.latestBlock with
  | none =>
    simp only [hl] at h
    split at h
    · cases h
    · next nodes' _ =>
      cases h
      refine ⟨nodes', ?_⟩
      rw [← hl]
  | some l =>
    obtain ⟨l', hl', hle⟩ := le_foldl_bumpLatest blocks l
    simp only [hl, hl', Option.getD_some] at h
    rw [if_neg (UInt64.not_lt.mpr hle), unwindTo] at h
    split at h
    · next heq =>
      split at heq <;> cases heq
      cases h
    · next heq =>
      split at heq
      · cases heq
      · next nodes' _ _ _ =>
        cases heq
        cases h
        refine ⟨nodes', ?_⟩
        rw [← hl]

/-! ## Finality and checkpoints -/

/-- The blocks whose hash is not marked as changed. -/
def Marks (e e' : SettleEngine R V) : Prop :=
  ∀ b : BlockNumber, b ∉ e'.hashChanges →
    b ∉ e.hashChanges ∧ e'.blockHashes[b]? = e.blockHashes[b]?

omit [ReducerNode R] [ViewNode V] in
theorem Marks.refl (e : SettleEngine R V) : e.Marks e := fun _ hb => ⟨hb, rfl⟩

omit [ReducerNode R] [ViewNode V] in
theorem Marks.trans {e₁ e₂ e₃ : SettleEngine R V} (h : e₁.Marks e₂) (h' : e₂.Marks e₃) :
    e₁.Marks e₃ := fun b hb =>
  ⟨(h b (h' b hb).1).1, (h' b hb).2.trans (h b (h' b hb).1).2⟩

omit [ReducerNode R] [ViewNode V] in
/-- A step that keeps some of the hashes marks the others. -/
theorem marks_of_kept {e e' : SettleEngine R V} {kept : BlockNumber → Bool}
    (hh : e'.blockHashes = OrdMap.keep e.blockHashes kept)
    (hc : e'.hashChanges = ((e.blockHashes.toList.map Prod.fst).filter (!kept ·)).foldl
      (fun changes b => changes.insert b) e.hashChanges) : e.Marks e' := by
  intro b hb
  rw [hc, OrdMap.mem_foldl_insert, not_or] at hb
  refine ⟨hb.2, ?_⟩
  rw [hh, OrdMap.getElem?_keep]
  split
  · rfl
  · next hk =>
    cases hv : e.blockHashes[b]? with
    | none => rfl
    | some v =>
      refine absurd ?_ hb.1
      rw [List.mem_filter, List.mem_map]
      exact ⟨⟨(b, v), ExtTreeMap.mem_toList_iff_getElem?_eq_some.mpr hv, rfl⟩, by simp [hk]⟩

omit [ReducerNode R] [ViewNode V] in
theorem marks_dropHashes (e : SettleEngine R V) (block : BlockNumber) :
    e.Marks (e.dropHashes block) := by
  refine marks_of_kept rfl ?_
  show List.foldl _ _ _ = List.foldl _ _ _
  congr 1
  refine List.filter_congr fun b _ => ?_
  by_cases hb : b < block
  · simp [hb]
  · simp [hb, UInt64.not_lt.mp hb]

omit [ReducerNode R] [ViewNode V] in
theorem marks_pruneBlockHashes (e : SettleEngine R V) : e.Marks e.pruneBlockHashes :=
  marks_of_kept rfl rfl

omit [ReducerNode R] [ViewNode V] in
theorem marks_setRollbackChain (e : SettleEngine R V) (chain : List (BlockNumber × String)) :
    e.Marks (e.setRollbackChain chain) := by
  induction chain generalizing e with
  | nil => exact Marks.refl e
  | cons c chain ih =>
    have hstep : e.setRollbackChain (c :: chain) = setRollbackChain
        (if e.blockHashes[c.1]? = some c.2 then e
        else { e with
          blockHashes := e.blockHashes.insert c.1 c.2
          hashChanges := e.hashChanges.insert c.1 }) chain := rfl
    rw [hstep]
    split
    · exact ih e
    · refine Marks.trans ?_ (ih _)
      intro b hb
      rw [ExtTreeSet.mem_insert, not_or] at hb
      refine ⟨hb.2, ?_⟩
      rw [ExtTreeMap.getElem?_insert, if_neg]
      exact fun heq => hb.1 (by simpa using heq)

/-- Finality moves to `block`, or it is there and the durable state too. -/
theorem advanceFinality_marks (e : SettleEngine R V) (block : BlockNumber) :
    (e.hasFinalized = true ∧ block = e.finalizedBlock ∧ e.durableThrough block ∧
      e.advanceFinality block = e) ∨
    ∃ nodes, e.advanceFinality block = pruneBlockHashes { e with
      nodes := nodes, nodesFinalAt := none, finalizedBlock := block, hasFinalized := true } := by
  unfold advanceFinality
  split
  · next h =>
    rw [Bool.and_eq_true, Bool.and_eq_true, beq_iff_eq] at h
    exact Or.inl ⟨h.1.1, h.1.2, h.2, rfl⟩
  · exact Or.inr ⟨_, rfl⟩

omit [ReducerNode R] [ViewNode V] in
/-- The deletes of a purge are at or below the durable block less the margin. -/
theorem purgeRawRows_marks (e : SettleEngine R V) :
    (∃ q, e.purgeRawRows.1 = { e with rawPurgedThrough := q }) ∧
    ∀ op ∈ e.purgeRawRows.2, ∃ table fromBlock toBlock d,
      op = .deleteRawRows table fromBlock toBlock ∧ e.durableBlock = some d ∧
        toBlock.toNat + e.rawRetentionBlocks.toNat = d.toNat := by
  unfold purgeRawRows
  split
  · exact ⟨⟨e.rawPurgedThrough, rfl⟩, by simp⟩
  · next through hthrough =>
    obtain ⟨d, hd, hsub⟩ := Option.bind_eq_some_iff.mp hthrough
    have hsum : through.toNat + e.rawRetentionBlocks.toNat = d.toNat := by
      split at hsub
      · cases hsub
      · next hle =>
        cases hsub
        have hle := UInt64.le_iff_toNat_le.mp (UInt64.not_lt.mp hle)
        rw [UInt64.toNat_sub_of_le _ _ (UInt64.not_lt.mp (by assumption))]
        omega
    dsimp only
    have hdelete : ∀ fromBlock, ∀ op ∈ (e.rawTables.toList.map fun (t : String × RawTableEngine) =>
        (BatchOp.deleteRawRows t.1 fromBlock through : BatchOp Datum)),
        ∃ table fromBlock toBlock d', op = .deleteRawRows table fromBlock toBlock ∧
          e.durableBlock = some d' ∧
            toBlock.toNat + e.rawRetentionBlocks.toNat = d'.toNat := by
      intro fromBlock op hop
      obtain ⟨t, -, rfl⟩ := List.mem_map.mp hop
      exact ⟨_, _, _, d, rfl, hd, hsum⟩
    split
    · split
      · exact ⟨⟨e.rawPurgedThrough, rfl⟩, by simp⟩
      · exact ⟨⟨_, rfl⟩, hdelete _⟩
    · exact ⟨⟨_, rfl⟩, hdelete _⟩

/-- The durable block after a checkpoint. -/
def checkpointBlock (e : SettleEngine R V) : Option BlockNumber :=
  match e.latestBlock with
  | some latest => some (min e.finalizedBlock latest)
  | none => e.durableBlock

/-- A checkpoint of an engine whose state is durable at finality writes nothing. -/
theorem writeCheckpoint_marks (e : SettleEngine R V) :
    (e.durableThrough e.finalizedBlock = true ∧ e.writeCheckpoint = (e, [])) ∨
    (e.durableThrough e.finalizedBlock = false ∧
      (∃ nodes q k, e.writeCheckpoint.1 = pruneBlockHashes { e with
        nodes := nodes, checkpoints := k, durableBlock := e.checkpointBlock,
        rawPurgedThrough := q }) ∧
      ∀ op ∈ e.writeCheckpoint.2, op.isNodeState = true ∨
        ∃ table fromBlock toBlock d, op = .deleteRawRows table fromBlock toBlock ∧
          e.checkpointBlock = some d ∧
            toBlock.toNat + e.rawRetentionBlocks.toNat = d.toNat) := by
  unfold writeCheckpoint
  split
  · next h => exact Or.inl ⟨h, rfl⟩
  · next h =>
    refine Or.inr ⟨by simpa using h, ?_, ?_⟩
    · obtain ⟨q, hq⟩ := (purgeRawRows_marks { e with
        checkpoints := e.checkpoints + 1
        nodes := (Nodes.stepNodes
          (fun r => ReducerNode.writeCheckpoint r e.finalizedBlock (e.checkpoints + 1))
          (fun v => ViewNode.writeCheckpoint v (e.checkpoints + 1)) e.nodeOrder e.nodes).1
        durableBlock := e.checkpointBlock }).1
      exact ⟨_, q, _, congrArg pruneBlockHashes hq⟩
    · intro op hop
      rcases List.mem_append.mp hop with hop | hop
      · left
        refine stepNodes_writes (P := fun op => op.isNodeState = true) ?_ ?_ _ _ op hop
        · exact fun r op hop => ReducerNode.writeCheckpoint_state r _ _ op hop
        · exact fun v op hop => ViewNode.writeCheckpoint_state v _ op hop
      · right
        exact (purgeRawRows_marks _).2 op hop

omit [ReducerNode R] [ViewNode V] in
theorem getElem?_pruneBlockHashes (e : SettleEngine R V) (b : BlockNumber) :
    e.pruneBlockHashes.blockHashes[b]?
      = if e.finalizedBlock ≤ b ∨ e.durableBlock = some b ∨ e.latestBlock = some b
        then e.blockHashes[b]? else none := by
  rw [pruneBlockHashes]
  simp only [OrdMap.getElem?_keep, Bool.or_eq_true, decide_eq_true_eq, beq_iff_eq, or_assoc]

/-! ## The end of an ingest -/

/-- The steps of an ingest after its rows: the cursors, finality, the checkpoint if it is due,
and the eviction. -/
def closeIngest (e : SettleEngine R V) (chain : List (BlockNumber × String)) (head : BlockNumber)
    (due : Bool) : SettleEngine R V × WriteBatch :=
  let e := (e.setRollbackChain chain).advanceFinality head
  let checkpointed := if due then e.writeCheckpoint else (e, [])
  (checkpointed.1.evictGroups, checkpointed.2)

/-- What the end of an ingest does to the watermarks, the hashes and storage. -/
structure Closed (e e' : SettleEngine R V) (chain : List (BlockNumber × String))
    (head : BlockNumber) (writes : WriteBatch) : Prop where
  rawTables : e'.rawTables = e.rawTables
  pipeline : e'.pipeline = e.pipeline
  retention : e'.rawRetentionBlocks = e.rawRetentionBlocks
  latest : e'.latestBlock = e.latestBlock
  finalized : e'.finalizedBlock = head
  hasFinalized : e'.hasFinalized = true
  durable : e'.durableBlock = e.durableBlock ∨
    ∃ latest, e.latestBlock = some latest ∧ e'.durableBlock = some (min head latest)
  marks : e.Marks e'
  /-- the hashes from finality up stay -/
  above : ∀ b : BlockNumber, head ≤ b →
    e'.blockHashes[b]? = (e.setRollbackChain chain).blockHashes[b]?
  /-- below it only those of the durable and the latest block do, unless finality is where it was
  and the state is durable there -/
  below : ∀ b h, b < head → e'.blockHashes[b]? = some h →
    (e'.durableBlock = some b ∨ e'.latestBlock = some b) ∨
      (e.hasFinalized = true ∧ head = e.finalizedBlock ∧ e.durableThrough head = true ∧
        (e.setRollbackChain chain).blockHashes[b]? = some h)
  /-- node states, and deletes of rows at or below the durable block less the margin -/
  writes : ∀ op ∈ writes, op.isNodeState = true ∨
    ∃ table fromBlock toBlock d, op = .deleteRawRows table fromBlock toBlock ∧
      e'.durableBlock = some d ∧ toBlock.toNat + e.rawRetentionBlocks.toNat = d.toNat

omit [ReducerNode R] [ViewNode V] in
/-- Storing cursors changes the record of hashes only. -/
theorem setRollbackChain_marks (e : SettleEngine R V) (chain : List (BlockNumber × String)) :
    ∃ hashes changes, e.setRollbackChain chain
      = { e with blockHashes := hashes, hashChanges := changes } := by
  induction chain generalizing e with
  | nil => exact ⟨e.blockHashes, e.hashChanges, rfl⟩
  | cons c chain ih =>
    have hstep : e.setRollbackChain (c :: chain) = setRollbackChain
        (if e.blockHashes[c.1]? = some c.2 then e
        else { e with
          blockHashes := e.blockHashes.insert c.1 c.2
          hashChanges := e.hashChanges.insert c.1 }) chain := rfl
    rw [hstep]
    split
    · exact ih e
    · obtain ⟨hashes, changes, h⟩ := ih { e with
        blockHashes := e.blockHashes.insert c.1 c.2
        hashChanges := e.hashChanges.insert c.1 }
      exact ⟨hashes, changes, h⟩

omit [ReducerNode R] [ViewNode V] in
/-- The end of an ingest where nothing is due: finality is where it was. -/
theorem closed_merged {e : SettleEngine R V} {chain : List (BlockNumber × String)}
    {head : BlockNumber} (hfin : e.hasFinalized = true) (hhead : head = e.finalizedBlock)
    (hdur : e.durableThrough head = true) (nodes : Nodes R V) :
    Closed e { e.setRollbackChain chain with nodes := nodes } chain head [] := by
  have hmarks := e.marks_setRollbackChain chain
  obtain ⟨hashes, changes, hset⟩ := e.setRollbackChain_marks chain
  refine ⟨?_, ?_, ?_, ?_, ?_, ?_, ?_, hmarks, fun b _ => rfl, ?_, by simp⟩
  · rw [hset]
  · rw [hset]
  · rw [hset]
  · rw [hset]
  · rw [hset]
    exact hhead.symm
  · rw [hset]
    exact hfin
  · rw [hset]
    exact Or.inl rfl
  · exact fun b h _ hb => Or.inr ⟨hfin, hhead, hdur, hb⟩

omit [ReducerNode R] [ViewNode V] in
/-- The end of an ingest that moves finality, up to the checkpoint. -/
theorem closed_moved (e : SettleEngine R V) (chain : List (BlockNumber × String))
    (head : BlockNumber) (nodes nodes' : Nodes R V) :
    Closed e { pruneBlockHashes { e.setRollbackChain chain with
      nodes := nodes, nodesFinalAt := none, finalizedBlock := head, hasFinalized := true } with
        nodes := nodes' } chain head [] := by
  have hmarks := e.marks_setRollbackChain chain
  obtain ⟨hashes, changes, hset⟩ := e.setRollbackChain_marks chain
  have hget := getElem?_pruneBlockHashes { e.setRollbackChain chain with
      nodes := nodes, nodesFinalAt := none, finalizedBlock := head, hasFinalized := true }
  refine ⟨?_, ?_, ?_, ?_, rfl, rfl, ?_, ?_, ?_, ?_, by simp⟩
  · rw [hset]
    rfl
  · rw [hset]
    rfl
  · rw [hset]
    rfl
  · rw [hset]
    rfl
  · rw [hset]
    exact Or.inl rfl
  · exact hmarks.trans (marks_pruneBlockHashes { e.setRollbackChain chain with
      nodes := nodes, nodesFinalAt := none, finalizedBlock := head, hasFinalized := true })
  · intro b hb
    exact (hget b).trans (if_pos (Or.inl hb))
  · intro b h hb hsome
    have hsome := (hget b).symm.trans hsome
    split at hsome
    · next hkept =>
      rcases hkept with hle | hkept
      · exact absurd hb (UInt64.not_lt.mpr hle)
      · exact Or.inl hkept
    · cases hsome

/-- A checkpoint at the end of an ingest. -/
theorem Closed.checkpoint {e e' : SettleEngine R V} {chain : List (BlockNumber × String)}
    {head : BlockNumber} (h : Closed e e' chain head []) (nodes' : Nodes R V) :
    Closed e { e'.writeCheckpoint.1 with nodes := nodes' } chain head e'.writeCheckpoint.2 := by
  rcases e'.writeCheckpoint_marks with ⟨-, hsame⟩ | ⟨hdur, ⟨nodes, q, k, he⟩, hwrites⟩
  · rw [hsame]
    exact ⟨h.rawTables, h.pipeline, h.retention, h.latest, h.finalized, h.hasFinalized, h.durable,
      h.marks, h.above, h.below, h.writes⟩
  · have hget := getElem?_pruneBlockHashes { e' with
      nodes := nodes, checkpoints := k, durableBlock := e'.checkpointBlock, rawPurgedThrough := q }
    have hmarks := marks_pruneBlockHashes { e' with
      nodes := nodes, checkpoints := k, durableBlock := e'.checkpointBlock, rawPurgedThrough := q }
    rw [he]
    refine ⟨h.rawTables, h.pipeline, h.retention, h.latest, h.finalized, h.hasFinalized, ?_,
      h.marks.trans hmarks, ?_, ?_, ?_⟩
    · show e'.checkpointBlock = _ ∨ ∃ latest, _ ∧ e'.checkpointBlock = _
      rw [checkpointBlock, h.latest, h.finalized]
      cases hl : e.latestBlock with
      | none =>
        rcases h.durable with hd | ⟨l, hl', -⟩
        · exact Or.inl hd
        · rw [hl] at hl'
          cases hl'
      | some latest => exact Or.inr ⟨latest, rfl, rfl⟩
    · intro b hb
      refine ((hget b).trans (if_pos (Or.inl ?_))).trans (h.above b hb)
      show e'.finalizedBlock ≤ b
      rw [h.finalized]
      exact hb
    · intro b hash hb hsome
      have hsome := (hget b).symm.trans hsome
      split at hsome
      · next hkept =>
        rcases hkept with hle | hkept
        · have hle : e'.finalizedBlock ≤ b := hle
          rw [h.finalized] at hle
          exact absurd hb (UInt64.not_lt.mpr hle)
        · exact Or.inl hkept
      · cases hsome
    · intro op hop
      rcases hwrites op hop with hnode | ⟨table, fromBlock, toBlock, d, hop, hd, hsum⟩
      · exact Or.inl hnode
      · exact Or.inr ⟨table, fromBlock, toBlock, d, hop, hd, by rw [← h.retention]; exact hsum⟩

/-- **The end of an ingest.** -/
theorem closed_closeIngest (e : SettleEngine R V) (chain : List (BlockNumber × String))
    (head : BlockNumber) (due : Bool) :
    Closed e (e.closeIngest chain head due).1 chain head (e.closeIngest chain head due).2 := by
  obtain ⟨hashes, changes, hset⟩ := e.setRollbackChain_marks chain
  have hclosed : ∃ nodes, (e.setRollbackChain chain).advanceFinality head
        = { (e.setRollbackChain chain).advanceFinality head with nodes := nodes } ∧
      ∀ nodes', Closed e { (e.setRollbackChain chain).advanceFinality head with nodes := nodes' }
        chain head [] := by
    rcases (e.setRollbackChain chain).advanceFinality_marks head with
      ⟨hfin, hhead, hdur, hsame⟩ | ⟨nodes, hmoved⟩
    · rw [hsame]
      refine ⟨_, rfl, fun nodes' => ?_⟩
      refine closed_merged ?_ ?_ ?_ nodes'
      · rw [← hfin, hset]
      · rw [hhead, hset]
      · rw [← hdur, hset]
        rfl
    · rw [hmoved]
      exact ⟨_, rfl, fun nodes' => closed_moved e chain head nodes nodes'⟩
  obtain ⟨nodes, hnodes, hall⟩ := hclosed
  unfold closeIngest
  dsimp only
  split
  · have h := hall nodes
    rw [← hnodes] at h
    exact h.checkpoint _
  · exact hall _

end SettleEngine

end Settle
