import Settle.Db.History
import Settle.Engine.PipelineReducers

/-!
# Runs of an instance

The calls of an instance over its pipeline. Each call that leaves the instance in order is a run of
the pipeline (`InstanceStep.follow`), so the state of an instance is a function of the rows that it
was given and that stand (`instance_is_a_function_of_its_rows`): those of the ingests that were
accepted, without the blocks above a fork. An ingest that is refused leaves no trace.
-/

namespace Settle

open Std

/-! ## The blocks of an input -/

namespace Db

section Input

variable {E : Type} [Engine E]

/-- A loop of checks that keeps the keys. -/
theorem mapM_keys {α β γ : Type} {f : α → Except Error β} {k : α → γ} {k' : β → γ}
    (hf : ∀ a b, f a = .ok b → k' b = k a) {l : List α} {l' : List β}
    (h : l.mapM f = .ok l') : l'.map k' = l.map k := by
  have hall := mapM_ok h
  clear h
  induction hall with
  | nil => rfl
  | cons hok _ ih => rw [List.map_cons, List.map_cons, hf _ _ hok, ih]

/-- The tables of a checked input are distinct. -/
theorem groupInputRows_nodup {db : Db E} {data : InputData} {latest : Option BlockNumber}
    {tables : List (String × BTreeMap BlockNumber (List Row))}
    (h : db.groupInputRows data latest = .ok tables) : (tables.map Prod.fst).Nodup := by
  obtain ⟨-, grouped, rfl, hgrouped⟩ := groupInputRows_cases h
  have hkeys : (grouped.map Prod.fst).Nodup := by
    cases data with
    | maps input =>
      rw [mapM_keys (k := Prod.fst) (fun t t' ht => ?_) hgrouped]
      · exact OrdMap.nodup_keys input
      · obtain ⟨table, maps⟩ := t
        dsimp only at ht
        cases hc : db.rowsFromMaps table maps with
        | error err =>
          rw [hc] at ht
          cases ht
        | ok b =>
          rw [hc] at ht
          cases ht
          rfl
    | rows input =>
      rw [mapM_keys (k := Prod.fst) (fun t t' ht => ?_) hgrouped]
      · exact OrdMap.nodup_keys input
      · obtain ⟨table, byBlock⟩ := t
        dsimp only at ht
        cases hc : db.checkRows table byBlock with
        | error err =>
          rw [hc] at ht
          cases ht
        | ok b =>
          rw [hc] at ht
          cases ht
          rfl
  exact hkeys.sublist (List.filter_sublist.map _)

/-- The blocks of a table come in order. -/
theorem inputBlocks_sorted {tables : List (String × BTreeMap BlockNumber (List Row))}
    (h : (tables.map Prod.fst).Nodup) :
    (inputBlocks tables).Pairwise fun t t' => t.1 = t'.1 → t.2.1 < t'.2.1 := by
  induction tables with
  | nil => exact .nil
  | cons entry tables ih =>
    obtain ⟨table, byBlock⟩ := entry
    obtain ⟨hnot, hnodup⟩ := List.nodup_cons.mp h
    rw [inputBlocks, List.flatMap_cons, ← inputBlocks, List.pairwise_append]
    refine ⟨?_, ih hnodup, ?_⟩
    · rw [List.pairwise_map]
      refine ExtTreeMap.ordered_keys_toList.imp ?_
      intro a b hlt _
      exact Std.compare_eq_lt.mp hlt
    · intro t ht t' ht' heq
      obtain ⟨e, -, rfl⟩ := List.mem_map.mp ht
      obtain ⟨table', block', rows'⟩ := t'
      obtain ⟨byBlock', hmem, -⟩ := mem_inputBlocks.mp ht'
      cases heq
      exact absurd (List.mem_map.mpr ⟨(table, byBlock'), hmem, rfl⟩) hnot

end Input

/-- The rows of the tables, with those of some blocks. -/
def addBlocks (blocks : List (String × BlockNumber × List Row)) (rows : String → Chain Row) :
    String → Chain Row :=
  blocks.foldl
    (fun rows t => Function.update rows t.1 ((rows t.1).insert t.2.1 t.2.2)) rows

/-- The rows of the tables once a fork is rolled back. -/
def cutBlocks (fork : Option BlockNumber) (rows : String → Chain Row) : String → Chain Row :=
  fork.elim rows fun p table => OrdMap.keep (rows table) (· ≤ p)

end Db

/-! ## The end of an ingest -/

namespace SettleEngine

/-- The end of an ingest, up to the eviction. -/
def closing {R V : Type} [ReducerNode R] [ViewNode V] (e : SettleEngine R V)
    (chain : List (BlockNumber × String)) (head : BlockNumber) (due : Bool) : SettleEngine R V :=
  let e := (e.setRollbackChain chain).advanceFinality head
  if due then e.writeCheckpoint.1 else e

theorem closeIngest_closing {R V : Type} [ReducerNode R] [ViewNode V] (e : SettleEngine R V)
    (chain : List (BlockNumber × String)) (head : BlockNumber) (due : Bool) :
    (e.closeIngest chain head due).1 = (e.closing chain head due).evictGroups := by
  cases due <;> rfl

/-- No node has more groups than may stay in memory. -/
def fits (e : PipelineEngine) : Bool :=
  (e.nodes.reducers.toList.all fun n => decide (n.2.engine.all.length ≤ e.maxResidentGroups)) &&
    e.nodes.mvs.toList.all fun n =>
      n.2.shape.slidingWindow.isSome || decide (n.2.engine.groups.size ≤ e.maxResidentGroups)

/-- An engine that fits evicts nothing. -/
theorem evictGroups_of_fits [ViewStorage] {e : PipelineEngine} (h : fits e = true) :
    e.evictGroups = e := by
  rw [fits, Bool.and_eq_true, List.all_eq_true, List.all_eq_true] at h
  obtain ⟨hreducers, hviews⟩ := h
  have hnodes : (Nodes.stepNodes
      (fun r => (ReducerNode.evict r e.maxResidentGroups e.committedCheckpoint, []))
      (fun v => (ViewNode.evict v e.maxResidentGroups e.committedCheckpoint, []))
      e.nodeOrder e.nodes).1 = e.nodes := by
    have hr : ∀ name : String, (Nodes.stepNodes
        (fun r => (ReducerNode.evict r e.maxResidentGroups e.committedCheckpoint, []))
        (fun v => (ViewNode.evict v e.maxResidentGroups e.committedCheckpoint, []))
        e.nodeOrder e.nodes).1.reducers[name]? = e.nodes.reducers[name]? := by
      intro name
      rw [Nodes.stepNodes_reducers]
      cases hget : e.nodes.reducers[name]? with
      | none => rfl
      | some r =>
        have hfit := hreducers (name, r) (ExtTreeMap.mem_toList_iff_getElem?_eq_some.mpr hget)
        apply congrArg some
        apply Function.iterate_fixed
        show { r with engine := r.engine.evict _ _ } = r
        rw [ReducerEngine.evict, Eviction.due, if_pos (of_decide_eq_true hfit)]
        rfl
    have hv : ∀ name : String, (Nodes.stepNodes
        (fun r => (ReducerNode.evict r e.maxResidentGroups e.committedCheckpoint, []))
        (fun v => (ViewNode.evict v e.maxResidentGroups e.committedCheckpoint, []))
        e.nodeOrder e.nodes).1.mvs[name]? = e.nodes.mvs[name]? := by
      intro name
      rw [Nodes.stepNodes_mvs]
      cases hget : e.nodes.mvs[name]? with
      | none => rfl
      | some v =>
        have hfit := hviews (name, v) (ExtTreeMap.mem_toList_iff_getElem?_eq_some.mpr hget)
        apply congrArg some
        apply Function.iterate_fixed
        show { v with engine := v.engine.evict v.shape _ _ } = v
        rw [MVEngine.evict]
        by_cases hwindow : v.shape.slidingWindow.isSome = true
        · rw [if_pos hwindow]
        · rw [Bool.or_eq_true] at hfit
          rw [if_neg hwindow, Eviction.due,
            if_pos (of_decide_eq_true (hfit.resolve_left hwindow))]
          rfl
    exact congr (congrArg Nodes.mk (ExtTreeMap.ext_getElem? fun name => hr name))
      (ExtTreeMap.ext_getElem? fun name => hv name)
  rw [evictGroups, hnodes]

end SettleEngine

/-! ## Runs of the pipeline in a call -/

section Runs

variable [ViewStorage] [NodeBuild PipelineReducer PipelineView] {w : PipelineWorld} {store : Store}
  {blocks : List (String × BlockNumber × List Row)} {e' : PipelineEngine}

omit [ViewStorage] [NodeBuild PipelineReducer PipelineView] in
/-- The blocks that are left come after those of one more batch. -/
theorem PipelineWorld.fresh_withRows {table : String} {block : BlockNumber} {rows : List Row}
    (hfirst : ∀ t ∈ blocks, table = t.1 → block < t.2.1)
    (hfresh : ∀ t ∈ (table, block, rows) :: blocks, ∀ b ∈ w.tables t.1, b < t.2.1) :
    ∀ t ∈ blocks, ∀ b ∈ w.withRows table block rows t.1, b < t.2.1 := by
  intro t ht b hb
  rcases PipelineWorld.mem_withRows.mp hb with ⟨heq, rfl⟩ | hb
  · exact hfirst t ht heq.symm
  · exact hfresh t (List.mem_cons_of_mem _ ht) b hb

/-- The loops over the blocks are batches. -/
theorem processTables_run {writes : WriteBatch} {changes : List ChangeRecord}
    (hsorted : blocks.Pairwise fun t t' => t.1 = t'.1 → t.2.1 < t'.2.1)
    (hfresh : ∀ t ∈ blocks, ∀ b ∈ w.tables t.1, b < t.2.1)
    (h : Db.processTables store blocks w.engine = (e', writes, .ok changes)) :
    ∃ w', Relation.ReflTransGen (PipelineStep True) w w' ∧ w'.engine = e' ∧
      w'.tables = Db.addBlocks blocks w.tables ∧
      e'.finalizedBlock = w.engine.finalizedBlock := by
  induction blocks generalizing w writes changes with
  | nil =>
    cases h
    exact ⟨w, .refl, rfl, rfl, rfl⟩
  | cons t blocks ih =>
    obtain ⟨table, block, rows⟩ := t
    obtain ⟨hfirst, hsorted⟩ := List.pairwise_cons.mp hsorted
    rw [Db.processTables] at h
    split at h
    · cases h
    · next e₁ writes₁ changes₁ hbatch =>
      have hbatch : w.engine.processBatchDeferred store table block rows
          = (e₁, writes₁, .ok changes₁) := hbatch
      have hfinalized : e₁.finalizedBlock = w.engine.finalizedBlock := by
        rcases w.engine.processBatchDeferred_cases store table block rows with
          ⟨_, _, _, heq⟩ | ⟨_, _, -, heq⟩
        · rw [hbatch] at heq
          cases heq
        · rw [hbatch] at heq
          cases heq
          rfl
      have hstep : PipelineStep True w _ :=
        .batch store table block rows (hfresh _ List.mem_cons_self) hbatch
      split at h
      · cases h
      · next e₂ writes₂ changes₂ hrest =>
        cases h
        obtain ⟨w', hrun, hengine, htables, hsame⟩ := ih (w := { w with
            engine := e₁
            tables := w.withRows table block rows
            views name := (w.views name).apply block (w.given store table block rows name) })
          hsorted (PipelineWorld.fresh_withRows hfirst hfresh) hrest
        exact ⟨w', .head hstep hrun, hengine, htables, hsame.trans hfinalized⟩

omit [ViewStorage] [NodeBuild PipelineReducer PipelineView] in
/-- The blocks up to `p` do not see a later one. -/
theorem PipelineWorld.keep_withRows (w : PipelineWorld) {table : String} {block p : BlockNumber}
    (hp : p < block) (rows : List Row) (table' : String) :
    OrdMap.keep (w.withRows table block rows table') (· ≤ p)
      = OrdMap.keep (w.tables table') (· ≤ p) := by
  by_cases heq : table' = table
  · subst heq
    rw [withRows, Function.update_self, Chain.keep_insert _ hp]
  · rw [withRows, Function.update_of_ne heq]

/-- The loops up to a block that fails: nothing at or below `p` changed. -/
theorem processTables_failed {writes : WriteBatch} {err : Error} {latest p : BlockNumber}
    (hsorted : blocks.Pairwise fun t t' => t.1 = t'.1 → t.2.1 < t'.2.1)
    (hfresh : ∀ t ∈ blocks, ∀ b ∈ w.tables t.1, b < t.2.1) (habove : ∀ t ∈ blocks, p < t.2.1)
    (hlatest : w.engine.latestBlock = some latest) (hp : p ≤ latest) (hfinal : w.FinalBelow p)
    (h : Db.processTables store blocks w.engine = (e', writes, .error err)) :
    ∃ w₁ table block rows writes' latest', Relation.ReflTransGen (PipelineStep True) w w₁ ∧
      (∀ b ∈ w₁.tables table, b < block) ∧
      w₁.engine.processBatchDeferred store table block rows = (e', writes', .error err) ∧
      w₁.engine.latestBlock = some latest' ∧ p ≤ latest' ∧ p < block ∧ w₁.FinalBelow p ∧
      ∀ t, OrdMap.keep (w₁.tables t) (· ≤ p) = OrdMap.keep (w.tables t) (· ≤ p) := by
  induction blocks generalizing w writes latest with
  | nil => cases h
  | cons t blocks ih =>
    obtain ⟨table, block, rows⟩ := t
    obtain ⟨hfirst, hsorted⟩ := List.pairwise_cons.mp hsorted
    have hblock : p < block := habove _ List.mem_cons_self
    have hnew : ∀ b ∈ w.tables table, b < block := hfresh _ List.mem_cons_self
    rw [Db.processTables] at h
    split at h
    · next hbatch =>
      cases h
      exact ⟨w, table, block, rows, _, latest, .refl, hnew, hbatch, hlatest, hp, hblock, hfinal,
        fun _ => rfl⟩
    · next e₁ writes₁ changes₁ hbatch =>
      have hbatch : w.engine.processBatchDeferred store table block rows
          = (e₁, writes₁, .ok changes₁) := hbatch
      have hlatest₁ : e₁.latestBlock = some (max latest block) := by
        rcases w.engine.processBatchDeferred_cases store table block rows with
          ⟨_, _, _, heq⟩ | ⟨_, _, -, heq⟩
        · rw [hbatch] at heq
          cases heq
        · rw [hbatch] at heq
          cases heq
          show SettleEngine.bumpLatest w.engine.latestBlock block = _
          rw [hlatest, SettleEngine.bumpLatest]
      have hstep : PipelineStep True w _ := .batch store table block rows hnew hbatch
      have hfinal₁ : PipelineWorld.FinalBelow
          { w with
            engine := e₁
            tables := w.withRows table block rows
            views name := (w.views name).apply block (w.given store table block rows name) } p := by
        refine ⟨hfinal.1, fun name b hb => hfinal.2 name b ?_⟩
        dsimp only at hb
        rwa [(ViewHistory.apply_final ..).1] at hb
      split at h
      · next hrest =>
        cases h
        obtain ⟨w₁, table₁, block₁, rows₁, writes', latest', hrun, hrest⟩ := ih (w := { w with
            engine := e₁
            tables := w.withRows table block rows
            views name := (w.views name).apply block (w.given store table block rows name) })
          hsorted (PipelineWorld.fresh_withRows hfirst hfresh)
          (fun t ht => habove t (List.mem_cons_of_mem _ ht)) hlatest₁
          (UInt64.le_trans hp (BlockNumber.le_max_left latest block)) hfinal₁ hrest
        obtain ⟨h₁, h₂, h₃, h₄, h₅, h₆, h₇⟩ := hrest
        refine ⟨w₁, table₁, block₁, rows₁, writes', latest', .head hstep hrun, h₁, h₂, h₃, h₄, h₅,
          h₆, fun t => ?_⟩
        rw [h₇]
        exact w.keep_withRows hblock rows t
      · cases h

omit [NodeBuild PipelineReducer PipelineView] in
/-- Finality that advances. -/
theorem SettleEngine.advanceFinality_advanced {e : PipelineEngine} {block : BlockNumber}
    (h : ¬ e.finalityReached block = true) :
    (e.advanceFinality block).finalizedBlock = block ∧
      (e.advanceFinality block).hasFinalized = true := by
  have heq : e.advanceFinality block = pruneBlockHashes
      { e with
        nodes := (Nodes.stepNodes (fun r => (ReducerNode.advanceFinality r block, []))
          (fun v => (ViewNode.advanceFinality v block, [])) e.nodeOrder e.nodes).1
        nodesFinalAt := none
        finalizedBlock := block
        hasFinalized := true } := by
    rw [advanceFinality]
    exact if_neg h
  rw [heq]
  exact ⟨rfl, rfl⟩

/-- The end of an ingest, in an engine that evicts nothing. -/
theorem closeIngest_run {chain : List (BlockNumber × String)} {head : BlockNumber} {due : Bool}
    (hmono : w.engine.finalizedBlock ≤ head) (hmax : head ≠ BlockNumber.max)
    (hfits : SettleEngine.fits (w.engine.takeChanges.1.closing chain head due) = true) :
    ∃ w', Relation.ReflTransGen (PipelineStep True) w w' ∧
      w'.engine = (w.engine.takeChanges.1.closeIngest chain head due).1 ∧
      w'.tables = w.tables := by
  rw [SettleEngine.closeIngest_closing, SettleEngine.evictGroups_of_fits hfits]
  have h₁ : Relation.ReflTransGen (PipelineStep True) w _ := .tail .refl .takeChanges
  have h₂ := h₁.tail (.setRollbackChain chain)
  obtain ⟨hashes, hashChanges, hchain⟩ := w.engine.takeChanges.1.setRollbackChain_marks chain
  have hmono₂ : (w.engine.takeChanges.1.setRollbackChain chain).finalizedBlock ≤ head := by
    rw [hchain]
    exact hmono
  have h₃ := h₂.tail (.advanceFinality hmono₂ hmax)
  cases due with
  | false => exact ⟨_, h₃, rfl, rfl⟩
  | true =>
    by_cases hreached :
        (w.engine.takeChanges.1.setRollbackChain chain).finalityReached head = true
    · -- finality stays, and every block up to it is durable
      refine ⟨_, h₃, ?_, rfl⟩
      have hstays : (w.engine.takeChanges.1.setRollbackChain chain).advanceFinality head
          = w.engine.takeChanges.1.setRollbackChain chain := by
        rw [SettleEngine.advanceFinality]
        exact if_pos hreached
      rw [SettleEngine.finalityReached, Bool.and_eq_true, Bool.and_eq_true, beq_iff_eq] at hreached
      obtain ⟨⟨-, hhead⟩, hdurable⟩ := hreached
      rw [hhead] at hdurable
      show (w.engine.takeChanges.1.setRollbackChain chain).advanceFinality head
        = ((w.engine.takeChanges.1.setRollbackChain chain).advanceFinality head).writeCheckpoint.1
      rw [hstays, SettleEngine.writeCheckpoint, if_pos hdurable]
    · refine ⟨_, h₃.tail (.writeCheckpoint fun _ => ?_), rfl, rfl⟩
      obtain ⟨hfinalized, hhas⟩ := SettleEngine.advanceFinality_advanced hreached
      refine ⟨hhas, fun table b hb hle => ?_⟩
      have hle : b ≤ ((w.engine.takeChanges.1.setRollbackChain chain).advanceFinality
        head).finalizedBlock := hle
      rw [hfinalized] at hle
      show b ∈ (if _ then w.final else _) table
      rw [if_neg hreached]
      exact (OrdMap.mem_keep ..).mpr ⟨hb, by simpa using hle⟩

/-- The rollback of a fork. -/
theorem rollbackFork_run {db db' : Db PipelineEngine} {fork : Option BlockNumber}
    {writes : WriteBatch} {changes : List ChangeRecord} (hengine : w.engine = db.engine)
    (ht : ∀ p, fork = some p → db.engine.Target p)
    (h : db.rollbackFork store fork = (db', writes, .ok changes)) :
    ∃ w', Relation.ReflTransGen (PipelineStep True) w w' ∧ w'.engine = db'.engine ∧
      w'.tables = Db.cutBlocks fork w.tables ∧
      db'.engine.finalizedBlock = db.engine.finalizedBlock ∧
      db' = { db with engine := db'.engine } := by
  cases fork with
  | none =>
    cases h
    exact ⟨w, .refl, hengine, rfl, rfl, rfl⟩
  | some p =>
    have htarget := ht p rfl
    rw [Db.rollbackFork, Db.rollbackEngine] at h
    rw [show Engine.checkRollbackTarget db.engine p = .ok () from
      SettleEngine.checkRollbackTarget_ok htarget] at h
    dsimp only at h
    split at h
    · next e₁ _ _ hroll =>
      cases h
      have hfinalized := (SettleEngine.rollbackToBatch_spec htarget hroll).1.finalizedBlock
      rw [← hengine] at htarget
      have hroll : w.engine.rollbackToBatch store (db.pending.map PendingAck.writeBatch) p
          = (e₁, writes, .ok changes) := by
        rw [hengine]
        exact hroll
      exact ⟨_, .tail .refl (.rollback store _ htarget hroll), rfl, rfl, hfinalized, rfl⟩
    · cases h

omit [NodeBuild PipelineReducer PipelineView] in
/-- The engine that an accepted ingest leaves, before its writes are committed. -/
theorem finalizeIngest_engine (db : Db PipelineEngine) (writes : WriteBatch)
    (changes : List ChangeRecord) (chain : List BlockCursor) (head : BlockCursor) :
    ∃ due, (db.finalizeIngest writes changes chain head).1.engine
      = ((db.engine.takeChanges.1.closeIngest (Db.cursors (chain ++ [head])) head.number
          due).1.takeHashChanges).1 := by
  unfold Db.finalizeIngest
  dsimp only
  generalize Db.checkpointDue (E := PipelineEngine) _ head.number = due
  rw [appendMetaToBatch_marks]
  exact ⟨due, rfl⟩

end Runs

/-! ## Calls -/

namespace Db

/-- No node has more groups at the end of an ingest than may stay in memory. -/
def Fits [ViewStorage] (db : Db PipelineEngine) (store : Store) (fork : Option BlockNumber)
    (tables : List (String × BTreeMap BlockNumber (List Row)))
    (supplied : List (BlockNumber × String)) (head : BlockNumber) : Prop :=
  ∀ {db₁ writes₁ changes₁ e₂ writes₂ changes₂},
    db.rollbackFork store fork = (db₁, writes₁, .ok changes₁) →
    processTables store (inputBlocks tables) db₁.engine = (e₂, writes₂, .ok changes₂) →
    ∀ due, SettleEngine.fits (e₂.takeChanges.1.closing supplied head due) = true

end Db

/-- An instance, and the rows of each table that it was given and that stand. -/
structure Instance where
  world : World PipelineEngine
  rows : String → Chain Row := fun _ => ∅

/-- One call that leaves the instance in order, with any answer of storage. An ingest that is
accepted evicts nothing and its finality is a block; one that is refused before the first block is
refused by its checks. -/
inductive InstanceStep [ViewStorage] : Instance → Instance → Prop
  | ingest {i : Instance} (commitFault syncFault : Outcome) (data : Db.InputData)
      (chain : List BlockCursor) (head : BlockCursor) {fork recovery tables db₁ writes batch}
      (hcheck : i.world.db.checkIngest data chain head = .ok (fork, recovery, tables))
      (hprep : i.world.db.prepareIngest i.world.store data chain head
        = (db₁, .ok (writes, batch)))
      (hmax : head.number ≠ BlockNumber.max)
      (hfits : i.world.db.Fits i.world.store fork tables (Db.cursors (chain ++ [head]))
        head.number) :
      InstanceStep i
        { world := i.world.ingest commitFault syncFault data chain head
          rows := Db.addBlocks (Db.inputBlocks tables) (Db.cutBlocks fork i.rows) }
  | ingestRefused {i : Instance} (commitFault syncFault : Outcome) (data : Db.InputData)
      (chain : List BlockCursor) (head : BlockCursor) {db₁ err}
      (hprep : i.world.db.prepareIngest i.world.store data chain head = (db₁, .error err))
      (hpoisoned : db₁.poisoned = none)
      (hfirst : i.world.db.engine.latestBlock = none →
        ∃ e, i.world.db.checkIngest data chain head = .error e) :
      InstanceStep i { i with world := i.world.ingest commitFault syncFault data chain head }
  | handleFork {i : Instance} (commitFault syncFault : Outcome) (chain : List BlockCursor)
      {db₁ cursor writes batch}
      (hprep : i.world.db.prepareFork i.world.store chain = (db₁, .ok (cursor, writes, batch))) :
      InstanceStep i
        { world := i.world.handleFork commitFault syncFault chain
          rows := Db.cutBlocks (some cursor.number) i.rows }
  | forkRefused {i : Instance} (commitFault syncFault : Outcome) (chain : List BlockCursor)
      {db₁ err} (hprep : i.world.db.prepareFork i.world.store chain = (db₁, .error err))
      (hpoisoned : db₁.poisoned = none) :
      InstanceStep i { i with world := i.world.handleFork commitFault syncFault chain }
  | ack {i : Instance} (faults : List Outcome) (syncFault : Outcome) (sequence : Nat) :
      InstanceStep i { i with world := i.world.ack faults syncFault sequence }

/-- The pipeline of the instance holds its rows. -/
structure Instance.Follows (i : Instance) (w : PipelineWorld) : Prop where
  engine : w.engine = i.world.db.engine
  tables : w.tables = i.rows

namespace Instance

variable [ViewStorage] [NodeBuild PipelineReducer PipelineView] {i : Instance} {w : PipelineWorld}
  {schema : Schema}

/-- What the commits of a call change of the engine. -/
theorem Follows.committed {j : Instance} {e : PipelineEngine} (hengine : w.engine = e)
    (hcommitted : ∃ n, j.world.db.engine = { e with committedCheckpoint := n })
    (htables : w.tables = j.rows) :
    ∃ w', PipelineStep True w w' ∧ j.Follows w' := by
  obtain ⟨n, hn⟩ := hcommitted
  subst hengine
  exact ⟨_, .setCommittedCheckpoint n, hn.symm, htables⟩

/-- An ingest that is accepted. -/
theorem Follows.ingest (h : i.Follows w) (hi : PipelineInv schema w)
    {commitFault syncFault : Outcome} {data : Db.InputData} {chain : List BlockCursor}
    {head : BlockCursor}
    {fork recovery : Option BlockNumber}
    {tables : List (String × BTreeMap BlockNumber (List Row))} {db₁ : Db PipelineEngine}
    {writes : WriteBatch} {batch : Option ChangeBatch}
    (hcheck : i.world.db.checkIngest data chain head = .ok (fork, recovery, tables))
    (hprep : i.world.db.prepareIngest i.world.store data chain head = (db₁, .ok (writes, batch)))
    (hmax : head.number ≠ BlockNumber.max)
    (hfits : i.world.db.Fits i.world.store fork tables (Db.cursors (chain ++ [head]))
      head.number) :
    ∃ w', Relation.ReflTransGen (PipelineStep True) w w' ∧ Follows
      { world := i.world.ingest commitFault syncFault data chain head
        rows := Db.addBlocks (Db.inputBlocks tables) (Db.cutBlocks fork i.rows) } w' := by
  obtain ⟨hmono, hfork, rfl, htables⟩ := Db.checkIngest_steps hcheck
  have hingest : ∃ n, (i.world.ingest commitFault syncFault data chain head).db.engine
      = { db₁.engine with committedCheckpoint := n } := by
    obtain ⟨n, hn⟩ := db₁.finishCall_engine i.world.store commitFault syncFault writes batch
      "heartbeat ingest"
    refine ⟨n, ?_⟩
    rw [← hn]
    show (i.world.db.ingest i.world.store commitFault syncFault data chain head).1.engine = _
    rw [Db.ingest, hprep]
    dsimp only
    split <;> (next hr => rw [hr])
  rw [Db.prepareIngest, hcheck] at hprep
  dsimp only at hprep
  rw [Db.ingestTables] at hprep
  split at hprep
  · cases hprep
  · next db₂ writes₂ changes₂ hroll =>
    obtain ⟨w₁, hrun₁, hengine₁, htables₁, hfinalized₁, hdb⟩ := rollbackFork_run h.engine
      (fun p hp => Db.detectFork_target (by rw [hfork, hp])) hroll
    dsimp only at hprep
    split at hprep
    · cases hprep
    · next e₃ writes₃ changes₃ hproc =>
      have hproc : Db.processTables i.world.store (Db.inputBlocks tables) db₂.engine
          = (e₃, writes₃, .ok changes₃) := hproc
      have hclosing := hfits hroll hproc
      rw [← hengine₁] at hproc
      -- the blocks of the input are above those that stand
      have hfresh : ∀ t ∈ Db.inputBlocks tables, ∀ b ∈ w₁.tables t.1, b < t.2.1 := by
        intro t ht b hb
        have habove := Db.groupInputRows_above htables t ht
        rw [htables₁] at hb
        cases fork with
        | none =>
          obtain ⟨latest, hlatest, hle⟩ := hi.reached t.1 b hb
          rw [h.engine] at hlatest
          exact UInt64.lt_of_le_of_lt hle (habove latest hlatest)
        | some p =>
          have hle : b ≤ p := by
            have hb : b ∈ OrdMap.keep (w.tables t.1) (· ≤ p) := hb
            simpa using ((OrdMap.mem_keep ..).mp hb).2
          exact UInt64.lt_of_le_of_lt hle (habove p rfl)
      obtain ⟨w₂, hrun₂, hengine₂, htables₂, hfinalized₂⟩ := processTables_run
        (Db.inputBlocks_sorted (Db.groupInputRows_nodup htables)) hfresh hproc
      obtain ⟨due, hdue⟩ := finalizeIngest_engine { db₂ with engine := e₃ } (writes₂ ++ writes₃)
        (changes₂ ++ changes₃) chain head
      have hmono₂ : w₂.engine.finalizedBlock ≤ head.number := by
        rw [hengine₂, hfinalized₂, hengine₁, hfinalized₁]
        exact hmono
      obtain ⟨w₃, hrun₃, hengine₃, htables₃⟩ := closeIngest_run hmono₂ hmax (by
        rw [hengine₂]
        exact hclosing due)
      have hlast : PipelineStep True w₃ _ := .takeHashChanges
      obtain ⟨w₄, hstep, hfollows⟩ := Follows.committed
        (w := { w₃ with engine := w₃.engine.takeHashChanges.1 })
        (j := { world := i.world.ingest commitFault syncFault data chain head
                rows := Db.addBlocks (Db.inputBlocks tables) (Db.cutBlocks fork i.rows) })
        (e := db₁.engine) (by
          dsimp only
          rw [hengine₃, hengine₂, ← (Prod.mk.inj hprep).1]
          exact hdue.symm) hingest (by
          dsimp only
          rw [htables₃, htables₂, htables₁, h.tables])
      exact ⟨w₄, (((hrun₁.trans hrun₂).trans hrun₃).tail hlast).tail hstep, hfollows⟩

omit [NodeBuild PipelineReducer PipelineView] in
/-- The rows that stand are at or below the latest block. -/
theorem tables_keep (hi : PipelineInv schema w) {latest : BlockNumber}
    (hlatest : w.engine.latestBlock = some latest) (table : String) :
    OrdMap.keep (w.tables table) (· ≤ latest) = w.tables table := by
  apply OrdMap.keep_eq_self
  intro b hb
  obtain ⟨latest', hlatest', hle⟩ := hi.reached table b hb
  rw [hlatest] at hlatest'
  cases hlatest'
  simpa using hle

omit [NodeBuild PipelineReducer PipelineView] in
/-- The final rows are at or below the latest block. -/
theorem finalBelow_latest (hi : PipelineInv schema w) {latest : BlockNumber}
    (hlatest : w.engine.latestBlock = some latest) : w.FinalBelow latest := by
  have hreached : ∀ b, w.engine.Reached b → b ≤ latest := by
    intro b hb
    obtain ⟨latest', hlatest', hle⟩ := hb
    rw [hlatest] at hlatest'
    cases hlatest'
    exact hle
  exact ⟨fun table b hb => hreached b (hi.finalRows table b hb).2,
    fun name b hb => hreached b (hi.final name b hb).2⟩

/-- An ingest that is refused. -/
theorem Follows.ingestRefused (h : i.Follows w) (hi : PipelineInv schema w)
    {commitFault syncFault : Outcome} {data : Db.InputData} {chain : List BlockCursor}
    {head : BlockCursor} {db₁ : Db PipelineEngine} {err : Error}
    (hprep : i.world.db.prepareIngest i.world.store data chain head = (db₁, .error err))
    (hpoisoned : db₁.poisoned = none)
    (hfirst : i.world.db.engine.latestBlock = none →
      ∃ e, i.world.db.checkIngest data chain head = .error e) :
    ∃ w', Relation.ReflTransGen (PipelineStep True) w w' ∧ Follows
      { i with world := i.world.ingest commitFault syncFault data chain head } w' := by
  have hingest : (i.world.ingest commitFault syncFault data chain head).db.engine = db₁.engine := by
    show (i.world.db.ingest i.world.store commitFault syncFault data chain head).1.engine = _
    rw [Db.ingest, hprep]
  have hsame : db₁.engine = i.world.db.engine →
      ∃ w', Relation.ReflTransGen (PipelineStep True) w w' ∧ Follows
        { i with world := i.world.ingest commitFault syncFault data chain head } w' :=
    fun heq => ⟨w, .refl, h.engine.trans (heq.symm.trans hingest.symm), h.tables⟩
  rw [Db.prepareIngest] at hprep
  cases hcheck : i.world.db.checkIngest data chain head with
  | error e =>
    rw [hcheck] at hprep
    cases hprep
    exact hsame rfl
  | ok checked =>
    obtain ⟨fork, recovery, tables⟩ := checked
    obtain ⟨-, hfork, rfl, htables⟩ := Db.checkIngest_steps hcheck
    rw [hcheck] at hprep
    dsimp only at hprep
    rw [Db.ingestTables] at hprep
    cases fork with
    | some p =>
      split at hprep
      · next hroll =>
        cases hprep
        rcases Db.rollbackEngine_failed hroll with rfl | hsome
        · exact hsame rfl
        · rw [hpoisoned] at hsome
          cases hsome
      · dsimp only at hprep
        split at hprep
        · -- the blocks above the fork are gone, so the instance is poisoned
          rw [Db.failIngest, if_pos Option.isSome_some] at hprep
          cases hprep
          cases hpoisoned
        · cases hprep
    | none =>
      cases hlatest : i.world.db.engine.latestBlock with
      | none =>
        obtain ⟨e, he⟩ := hfirst hlatest
        rw [hcheck] at he
        cases he
      | some latest =>
        rw [Db.rollbackFork] at hprep
        dsimp only at hprep
        split at hprep
        · next e₁ writes₁ e hproc =>
          have hproc : Db.processTables i.world.store (Db.inputBlocks tables) i.world.db.engine
              = (e₁, writes₁, .error e) := hproc
          rw [← h.engine] at hproc hlatest
          have habove : ∀ t ∈ Db.inputBlocks tables, latest < t.2.1 := by
            intro t ht
            apply Db.groupInputRows_above htables t ht
            rw [← h.engine]
            exact hlatest
          obtain ⟨w₁, table, block, rows, writes', latest', hrun, hnew, hbatch, hlatest₁, hle,
            hblock, hfinal, hkeep⟩ := processTables_failed
              (Db.inputBlocks_sorted (Db.groupInputRows_nodup htables))
              (fun t ht b hb => by
                obtain ⟨latest'', hlatest'', hle⟩ := hi.reached t.1 b hb
                rw [hlatest] at hlatest''
                cases hlatest''
                exact UInt64.lt_of_le_of_lt hle (habove t ht))
              habove hlatest (UInt64.le_refl latest) (finalBelow_latest hi hlatest) hproc
          rw [Db.failIngest, if_neg (by simp)] at hprep
          split at hprep
          · next e₂ hundo =>
            cases hprep
            have hundo : e₁.undoIngest i.world.store
                (i.world.db.pending.map PendingAck.writeBatch) (some latest)
                = (e₂, .ok ()) := by
              rw [← h.engine] at hundo
              have hor : Option.or none w.engine.latestBlock = some latest := hlatest
              rw [← hor]
              exact hundo
            refine ⟨_, hrun.tail (.failed i.world.store table block rows i.world.store _ hnew
              hbatch hlatest₁ hle hblock hfinal hundo), hingest.symm, ?_⟩
            show (fun t => OrdMap.keep (w₁.tables t) (· ≤ latest)) = i.rows
            rw [← h.tables]
            funext t
            rw [hkeep, tables_keep hi hlatest]
          · cases hprep
            cases hpoisoned
        · cases hprep

/-- A fork. -/
theorem Follows.handleFork (h : i.Follows w) {commitFault syncFault : Outcome}
    {chain : List BlockCursor} {db₁ : Db PipelineEngine} {cursor : BlockCursor}
    {writes : WriteBatch} {batch : Option ChangeBatch}
    (hprep : i.world.db.prepareFork i.world.store chain = (db₁, .ok (cursor, writes, batch))) :
    ∃ w', Relation.ReflTransGen (PipelineStep True) w w' ∧ Follows
      { world := i.world.handleFork commitFault syncFault chain
        rows := Db.cutBlocks (some cursor.number) i.rows } w' := by
  have hcall : ∃ n, (i.world.handleFork commitFault syncFault chain).db.engine
      = { db₁.engine with committedCheckpoint := n } := by
    obtain ⟨n, hn⟩ := db₁.finishCall_engine i.world.store commitFault syncFault writes batch
      "heartbeat handle_fork"
    refine ⟨n, ?_⟩
    rw [← hn]
    show (i.world.db.handleFork i.world.store commitFault syncFault chain).1.engine = _
    rw [Db.handleFork, hprep]
    dsimp only
    split <;> (next hr => rw [hr])
  rw [Db.prepareFork] at hprep
  split at hprep
  · cases hprep
  · split at hprep
    · cases hprep
    · dsimp only at hprep
      split at hprep
      · cases hprep
      · next cursor' hcursor =>
        split at hprep
        · cases hprep
        · next db₂ writes₂ changes₂ hroll =>
          have hmatch := (SettleEngine.resolve_some hcursor).2.1
          have hroll : i.world.db.rollbackFork i.world.store (some cursor'.number)
              = (db₂, writes₂, .ok changes₂) := hroll
          obtain ⟨w₁, hrun, hengine, htables, -, -⟩ := rollbackFork_run h.engine
            (fun p hp => by cases hp; exact ⟨hmatch.1, hmatch.2.1⟩) hroll
          rw [appendMetaToBatch_marks] at hprep
          cases hprep
          have h₁ := hrun.tail (.setRollbackChain (Db.sortDesc (Db.cursors chain)))
          have h₂ := h₁.tail .takeHashChanges
          obtain ⟨w₂, hstep, hfollows⟩ := Follows.committed
            (w := { w₁ with
              engine := (w₁.engine.setRollbackChain
                (Db.sortDesc (Db.cursors chain))).takeHashChanges.1 })
            (j := { world := i.world.handleFork commitFault syncFault chain
                    rows := Db.cutBlocks (some cursor.number) i.rows }) (by
              dsimp only
              rw [hengine]
              rfl) hcall (by
              dsimp only
              rw [htables, h.tables])
          exact ⟨w₂, h₂.tail hstep, hfollows⟩

omit [NodeBuild PipelineReducer PipelineView] in
/-- A fork that is refused. -/
theorem Follows.forkRefused (h : i.Follows w) {commitFault syncFault : Outcome}
    {chain : List BlockCursor} {db₁ : Db PipelineEngine} {err : Error}
    (hprep : i.world.db.prepareFork i.world.store chain = (db₁, .error err))
    (hpoisoned : db₁.poisoned = none) :
    Follows { i with world := i.world.handleFork commitFault syncFault chain } w := by
  refine ⟨?_, h.tables⟩
  show w.engine = (i.world.db.handleFork i.world.store commitFault syncFault chain).1.engine
  rw [Db.handleFork, hprep, h.engine]
  rcases (Db.prepareFork_failed hprep).2 with rfl | hsome
  · rfl
  · rw [hpoisoned] at hsome
    cases hsome

/-- An ack. -/
theorem Follows.ack (h : i.Follows w) (faults : List Outcome) (syncFault : Outcome)
    (sequence : Nat) : ∃ w', Relation.ReflTransGen (PipelineStep True) w w' ∧
      Follows { i with world := i.world.ack faults syncFault sequence } w' := by
  obtain ⟨w', hstep, hfollows⟩ := Follows.committed
    (j := { i with world := i.world.ack faults syncFault sequence }) h.engine
    (i.world.db.ack_engine i.world.store faults syncFault sequence).1 h.tables
  exact ⟨w', .tail .refl hstep, hfollows⟩

end Instance

/-- **A call is a run of the pipeline.** -/
theorem InstanceStep.follow [ViewStorage] [NodeBuild PipelineReducer PipelineView]
    {i i' : Instance} {w : PipelineWorld} {schema : Schema} (hstep : InstanceStep i i')
    (h : i.Follows w) (hi : PipelineInv schema w) :
    ∃ w', Relation.ReflTransGen (PipelineStep True) w w' ∧ i'.Follows w' := by
  cases hstep with
  | ingest commitFault syncFault data chain head hcheck hprep hmax hfits =>
    exact h.ingest hi hcheck hprep hmax hfits
  | ingestRefused commitFault syncFault data chain head hprep hpoisoned hfirst =>
    exact h.ingestRefused hi hprep hpoisoned hfirst
  | handleFork commitFault syncFault chain hprep => exact h.handleFork hprep
  | forkRefused commitFault syncFault chain hprep hpoisoned =>
    exact ⟨w, .refl, h.forkRefused hprep hpoisoned⟩
  | ack faults syncFault sequence => exact h.ack faults syncFault sequence

/-- A run of an instance is a run of its pipeline. -/
theorem Instance.follow [ViewStorage] [NodeBuild PipelineReducer PipelineView]
    {i i' : Instance} {w : PipelineWorld} {schema : Schema} (hvalid : schema.validate = .ok ())
    (hrun : Relation.ReflTransGen InstanceStep i i') (h : i.Follows w)
    (hi : PipelineFold schema w) :
    ∃ w', Relation.ReflTransGen (PipelineStep True) w w' ∧ i'.Follows w' := by
  induction hrun with
  | refl => exact ⟨w, .refl, h⟩
  | tail _ hstep ih =>
    obtain ⟨w₁, hrun₁, hfollows⟩ := ih
    obtain ⟨w₂, hrun₂, hfollows'⟩ := hstep.follow hfollows (hi.run hvalid hrun₁).base
    exact ⟨w₂, hrun₁.trans hrun₂, hfollows'⟩

/-- **An instance is a function of its rows.** Take an instance on a new engine of an accepted
schema, on storage without state of its reducers, and any calls that leave it in order: ingests that
are accepted, with the fork that they find, ingests that are refused and undone, forks, and acks,
with any answer of storage. In the state that it reaches, a reducer of a table has in each group the
fold of the rows that stand, and no row is of a group that it does not have. A view without a window
of a table has the folds of these rows in its groups, one below a reducer of a table those of what
the body emits along them, and a group that is not there has no data of them. -/
theorem instance_is_a_function_of_its_rows [ViewStorage] [NodeBuild PipelineReducer PipelineView]
    (hbuild : BuildsSources PipelineReducer PipelineView) {schema : Schema} {opened : Store}
    {rayon : Bool} {x₀ : World PipelineEngine} (hvalid : schema.validate = .ok ())
    (hviews : ∀ {d types} {v : PipelineView},
      NodeBuild.newView PipelineReducer d opened types = .ok v → v.engine = {})
    (hreducers : ∀ {d registry modules} {r : PipelineReducer},
      NodeBuild.newReducer PipelineView d opened registry modules = .ok r →
        opened.lacks r.shape ∧ r.engine = .new r.shape opened)
    (hnew : SettleEngine.new schema opened rayon = .ok x₀.db.engine) {i : Instance}
    (hrun : Relation.ReflTransGen InstanceStep { world := x₀ } i) :
    (∀ (name : String) (r : PipelineReducer), i.world.db.engine.nodes.reducers[name]? = some r →
      r.shape.source ∈ schema.tableNames →
      (∀ k id, r.engine.ids[k]? = some id → ∃ g : ReducerGroup, r.engine.all[id]? = some g ∧
        g.key = k ∧ g.state = (r.shape.fold (i.rows r.shape.source) k).values ∧
        ∀ mk, g.maps.entries[mk]? = (r.shape.fold (i.rows r.shape.source) k).maps mk) ∧
      (∀ k, r.engine.ids[k]? = none → ∀ (b : BlockNumber) (rows : List Row),
        (i.rows r.shape.source)[b]? = some rows → r.shape.ownRows rows k = []) ∧
      ∀ (view : String) (v : PipelineView), i.world.db.engine.nodes.mvs[view]? = some v →
        v.shape.source = name → v.shape.slidingWindow = none →
        (∀ key g, v.engine.groups[key]? = some g →
          g.aggs.map Agg.currentValue
            = v.shape.foldGroup (r.shape.emits (i.rows r.shape.source)) key) ∧
        ∀ key, v.engine.groups[key]? = none →
          v.shape.foldHasData (r.shape.emits (i.rows r.shape.source)) key = false) ∧
    ∀ (view : String) (v : PipelineView), i.world.db.engine.nodes.mvs[view]? = some v →
      v.shape.source ∈ schema.tableNames → v.shape.slidingWindow = none →
      (∀ key g, v.engine.groups[key]? = some g →
        g.aggs.map Agg.currentValue = v.shape.foldGroup (i.rows v.shape.source) key) ∧
      ∀ key, v.engine.groups[key]? = none →
        v.shape.foldHasData (i.rows v.shape.source) key = false := by
  have hi₀ : PipelineFold schema { engine := x₀.db.engine } :=
    .of_new hbuild hvalid hviews hreducers hnew .refl
  obtain ⟨w, hruns, hfollows⟩ := Instance.follow hvalid hrun
    (w := { engine := x₀.db.engine }) ⟨rfl, rfl⟩ hi₀
  have hi := hi₀.run hvalid hruns
  rw [← hfollows.engine, ← hfollows.tables]
  refine ⟨?_, ?_⟩
  · intro name r hr htable
    obtain ⟨hgroups, habsent⟩ := (hi.reducers name r hr htable).groups
    refine ⟨hgroups, habsent, ?_⟩
    intro view v hv hsource hwindow
    obtain ⟨hfold, hdata, -⟩ := hi.below hr htable hv hsource hwindow
    exact ⟨hfold, hdata⟩
  · intro view v hv htable hwindow
    have hsource : w.engine.nodes.sourceOf (.mv view) = some v.shape.source := by
      rw [Nodes.sourceOf, hv]
      rfl
    obtain ⟨hfold, hdata, -⟩ := (hi.base.views view v hv hwindow).folds hwindow
    rw [hi.base.direct view _ hsource htable] at hfold hdata
    exact ⟨fun key g hg => (hfold key g hg).1, hdata⟩

/-! ### Two blocks and a fork -/

namespace Instance

variable [ViewStorage] [NodeBuild PipelineReducer PipelineView]

/-- An ingest on storage that takes every write, where it is a step. -/
def tryIngest (i : Instance) (data : Db.InputData) (chain : List BlockCursor) (head : BlockCursor) :
    Option Instance :=
  match i.world.db.checkIngest data chain head with
  | .error _ => none
  | .ok (fork, _, tables) =>
    let supplied := Db.cursors (chain ++ [head])
    let rolled := i.world.db.rollbackFork i.world.store fork
    let given := Db.processTables i.world.store (Db.inputBlocks tables) rolled.1.engine
    if (i.world.db.prepareIngest i.world.store data chain head).2.toBool &&
        head.number != BlockNumber.max &&
        [true, false].all fun due =>
          SettleEngine.fits (given.1.takeChanges.1.closing supplied head.number due) then
      some
        { world := i.world.ingest none none data chain head
          rows := Db.addBlocks (Db.inputBlocks tables) (Db.cutBlocks fork i.rows) }
    else none

omit [NodeBuild PipelineReducer PipelineView] in
theorem tryIngest_step {i i' : Instance} {data : Db.InputData} {chain : List BlockCursor}
    {head : BlockCursor} (h : i.tryIngest data chain head = some i') : InstanceStep i i' := by
  rw [tryIngest] at h
  split at h
  · cases h
  · next fork recovery tables hcheck =>
    dsimp only at h
    split at h
    · next hok =>
      cases h
      simp only [Bool.and_eq_true, bne_iff_ne, List.all_cons, List.all_nil, Bool.and_true] at hok
      obtain ⟨⟨hprep, hmax⟩, hdue, hnotDue⟩ := hok
      obtain ⟨⟨writes, batch⟩, hprep⟩ := ok_of_toBool hprep
      refine .ingest none none data chain head hcheck (Prod.ext rfl hprep) hmax ?_
      intro db₁ writes₁ changes₁ e₂ writes₂ changes₂ hroll hproc due
      rw [hroll, hproc] at hdue hnotDue
      cases due with
      | true => exact hdue
      | false => exact hnotDue
    · cases h

/-- A fork on storage that takes every write, where it is a step. -/
def tryHandleFork (i : Instance) (chain : List BlockCursor) : Option Instance :=
  match i.world.db.prepareFork i.world.store chain with
  | (_, .error _) => none
  | (_, .ok (cursor, _, _)) => some
      { world := i.world.handleFork none none chain
        rows := Db.cutBlocks (some cursor.number) i.rows }

omit [NodeBuild PipelineReducer PipelineView] in
theorem tryHandleFork_step {i i' : Instance} {chain : List BlockCursor}
    (h : i.tryHandleFork chain = some i') : InstanceStep i i' := by
  rw [tryHandleFork] at h
  split at h
  · cases h
  · next hprep =>
    cases h
    exact .handleFork none none chain hprep

/-- One row of `t`. -/
def rowIn (block x : UInt64) : Db.InputData :=
  .rows ((∅ : FxHashMap String (BTreeMap BlockNumber (List Row))).insert "t"
    ((∅ : BTreeMap BlockNumber (List Row)).insert block
      [{ registry := ⟨["block_number", "x"]⟩, values := [.uint64 block, .uint64 x] }]))

/-- An instance on an engine. -/
def onEngine (e : PipelineEngine) : World PipelineEngine where
  db := { engine := e, maxPendingBatches := 16, backfillCheckpointInterval := 1, stamp := [],
          journal := false }
  store := {}

/-- Blocks 1 and 2, and a fork back to block 1. -/
def forkedRun (e : PipelineEngine) : Option Instance := do
  let first ← tryIngest { world := onEngine e } (rowIn 1 5) [⟨1, "b"⟩] ⟨0, "a"⟩
  let second ← first.tryIngest (rowIn 2 7) [⟨1, "b"⟩, ⟨2, "c"⟩] ⟨0, "a"⟩
  second.tryHandleFork [⟨1, "b"⟩]

omit [NodeBuild PipelineReducer PipelineView] in
theorem forkedRun_steps {e : PipelineEngine} {i : Instance} (h : forkedRun e = some i) :
    Relation.ReflTransGen InstanceStep { world := onEngine e } i := by
  rw [forkedRun] at h
  obtain ⟨first, hfirst, h⟩ := Option.bind_eq_some_iff.mp h
  obtain ⟨second, hsecond, hfork⟩ := Option.bind_eq_some_iff.mp h
  exact ((Relation.ReflTransGen.refl.tail (tryIngest_step hfirst)).tail
    (tryIngest_step hsecond)).tail (tryHandleFork_step hfork)

/-- Block 1 stands in `t`, and view `w` of `t` has one group. -/
def oneBlock (i : Instance) : Bool :=
  (i.rows "t").toList.map Prod.fst == [1] &&
    i.world.db.engine.nodes.mvs["w"]?.any fun v => v.shape.source == "t" &&
      v.shape.slidingWindow.isNone && v.engine.groups.size == 1

end Instance

/-- The view `w` of `t` after that run. -/
theorem instance_is_a_function_of_its_rows_twoBranches :
    letI := noViewStorage
    letI := countingNodes
    ∃ (e₀ : PipelineEngine) (i : Instance) (v : PipelineView),
      SettleEngine.new twoBranches {} true = .ok e₀ ∧
      Relation.ReflTransGen InstanceStep { world := Instance.onEngine e₀ } i ∧
      (i.rows "t").toList.map Prod.fst = [1] ∧ i.world.db.engine.nodes.mvs["w"]? = some v ∧
      v.engine.groups.size = 1 ∧ ∀ key g, v.engine.groups[key]? = some g →
        g.aggs.map Agg.currentValue = v.shape.foldGroup (i.rows "t") key := by
  let := noViewStorage
  let := countingNodes
  have hok : ((SettleEngine.new (R := PipelineReducer) (V := PipelineView) twoBranches {}
      true).toOption.bind Instance.forkedRun).map Instance.oneBlock = some true := by
    decide +kernel
  obtain ⟨i, hi, hone⟩ := Option.map_eq_some_iff.mp hok
  obtain ⟨e₀, hnew, hforked⟩ := Option.bind_eq_some_iff.mp hi
  have hnew : SettleEngine.new (R := PipelineReducer) (V := PipelineView) twoBranches {} true
      = .ok e₀ := by
    cases he : SettleEngine.new (R := PipelineReducer) (V := PipelineView) twoBranches {} true with
    | error err =>
      rw [he] at hnew
      cases hnew
    | ok e =>
      rw [he] at hnew
      cases hnew
      rfl
  rw [Instance.oneBlock, Bool.and_eq_true, Option.any_eq_true] at hone
  obtain ⟨hblocks, v, hv, hview⟩ := hone
  simp only [Bool.and_eq_true, beq_iff_eq, Option.isNone_iff_eq_none] at hblocks hview
  obtain ⟨⟨hsource, hwindow⟩, hsize⟩ := hview
  have hrun := Instance.forkedRun_steps hforked
  refine ⟨e₀, i, v, hnew, hrun, hblocks, hv, hsize, ?_⟩
  have hall := instance_is_a_function_of_its_rows countingNodes_sources twoBranches_valid
    (fun h => by cases h; rfl) (fun h => by cases h; exact ⟨fun k => ⟨by simp, by simp⟩, rfl⟩) hnew
    hrun
  have hfold := (hall.2 "w" v hv (by rw [hsource]; decide) hwindow).1
  rw [hsource] at hfold
  exact hfold

end Settle
