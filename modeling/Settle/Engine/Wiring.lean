import Settle.Engine.BlockLimits
import Settle.Engine.Dataflow
import Settle.Engine.ReducerRuns
import Settle.Schema.Pipeline

/-!
# The wiring of an engine

An engine of an accepted schema keeps its wiring in every call: the pipeline, the branches and the
tables are those of the schema, and each node reads the source of its definition (`Wired`). So in
every state that a run reaches, the parallel way through the branches agrees with the loop over the
pipeline.
-/

namespace Settle

open Std

variable {R V : Type} [ReducerNode R] [ViewNode V]

/-! ## The wiring of an engine -/

/-- The nodes of an engine stand as its schema says: the pipeline is sorted, the branches partition
the views, and each node reads the source of its definition. -/
structure SettleEngine.Wired (e : SettleEngine R V) (schema : Schema) : Prop where
  pipeline : schema.IsPipeline e.pipeline
  branches : schema.IsPartition e.directMvs e.branches
  tables : ∀ table, e.rawTables.contains table → table ∈ schema.tableNames
  sources : ∀ node source, e.nodes.sourceOf node = some source →
    schema.nodeSource node = some source

namespace SettleEngine

variable {e : SettleEngine R V} {schema : Schema}

/-- A table is not a reducer. -/
theorem table_not_mem (hvalid : schema.validate = .ok ()) {pipeline : List PipelineNode}
    (hpipeline : schema.IsPipeline pipeline) {table : String} (htable : table ∈ schema.tableNames) :
    .reducer table ∉ pipeline := by
  obtain ⟨-, -, hnames, -⟩ := Schema.validate_ok.mp hvalid
  obtain ⟨-, -, -, hdisjoint⟩ := Schema.objectNames_nodup (Schema.checkNames_ok.mp hnames).1
  rw [hpipeline.perm.mem_iff, Schema.nodes]
  simpa using hdisjoint table htable

theorem Wired.inOrder (h : e.Wired schema) (hvalid : schema.validate = .ok ()) :
    e.nodes.InOrder e.pipeline := by
  have hspec := h.pipeline
  refine ⟨hspec.nodup, ?_⟩
  intro pre node post hpipe source hsource hin
  have hin : PipelineNode.reducer source ∈ e.pipeline := by
    rw [hpipe]
    exact List.mem_append_right _ hin
  rcases hspec.sorted pre node post hpipe source (h.sources node source hsource) with hpre | hpre
  · have hmem : PipelineNode.rawTable source ∈ e.pipeline := by
      rw [hpipe]
      exact List.mem_append_left _ hpre
    rw [hspec.perm.mem_iff, Schema.nodes] at hmem
    exact table_not_mem hvalid hspec (by simpa using hmem) hin
  · have hnodup := hspec.nodup
    rw [hpipe] at hnodup
    exact (List.nodup_append.mp hnodup).2.2 _ hpre _ ‹_› rfl

/-- The direct views and the nodes of the branches are the reducers and the views. -/
theorem branchNodes_perm {direct : List String} {branches : List (String × List String)}
    (h : schema.IsPartition direct branches) :
    (direct.map PipelineNode.mv ++ Nodes.branchNodes branches).Perm
      (schema.reducerNames.map .reducer ++ (schema.materializedViews.map MVDef.name).map .mv) := by
  have hsplit : ∀ branches : List (String × List String), (Nodes.branchNodes branches).Perm
      ((branches.map Prod.fst).map PipelineNode.reducer ++
        (branches.flatMap Prod.snd).map PipelineNode.mv) := by
    intro branches
    induction branches with
    | nil => exact List.Perm.refl _
    | cons branch branches ih =>
      rw [Nodes.branchNodes, List.flatMap_cons, ← Nodes.branchNodes, List.flatMap_cons,
        List.map_append, List.map_cons, List.map_cons, List.cons_append, List.cons_append]
      exact ((List.Perm.append_left _ ih).trans (List.perm_append_comm_assoc ..)).cons _
  refine (List.Perm.append_left _ (hsplit branches)).trans ?_
  refine (List.perm_append_comm_assoc ..).trans ?_
  rw [← List.map_append]
  exact (h.reducers.map _).append (h.once.map _)

theorem Wired.flat (h : e.Wired schema) (hvalid : schema.validate = .ok ())
    (hparallel : e.parallelBranches = true) :
    e.nodes.Flat e.pipeline e.directMvs e.branches := by
  have hpart := h.branches
  have hperm := branchNodes_perm hpart
  obtain ⟨-, -, hnames, -⟩ := Schema.validate_ok.mp hvalid
  have hnodup := (Schema.checkNames_ok.mp hnames).1
  obtain ⟨-, -, hviews, -⟩ := Schema.objectNames_nodup hnodup
  have hnodes := Schema.nodes_nodup hnodup
  rw [Schema.nodes, List.append_assoc] at hnodes
  -- a view has the source of its definition
  have hsource : ∀ view source, e.nodes.sourceOf (.mv view) = some source →
      ∀ mv ∈ schema.materializedViews, mv.name = view → mv.source = source := by
    intro view source hsource mv hmv hname
    have h₁ : schema.mvSource view = some source := h.sources _ _ hsource
    have h₂ : schema.mvSource view = some mv.source :=
      (Schema.mvSource_iff hviews).mpr ⟨mv, hmv, hname, rfl⟩
    rw [h₂] at h₁
    exact Option.some.inj h₁
  refine ⟨hperm.nodup_iff.mpr (List.nodup_append.mp hnodes).2.1, ?_, ?_, ?_, ?_⟩
  · intro node
    rw [hperm.mem_iff, h.pipeline.perm.mem_iff, Schema.nodes]
    cases node with
    | rawTable table => simp
    | reducer name => simp
    | mv name => simp
  · intro branch hbranch source hsource
    apply table_not_mem hvalid h.pipeline
    apply h.tables
    unfold parallelBranches at hparallel
    have hall := List.all_eq_true.mp (Bool.and_eq_true_iff.mp hparallel).2 branch hbranch
    rw [Nodes.sourceOf] at hsource
    obtain ⟨r, hr, rfl⟩ := Option.map_eq_some_iff.mp hsource
    rw [hr] at hall
    exact (Bool.and_eq_true_iff.mp hall).1
  · intro view hview source hsrc
    obtain ⟨mv, hmv, hname, htable⟩ := (hpart.directViews view).mp hview
    rw [← hsource view source hsrc mv hmv hname]
    exact table_not_mem hvalid h.pipeline htable
  · intro branch hbranch view hview source hsrc
    obtain ⟨mv, hmv, hname, hbranchSource⟩ := (hpart.branch _ _ hbranch view).mp hview
    rw [← hsource view source hsrc mv hmv hname, hbranchSource]

/-- The rows of a batch are those of its table. -/
theorem Wired.getElem?_batch (h : e.Wired schema) (hvalid : schema.validate = .ok ())
    {table : String} (htable : table ∈ schema.tableNames) (rows : List Row) (name : String)
    (hname : .reducer name ∈ e.pipeline) :
    ((∅ : Nodes.OutputRows).insert table rows)[name]? = none := by
  have hne : table ≠ name := by
    intro heq
    exact table_not_mem hvalid h.pipeline htable (heq ▸ hname)
  rw [ExtTreeMap.getElem?_insert, if_neg (by simpa using hne), ExtTreeMap.getElem?_empty]

end SettleEngine

/-! ## Calls keep the wiring -/

/-- The calls to a node keep its source. -/
class KeepsSource (R V : Type) [ReducerNode R] [ViewNode V] : Prop where
  processBlock : ∀ (r : R) store block rows,
    ReducerNode.source (ReducerNode.processBlock r store block rows).1 = ReducerNode.source r
  rollback : ∀ (r : R) block, ReducerNode.source (ReducerNode.rollback r block)
    = ReducerNode.source r
  reload : ∀ (r : R) store, ReducerNode.source (ReducerNode.reload r store) = ReducerNode.source r
  advanceFinality : ∀ (r : R) block,
    ReducerNode.source (ReducerNode.advanceFinality r block) = ReducerNode.source r
  writeCheckpoint : ∀ (r : R) finalized checkpoint,
    ReducerNode.source (ReducerNode.writeCheckpoint r finalized checkpoint).1
      = ReducerNode.source r
  evict : ∀ (r : R) cap committed, ReducerNode.source (ReducerNode.evict r cap committed)
    = ReducerNode.source r
  applyRows : ∀ (v : V) store block rows,
    ViewNode.source (ViewNode.applyRows v store block rows).1 = ViewNode.source v
  takeChanges : ∀ v : V, ViewNode.source (ViewNode.takeChanges v).1 = ViewNode.source v
  discardChanges : ∀ v : V, ViewNode.source (ViewNode.discardChanges v) = ViewNode.source v
  rollbackView : ∀ (v : V) block, ViewNode.source (ViewNode.rollback v block).1
    = ViewNode.source v
  reloadView : ∀ (v : V) store, ViewNode.source (ViewNode.reload v store).1 = ViewNode.source v
  advanceFinalityView : ∀ (v : V) block,
    ViewNode.source (ViewNode.advanceFinality v block) = ViewNode.source v
  writeCheckpointView : ∀ (v : V) checkpoint,
    ViewNode.source (ViewNode.writeCheckpoint v checkpoint).1 = ViewNode.source v
  evictView : ∀ (v : V) cap committed, ViewNode.source (ViewNode.evict v cap committed)
    = ViewNode.source v

instance [ViewStorage] : KeepsSource PipelineReducer PipelineView where
  processBlock _ _ _ _ := rfl
  rollback _ _ := rfl
  reload _ _ := rfl
  advanceFinality _ _ := rfl
  writeCheckpoint _ _ _ := rfl
  evict _ _ _ := rfl
  applyRows _ _ _ _ := rfl
  takeChanges _ := rfl
  discardChanges _ := rfl
  rollbackView _ _ := rfl
  reloadView v store := by
    dsimp only [ViewNode.reload]
    split <;> rfl
  advanceFinalityView _ _ := rfl
  writeCheckpointView _ _ := rfl
  evictView _ _ _ := rfl

/-- What is built of a definition reads the source of the definition, and a replay keeps it. -/
structure BuildsSources (R V : Type) [ReducerNode R] [ViewNode V] [NodeBuild R V] : Prop where
  newReducer : ∀ {d : ReducerDef} {store registry modules} {r : R},
    NodeBuild.newReducer V d store registry modules = .ok r → ReducerNode.source r = d.source
  newChained : ∀ {d : ReducerDef} {store modules} {r : R},
    NodeBuild.newChained V d store modules = .ok r → ReducerNode.source r = d.source
  newView : ∀ {d : MVDef} {store types} {v : V},
    NodeBuild.newView R d store types = .ok v → ViewNode.source v = d.source
  replayBlock : ∀ {v v' : V} {store block rows},
    NodeBuild.replayBlock R v store block rows = .ok v' → ViewNode.source v' = ViewNode.source v

namespace Nodes

variable {nodes : Nodes R V} {store : Store} {block : BlockNumber}

theorem sourceOf_insertReducer {name : String} {r r' : R} (hr : nodes.reducers[name]? = some r)
    (hsource : ReducerNode.source r' = ReducerNode.source r) :
    ({ nodes with reducers := nodes.reducers.insert name r' } : Nodes R V).sourceOf
      = nodes.sourceOf := by
  funext node
  cases node with
  | rawTable _ => rfl
  | mv _ => rfl
  | reducer other =>
    rw [sourceOf, sourceOf]
    dsimp only
    rw [ExtTreeMap.getElem?_insert]
    by_cases hother : name = other
    · subst hother
      simp [hr, hsource]
    · simp [hother]

theorem sourceOf_insertMv {name : String} {v v' : V} (hv : nodes.mvs[name]? = some v)
    (hsource : ViewNode.source v' = ViewNode.source v) :
    ({ nodes with mvs := nodes.mvs.insert name v' } : Nodes R V).sourceOf = nodes.sourceOf := by
  funext node
  cases node with
  | rawTable _ => rfl
  | reducer _ => rfl
  | mv other =>
    rw [sourceOf, sourceOf]
    dsimp only
    rw [ExtTreeMap.getElem?_insert]
    by_cases hother : name = other
    · subst hother
      simp [hv, hsource]
    · simp [hother]

variable [KeepsSource R V]

theorem processReducer_sourceOf (store : Store) (block : BlockNumber) (nodes : Nodes R V)
    (name : String) (rows : OutputRows) :
    (nodes.processReducer store block name rows).1.sourceOf = nodes.sourceOf := by
  rw [processReducer]
  split
  · rfl
  · next r hr =>
    split
    · rfl
    · exact sourceOf_insertReducer hr (KeepsSource.processBlock V r _ _ _)

theorem processMv_sourceOf (store : Store) (block : BlockNumber) (nodes : Nodes R V)
    (name : String) (rows : OutputRows) :
    (nodes.processMv store block name rows).1.sourceOf = nodes.sourceOf := by
  rw [processMv]
  split
  · rfl
  · next v hv =>
    split
    · rfl
    · exact sourceOf_insertMv hv (KeepsSource.applyRows R v _ _ _)

theorem processSequential_sourceOf (pipeline : List PipelineNode) (nodes : Nodes R V)
    (rows : OutputRows) :
    (processSequential store block pipeline nodes rows).1.sourceOf = nodes.sourceOf := by
  induction pipeline generalizing nodes rows with
  | nil => rfl
  | cons node rest ih =>
    cases node with
    | rawTable _ => exact ih nodes rows
    | reducer name =>
      have hstep := processReducer_sourceOf store block nodes name rows
      rw [processSequential]
      split
      · next hr =>
        rw [hr] at hstep
        exact hstep
      · next hr =>
        rw [hr] at hstep
        exact (ih _ _).trans hstep
    | mv name =>
      have hstep := processMv_sourceOf store block nodes name rows
      rw [processSequential]
      split
      · next hr =>
        rw [hr] at hstep
        exact hstep
      · next hr =>
        rw [hr] at hstep
        exact (ih _ _).trans hstep

theorem processMvs_sourceOf (store : Store) (block : BlockNumber) (views : List String)
    (nodes : Nodes R V) (rows : OutputRows) :
    (processMvs store block rows views nodes).1.sourceOf = nodes.sourceOf := by
  induction views generalizing nodes with
  | nil => rfl
  | cons view views ih =>
    have hstep := processMv_sourceOf store block nodes view rows
    rw [processMvs]
    split
    · next hr =>
      rw [hr] at hstep
      exact hstep
    · next hr =>
      rw [hr] at hstep
      exact (ih _).trans hstep

theorem processBranch_sourceOf (branch : String × List String) (nodes : Nodes R V)
    (rows : OutputRows) :
    (processBranch store block rows branch nodes).1.sourceOf = nodes.sourceOf := by
  have hstep := processReducer_sourceOf store block nodes branch.1 rows
  rw [processBranch]
  split
  · next hr =>
    rw [hr] at hstep
    exact hstep
  · next hr =>
    rw [hr] at hstep
    split
    · exact hstep
    · exact (processMvs_sourceOf ..).trans hstep

theorem processBranches_sourceOf (branches : List (String × List String)) (nodes : Nodes R V)
    (rows : OutputRows) :
    (processBranches store block rows branches nodes).1.sourceOf = nodes.sourceOf := by
  induction branches generalizing nodes with
  | nil => rfl
  | cons branch branches ih =>
    rw [processBranches]
    exact (ih _).trans (processBranch_sourceOf branch nodes rows)

theorem processParallel_sourceOf (direct : List String) (branches : List (String × List String))
    (nodes : Nodes R V) (rows : OutputRows) :
    (processParallel store block direct branches rows nodes).1.sourceOf = nodes.sourceOf := by
  have hstep := processMvs_sourceOf store block direct nodes rows
  rw [processParallel]
  split
  · next hr =>
    rw [hr] at hstep
    exact hstep
  · next hr =>
    rw [hr] at hstep
    exact (processBranches_sourceOf ..).trans hstep

omit [KeepsSource R V] in
theorem stepNodes_sourceOf {reducer : R → R × WriteBatch} {mv : V → V × WriteBatch}
    (hr : ∀ r, ReducerNode.source (reducer r).1 = ReducerNode.source r)
    (hv : ∀ v, ViewNode.source (mv v).1 = ViewNode.source v) (order : List PipelineNode)
    (nodes : Nodes R V) : (stepNodes reducer mv order nodes).1.sourceOf = nodes.sourceOf := by
  induction order generalizing nodes with
  | nil => rfl
  | cons node rest ih =>
    rw [stepNodes]
    refine (ih _).trans ?_
    cases node with
    | rawTable _ => rfl
    | reducer name =>
      rw [stepNode]
      split
      · rfl
      · next r hget => exact sourceOf_insertReducer hget (hr r)
    | mv name =>
      rw [stepNode]
      split
      · rfl
      · next v hget => exact sourceOf_insertMv hget (hv v)

/-- A replay of a block keeps the sources. -/
theorem replayTableBlock_sourceOf [NodeBuild R V] (hbuild : BuildsSources R V)
    (onlyNodes : Option (List String)) (pipeline : List PipelineNode) {nodes nodes' : Nodes R V}
    {rows : OutputRows}
    (h : replayTableBlock store block onlyNodes pipeline nodes rows = .ok nodes') :
    nodes'.sourceOf = nodes.sourceOf := by
  induction pipeline generalizing nodes rows with
  | nil =>
    cases h
    rfl
  | cons node rest ih =>
    cases node with
    | rawTable _ => exact ih h
    | reducer name =>
      have hstep := processReducer_sourceOf store block nodes name rows
      rw [replayTableBlock] at h
      split at h
      · exact ih h
      · split at h
        · exact ih h
        · split at h
          · cases h
          · next hr =>
            rw [hr] at hstep
            exact (ih h).trans hstep
    | mv name =>
      rw [replayTableBlock] at h
      split at h
      · exact ih h
      · split at h
        · exact ih h
        · next v hv =>
          split at h
          · exact ih h
          · cases hreplay : NodeBuild.replayBlock R v store block _ with
            | error e =>
              rw [hreplay] at h
              cases h
            | ok v' =>
              rw [hreplay] at h
              exact (ih h).trans (sourceOf_insertMv hv (hbuild.replayBlock hreplay))

end Nodes

/-! ### The engine -/

namespace SettleEngine

/-- The wiring of two engines is the same. -/
structure SameWiring (e e' : SettleEngine R V) : Prop where
  pipeline : e'.pipeline = e.pipeline
  directMvs : e'.directMvs = e.directMvs
  branches : e'.branches = e.branches
  rawTables : e'.rawTables = e.rawTables
  sources : e'.nodes.sourceOf = e.nodes.sourceOf

variable {e e' e'' : SettleEngine R V} {schema : Schema}

theorem SameWiring.refl (e : SettleEngine R V) : e.SameWiring e := ⟨rfl, rfl, rfl, rfl, rfl⟩

theorem SameWiring.trans (h : e.SameWiring e') (h' : e'.SameWiring e'') : e.SameWiring e'' :=
  ⟨h'.pipeline.trans h.pipeline, h'.directMvs.trans h.directMvs, h'.branches.trans h.branches,
    h'.rawTables.trans h.rawTables, h'.sources.trans h.sources⟩

theorem SameWiring.of_nodes {nodes : Nodes R V} (h : nodes.sourceOf = e.nodes.sourceOf) :
    e.SameWiring { e with nodes := nodes } :=
  ⟨rfl, rfl, rfl, rfl, h⟩

theorem Wired.of_same (h : e.Wired schema) (hsame : e.SameWiring e') : e'.Wired schema := by
  refine ⟨hsame.pipeline ▸ h.pipeline, ?_, ?_, ?_⟩
  · rw [hsame.directMvs, hsame.branches]
    exact h.branches
  · intro table
    rw [hsame.rawTables]
    exact h.tables table
  · intro node source
    rw [hsame.sources]
    exact h.sources node source

variable [KeepsSource R V]

theorem processBatchDeferred_wiring (e : SettleEngine R V) (store : Store) (table : String)
    (block : BlockNumber) (rows : List Row) :
    e.SameWiring (e.processBatchDeferred store table block rows).1 := by
  rw [processBatchDeferred]
  split
  · exact .refl e
  · dsimp only
    have hsources : (if e.parallelBranches then
        Nodes.processParallel store block e.directMvs e.branches
          ((∅ : Nodes.OutputRows).insert table rows) e.nodes
        else Nodes.processSequential store block e.pipeline e.nodes
          ((∅ : Nodes.OutputRows).insert table rows)).1.sourceOf = e.nodes.sourceOf := by
      split
      · exact Nodes.processParallel_sourceOf ..
      · exact Nodes.processSequential_sourceOf ..
    split
    · next hr =>
      rw [hr] at hsources
      exact .of_nodes hsources
    · next hr =>
      rw [hr] at hsources
      exact ⟨rfl, rfl, rfl, rfl, hsources⟩

theorem unwindNodes_sourceOf (e : SettleEngine R V) (store : Store) (pending : List WriteBatch)
    (forkPoint : BlockNumber) (order : List PipelineNode) (nodes : Nodes R V) :
    (e.unwindNodes store pending forkPoint order nodes).1.sourceOf = nodes.sourceOf := by
  induction order generalizing nodes with
  | nil => rfl
  | cons node rest ih =>
    cases node with
    | rawTable name =>
      rw [unwindNodes]
      split
      · exact ih nodes
      · split
        · rfl
        · have := ih nodes
          split <;> (next hr => rw [hr] at this; exact this)
    | reducer name =>
      rw [unwindNodes]
      split
      · exact ih nodes
      · next r hr =>
        exact (ih _).trans (Nodes.sourceOf_insertReducer hr (KeepsSource.rollback V r forkPoint))
    | mv name =>
      rw [unwindNodes]
      split
      · exact ih nodes
      · next v hv =>
        have := (ih _).trans
          (Nodes.sourceOf_insertMv hv (KeepsSource.rollbackView R v forkPoint))
        dsimp only
        split <;> (next hr => rw [hr] at this; exact this)

theorem unwindTo_wiring (e : SettleEngine R V) (store : Store) (pending : List WriteBatch)
    (forkPoint : BlockNumber) : e.SameWiring (e.unwindTo store pending forkPoint).1 := by
  have hsources := unwindNodes_sourceOf e store pending forkPoint e.pipeline.reverse e.nodes
  rw [unwindTo]
  split <;> (next hr => rw [hr] at hsources; exact ⟨rfl, rfl, rfl, rfl, hsources⟩)

theorem rollbackToBatch_wiring (e : SettleEngine R V) (store : Store)
    (pending : List WriteBatch) (forkPoint : BlockNumber) :
    e.SameWiring (e.rollbackToBatch store pending forkPoint).1 := by
  have hunwind := unwindTo_wiring e store pending forkPoint
  rw [rollbackToBatch]
  split
  · exact .refl e
  · split
    · exact .refl e
    · split
      · next hr =>
        rw [hr] at hunwind
        exact hunwind
      · next hr =>
        rw [hr] at hunwind
        exact hunwind.trans ⟨rfl, rfl, rfl, rfl, rfl⟩

theorem reloadNodes_sourceOf (store : Store) (order : List PipelineNode) (nodes : Nodes R V) :
    (reloadNodes store order nodes).1.sourceOf = nodes.sourceOf := by
  induction order generalizing nodes with
  | nil => rfl
  | cons node rest ih =>
    cases node with
    | rawTable _ => exact ih nodes
    | reducer name =>
      rw [reloadNodes]
      split
      · exact ih nodes
      · next r hr =>
        exact (ih _).trans (Nodes.sourceOf_insertReducer hr (KeepsSource.reload V r store))
    | mv name =>
      rw [reloadNodes]
      split
      · exact ih nodes
      · next v hv =>
        have hinsert := Nodes.sourceOf_insertMv hv (KeepsSource.reloadView R v store)
        dsimp only
        split
        · exact hinsert
        · exact (ih _).trans hinsert

theorem discardChanges_wiring (e : SettleEngine R V) : e.SameWiring e.discardChanges :=
  .of_nodes (Nodes.stepNodes_sourceOf (fun _ => rfl) (KeepsSource.discardChanges R) _ _)

theorem undoIngest_wiring (e : SettleEngine R V) (store : Store) (pending : List WriteBatch)
    (block : Option BlockNumber) : e.SameWiring (e.undoIngest store pending block).1 := by
  refine e.discardChanges_wiring.trans ?_
  unfold undoIngest
  generalize e.discardChanges = e
  dsimp only
  split
  · have hsources := reloadNodes_sourceOf store e.nodeOrder e.nodes
    split <;> (next hr => rw [hr] at hsources; exact ⟨rfl, rfl, rfl, rfl, hsources⟩)
  · next block =>
    split
    · exact .refl e
    · have hunwind := unwindTo_wiring e store pending block
      split <;> (next hr => rw [hr] at hunwind; exact hunwind)

theorem takeChangesOf_sourceOf (views : List String) (nodes : Nodes R V) :
    (takeChangesOf views nodes).1.sourceOf = nodes.sourceOf := by
  induction views generalizing nodes with
  | nil => rfl
  | cons view views ih =>
    rw [takeChangesOf]
    split
    · exact ih nodes
    · next v hv =>
      exact (ih _).trans (Nodes.sourceOf_insertMv hv (KeepsSource.takeChanges R v))

theorem advanceFinality_wiring (e : SettleEngine R V) (block : BlockNumber) :
    e.SameWiring (e.advanceFinality block) := by
  rw [advanceFinality]
  split
  · exact .refl e
  · exact ⟨rfl, rfl, rfl, rfl, Nodes.stepNodes_sourceOf
      (fun r => KeepsSource.advanceFinality V r block)
      (fun v => KeepsSource.advanceFinalityView R v block) _ _⟩

omit [KeepsSource R V] in
theorem purgeRawRows_wiring (e : SettleEngine R V) : e.SameWiring e.purgeRawRows.1 := by
  rw [purgeRawRows]
  split
  · exact .refl e
  · dsimp only
    split
    · split
      · exact .refl e
      · exact ⟨rfl, rfl, rfl, rfl, rfl⟩
    · exact ⟨rfl, rfl, rfl, rfl, rfl⟩

theorem writeCheckpoint_wiring (e : SettleEngine R V) : e.SameWiring e.writeCheckpoint.1 := by
  rw [writeCheckpoint]
  split
  · exact .refl e
  · dsimp only
    refine SameWiring.trans ?_ ((purgeRawRows_wiring _).trans ⟨rfl, rfl, rfl, rfl, rfl⟩)
    exact ⟨rfl, rfl, rfl, rfl, Nodes.stepNodes_sourceOf
      (fun r => KeepsSource.writeCheckpoint V r _ _)
      (fun v => KeepsSource.writeCheckpointView R v _) _ _⟩

theorem evictGroups_wiring (e : SettleEngine R V) : e.SameWiring e.evictGroups :=
  .of_nodes (Nodes.stepNodes_sourceOf (fun r => KeepsSource.evict V r _ _)
    (fun v => KeepsSource.evictView R v _ _) _ _)

omit [KeepsSource R V] in
theorem setRollbackChain_wiring (e : SettleEngine R V) (chain : List (BlockNumber × String)) :
    e.SameWiring (e.setRollbackChain chain) := by
  rw [setRollbackChain]
  induction chain generalizing e with
  | nil => exact .refl e
  | cons cursor chain ih =>
    rw [List.foldl_cons]
    refine SameWiring.trans ?_ (ih _)
    split
    · split
      · exact .refl e
      · exact ⟨rfl, rfl, rfl, rfl, rfl⟩

theorem restoreFinality_wiring (e : SettleEngine R V) (block : BlockNumber) :
    e.SameWiring (e.restoreFinality block) := by
  rw [restoreFinality]
  split
  · split
    · exact advanceFinality_wiring e block
    · exact ⟨rfl, rfl, rfl, rfl, rfl⟩
  · split
    · exact advanceFinality_wiring e block
    · exact ⟨rfl, rfl, rfl, rfl, rfl⟩

end SettleEngine

/-! ### A replay -/

section Replay

variable {σ : Type} {feed : σ → String → BlockNumber → List Row → Except Error σ} {P : σ → Prop}

theorem feedBlock_keeps
    (hfeed : ∀ s table block rows s', feed s table block rows = .ok s' → P s → P s')
    {block : BlockNumber} {cursors cursors' : List ReplayCursor} {s s' : σ}
    (h : feedBlock feed block cursors s = .ok (cursors', s')) (hs : P s) : P s' := by
  induction cursors generalizing s cursors' with
  | nil =>
    cases h
    exact hs
  | cons c rest ih =>
    -- the other cursors, from any state that has the property
    have hrest : ∀ {s : σ} {c' : ReplayCursor}, P s → (do
        let r ← feedBlock feed block rest s
        .ok (c' :: r.1, r.2)) = Except.ok (cursors', s') → P s' := by
      intro s c' hs h
      cases hr : feedBlock feed block rest s with
      | error e =>
        rw [hr] at h
        cases h
      | ok r =>
        rw [hr] at h
        cases h
        exact ih hr hs
    rw [feedBlock] at h
    cases hrows : c.rows with
    | nil =>
      rw [hrows] at h
      exact hrest hs h
    | cons entry more =>
      rw [hrows] at h
      dsimp only at h
      split at h
      · cases hone : feed s c.table block entry.2 with
        | error e =>
          rw [hone] at h
          cases h
        | ok s₁ =>
          rw [hone] at h
          exact hrest (hfeed _ _ _ _ _ hone hs) h
      · exact hrest hs h

theorem replayLoop_keeps
    (hfeed : ∀ s table block rows s', feed s table block rows = .ok s' → P s → P s')
    {read : RawReader} {readBlocks : Nat} {toBlock : BlockNumber} {fuel : Nat}
    {cursors : List ReplayCursor} {s s' : σ}
    (h : replayLoop feed read readBlocks toBlock fuel cursors s = some (.ok s')) (hs : P s) :
    P s' := by
  induction fuel generalizing cursors s with
  | zero => cases h
  | succ fuel ih =>
    rw [replayLoop] at h
    split at h
    · cases h
    · split at h
      · cases h
        exact hs
      · split at h
        · cases h
        · next hfed => exact ih h (feedBlock_keeps hfeed hfed hs)

end Replay

namespace SettleEngine

variable {e e' : SettleEngine R V} {schema : Schema}

theorem replayUnfinalizedInner_wiring [KeepsSource R V] [NodeBuild R V] (hbuild : BuildsSources R V)
    {store : Store} {fromBlock toBlock : BlockNumber} {onlyNodes : Option (List String)}
    (h : e.replayUnfinalizedInner store fromBlock toBlock onlyNodes = .ok e') : e.SameWiring e' := by
  rw [replayUnfinalizedInner] at h
  cases hreplay : replayTables (fun nodes table block rows =>
      Nodes.replayTableBlock store block onlyNodes e.pipeline nodes
        ((∅ : Nodes.OutputRows).insert table rows)) (e.readRows store) replayReadBlocks
      (store.raw.size + 1) (e.rawTables.toList.map Prod.fst) fromBlock toBlock e.nodes with
  | none =>
    rw [hreplay] at h
    cases h
    exact .refl e
  | some result =>
    rw [hreplay] at h
    cases result with
    | error err => cases h
    | ok nodes =>
      cases h
      apply SameWiring.of_nodes
      rw [replayTables] at hreplay
      split at hreplay
      · cases hreplay
        rfl
      · exact replayLoop_keeps (P := fun nodes => nodes.sourceOf = e.nodes.sourceOf)
          (fun _ _ _ _ _ hfed heq => (Nodes.replayTableBlock_sourceOf hbuild _ _ hfed).trans heq)
          hreplay rfl

theorem rolledBackChain_sourceOf [KeepsSource R V] (e : SettleEngine R V) (name : String)
    (p : BlockNumber) : (e.rolledBackChain name p).sourceOf = e.nodes.sourceOf :=
  Nodes.stepNodes_sourceOf (fun r => KeepsSource.rollback V r p)
    (fun v => KeepsSource.rollbackView R v p) _ _

theorem replayReducerChain_wiring [KeepsSource R V] [NodeBuild R V] (hbuild : BuildsSources R V)
    {store : Store} {name : String} {finalized latest : BlockNumber}
    (h : e.replayReducerChain store name finalized latest = .ok e') : e.SameWiring e' := by
  unfold replayReducerChain at h
  split at h
  · cases h
  split at h
  · cases h
    exact .refl e
  · have hrolled : e.SameWiring { e with nodes := e.rolledBackChain name finalized } :=
      .of_nodes (rolledBackChain_sourceOf e name finalized)
    exact hrolled.trans (replayUnfinalizedInner_wiring hbuild h)

theorem setReducerRuntime_wiring [ViewStorage] (e : PipelineEngine) (name : String)
    (runtime : (mapFields : Nat) → Runtime mapFields) (missing : Bool) :
    e.SameWiring (e.setReducerRuntime name runtime missing) := by
  unfold setReducerRuntime
  split
  · next r hget => exact .of_nodes (Nodes.sourceOf_insertReducer hget rfl)
  · exact .refl e

/-- **A call keeps the wiring.** -/
theorem callStep_wiring [ViewStorage] [NodeBuild PipelineReducer PipelineView]
    (hbuild : BuildsSources PipelineReducer PipelineView) (e : PipelineEngine)
    (call : EngineCall) : e.SameWiring (e.callStep call).1 := by
  cases call with
  | processBatch store table block rows => exact processBatchDeferred_wiring ..
  | undoIngest store pending block => exact undoIngest_wiring ..
  | takeChanges => exact .of_nodes (takeChangesOf_sourceOf _ _)
  | rollback store pending forkPoint => exact rollbackToBatch_wiring ..
  | setRollbackChain chain => exact setRollbackChain_wiring ..
  | takeHashChanges => exact ⟨rfl, rfl, rfl, rfl, rfl⟩
  | advanceFinality block => exact advanceFinality_wiring ..
  | writeCheckpoint => exact writeCheckpoint_wiring ..
  | setCommittedCheckpoint checkpoint => exact ⟨rfl, rfl, rfl, rfl, rfl⟩
  | evictGroups => exact evictGroups_wiring ..
  | setLatestBlock block => exact ⟨rfl, rfl, rfl, rfl, rfl⟩
  | restoreDurableBlock block => exact ⟨rfl, rfl, rfl, rfl, rfl⟩
  | restoreBlockHashes hashes => exact ⟨rfl, rfl, rfl, rfl, rfl⟩
  | replay store =>
    show e.SameWiring (e.replayStep store e.replayRange).1
    rw [replayStep]
    split
    · next e' hreplay =>
      unfold replayBlocks at hreplay
      split at hreplay
      · exact replayUnfinalizedInner_wiring hbuild hreplay
      · cases hreplay
        exact .refl e
    · exact .refl e
  | restoreFinality block => exact restoreFinality_wiring ..
  | setReducerRuntime name runtime missing => exact setReducerRuntime_wiring ..
  | replayReducerChain store name finalized latest =>
    show e.SameWiring (e.chainStep (e.replayReducerChain store name finalized latest)).1
    unfold chainStep
    split
    · next e' hreplay => exact replayReducerChain_wiring hbuild hreplay
    · exact .refl e

/-- The state after some calls. -/
def afterCalls [ViewStorage] [NodeBuild PipelineReducer PipelineView] (e : PipelineEngine)
    (calls : List EngineCall) : PipelineEngine :=
  calls.foldl (fun e call => (e.callStep call).1) e

theorem afterCalls_wiring [ViewStorage] [NodeBuild PipelineReducer PipelineView]
    (hbuild : BuildsSources PipelineReducer PipelineView) (e : PipelineEngine)
    (calls : List EngineCall) : e.SameWiring (e.afterCalls calls) := by
  induction calls generalizing e with
  | nil => exact .refl e
  | cons call calls ih => exact (callStep_wiring hbuild e call).trans (ih _)

/-- The nodes of a new engine read the sources of their definitions. -/
theorem new_wired [NodeBuild R V] (hbuild : BuildsSources R V) {store : Store} {rayon : Bool}
    (hvalid : schema.validate = .ok ()) (h : SettleEngine.new schema store rayon = .ok e) :
    e.Wired schema := by
  obtain ⟨hpipeline, hbranches⟩ := new_branches (fun _ _ _ => hbuild.newView) hvalid h
  obtain ⟨-, hreducers, hviews, -⟩ := Schema.objectNames_nodup
    (Schema.checkNames_ok.mp (Schema.validate_ok.mp hvalid).2.2.1).1
  unfold SettleEngine.new at h
  dsimp only at h
  cases hr : newReducers (R := R) (V := V) schema store (newRawTables schema) with
  | error err =>
    rw [hr] at h
    cases h
  | ok reducers =>
    cases hv : newMvs (R := R) (V := V) schema store with
    | error err =>
      rw [hr, hv] at h
      cases h
    | ok mvs =>
      rw [hr, hv] at h
      cases h
      obtain ⟨hnone, hsome⟩ := foldlM_insert hreducers
        ((newReducers_eq schema store).symm.trans hr)
      obtain ⟨hnone', hsome'⟩ := foldlM_insert hviews hv
      have hpart := Schema.branches_spec hvalid
      rw [← hbranches] at hpart
      refine ⟨hpipeline ▸ Schema.buildPipeline_spec hvalid, hpart, ?_, ?_⟩
      · intro table hcontains
        rw [newRawTables, ExtTreeMap.contains_ofList, List.map_map] at hcontains
        simpa [Schema.tableNames] using hcontains
      · intro node source hsource
        cases node with
        | rawTable _ => cases hsource
        | reducer name =>
          obtain ⟨r, hget, rfl⟩ := Option.map_eq_some_iff.mp hsource
          by_cases hname : name ∈ schema.reducers.map ReducerDef.name
          · obtain ⟨d, hd, rfl⟩ := List.mem_map.mp hname
            obtain ⟨r', hmake, hnode⟩ := hsome d hd
            obtain rfl : r' = r := Option.some.inj (hnode.symm.trans hget)
            rw [Schema.nodeSource, find?_of_nodup ReducerDef.name hreducers hd]
            split at hmake
            · rw [hbuild.newReducer hmake]
              rfl
            · rw [hbuild.newChained hmake]
              rfl
          · rw [hnone name hname, ExtTreeMap.getElem?_empty] at hget
            cases hget
        | mv name =>
          obtain ⟨v, hget, rfl⟩ := Option.map_eq_some_iff.mp hsource
          by_cases hname : name ∈ schema.materializedViews.map MVDef.name
          · obtain ⟨d, hd, rfl⟩ := List.mem_map.mp hname
            obtain ⟨v', hmake, hnode⟩ := hsome' d hd
            obtain rfl : v' = v := Option.some.inj (hnode.symm.trans hget)
            rw [Schema.nodeSource, find?_of_nodup MVDef.name hviews hd,
              hbuild.newView hmake]
            rfl
          · rw [hnone' name hname, ExtTreeMap.getElem?_empty] at hget
            cases hget

/-! ### Blocks in any order -/

/-- The nodes after a batch, and its outcome. -/
def processed (e : SettleEngine R V) (store : Store) (table : String) (block : BlockNumber)
    (rows : List Row) : Nodes R V × Except Error Unit :=
  if e.parallelBranches then
    Nodes.processParallel store block e.directMvs e.branches
      ((∅ : Nodes.OutputRows).insert table rows) e.nodes
  else
    Nodes.processSequential store block e.pipeline e.nodes
      ((∅ : Nodes.OutputRows).insert table rows)

/-- Both ways of a wired engine make the steps of the flow. -/
theorem Wired.processed_flow (h : e.Wired schema) (hvalid : schema.validate = .ok ())
    (store : Store) {table : String} (htable : table ∈ schema.tableNames) (block : BlockNumber)
    (rows : List Row) :
    ((e.processed store table block rows).2 = .ok () ↔ ∀ node ∈ e.pipeline,
      e.nodes.Passes store block (e.nodes.flowRows store block e.pipeline
        ((∅ : Nodes.OutputRows).insert table rows)) node) ∧
    ((e.processed store table block rows).2 = .ok () →
      Nodes.Stepped e.nodes store block (e.nodes.flowRows store block e.pipeline
        ((∅ : Nodes.OutputRows).insert table rows)) e.pipeline
        (e.processed store table block rows).1) := by
  have horder := h.inOrder hvalid
  rw [processed]
  split
  · next hparallel =>
    exact Nodes.processParallel_flow horder (h.flat hvalid hparallel)
      (h.getElem?_batch hvalid htable rows)
  · exact Nodes.processSequential_flow
      (show e.nodes.InOrder ([] ++ e.pipeline) from horder) (Nodes.Stepped.refl _ store block _)

/-- What a batch of a known table gives. -/
theorem processBatch_known (e : SettleEngine R V) (store : Store) {table : String}
    {raw : RawTableEngine} (hget : e.rawTables[table]? = some raw) (block : BlockNumber)
    (rows : List Row) :
    (e.processBatchDeferred store table block rows).1.nodes
      = (e.processed store table block rows).1 ∧
    (e.processBatchDeferred store table block rows).2.1
      = (raw.ingestToBatch block rows (e.virtualTables.contains table)).1 ∧
    (e.processBatchDeferred store table block rows).2.2
      = (e.processed store table block rows).2.map fun _ =>
          (raw.ingestToBatch block rows (e.virtualTables.contains table)).2 := by
  unfold processBatchDeferred
  rw [hget]
  dsimp only
  rw [← processed]
  generalize e.processed store table block rows = processed
  obtain ⟨nodes, result⟩ := processed
  cases result with
  | error err => exact ⟨rfl, rfl, rfl⟩
  | ok u => exact ⟨rfl, rfl, rfl⟩

/-- **Two wired engines with the same nodes process a batch alike**, whatever the orders of their
pipelines and branches are, and whether the branches run in parallel. -/
theorem Wired.processed_agree (h : e.Wired schema) (h' : e'.Wired schema)
    (hvalid : schema.validate = .ok ()) (hnodes : e'.nodes = e.nodes) (store : Store)
    {table : String} (htable : table ∈ schema.tableNames) (block : BlockNumber)
    (rows : List Row) :
    ((e'.processed store table block rows).2 = .ok () ↔
      (e.processed store table block rows).2 = .ok ()) ∧
    ((e.processed store table block rows).2 = .ok () →
      (e'.processed store table block rows).1 = (e.processed store table block rows).1) := by
  have hflow := h.processed_flow hvalid store htable block rows
  have hflow' := h'.processed_flow hvalid store htable block rows
  have hperm := h'.pipeline.perm.trans h.pipeline.perm.symm
  have horder' := h'.inOrder hvalid
  rw [hnodes] at hflow' horder'
  rw [Nodes.flowRows_perm horder' (h.inOrder hvalid) hperm _
    (h'.getElem?_batch hvalid htable rows)] at hflow'
  exact Nodes.eq_of_flow (fun _ => hperm.mem_iff) hflow' hflow

end SettleEngine

/-- **The order of a block is free.** In every state that calls reach from a new engine of an
accepted schema, take any order of the pipeline with the sources first, any order of the views and
of the branches, and either way of running them: a batch succeeds in all of them or in none, writes
the same, and when it succeeds it emits the same and leaves the same nodes. -/
theorem batch_order_free [ViewStorage] [NodeBuild PipelineReducer PipelineView]
    (hbuild : BuildsSources PipelineReducer PipelineView) {schema : Schema} {opened : Store}
    {rayon : Bool} {e₀ : PipelineEngine} (hvalid : schema.validate = .ok ())
    (hnew : SettleEngine.new schema opened rayon = .ok e₀) (calls : List EngineCall)
    {pipeline : List PipelineNode} {direct : List String} {branches : List (String × List String)}
    (hpipeline : schema.IsPipeline pipeline) (hpart : schema.IsPartition direct branches)
    (rayon' : Bool) (store : Store) (table : String) (block : BlockNumber) (rows : List Row) :
    let e := e₀.afterCalls calls
    let r := e.processBatchDeferred store table block rows
    let r' := ({ e with
      pipeline := pipeline, directMvs := direct, branches := branches, rayon := rayon' } :
      PipelineEngine).processBatchDeferred store table block rows
    r'.2.1 = r.2.1 ∧ ((∃ changes, r'.2.2 = .ok changes) ↔ ∃ changes, r.2.2 = .ok changes) ∧
    ∀ changes, r.2.2 = .ok changes → r'.2.2 = .ok changes ∧ r'.1.nodes = r.1.nodes := by
  intro e r r'
  have h : e.Wired schema :=
    (SettleEngine.new_wired hbuild hvalid hnew).of_same (SettleEngine.afterCalls_wiring hbuild _ _)
  have h' : ({ e with
      pipeline := pipeline, directMvs := direct, branches := branches, rayon := rayon' } :
      PipelineEngine).Wired schema := ⟨hpipeline, hpart, h.tables, h.sources⟩
  cases hget : e.rawTables[table]? with
  | none =>
    have hr : r = (e, [], .error (.invalidOperation ("unknown table: " ++ table))) := by
      show SettleEngine.processBatchDeferred e store table block rows = _
      rw [SettleEngine.processBatchDeferred, hget]
    have hr' : r'.2 = ([], .error (.invalidOperation ("unknown table: " ++ table))) := by
      show (SettleEngine.processBatchDeferred _ store table block rows).2 = _
      rw [SettleEngine.processBatchDeferred]
      dsimp only
      rw [hget]
    rw [hr, hr']
    exact ⟨rfl, Iff.rfl, fun changes hok => by cases hok⟩
  | some raw =>
    have htable : table ∈ schema.tableNames := h.tables table (by
      rw [ExtTreeMap.contains_eq_isSome_getElem?, hget]
      rfl)
    obtain ⟨hiff, hnodes⟩ := h.processed_agree h' hvalid rfl store htable block rows
    obtain ⟨hn, hw, hres⟩ := e.processBatch_known store hget block rows
    obtain ⟨hn', hw', hres'⟩ := SettleEngine.processBatch_known { e with
      pipeline := pipeline, directMvs := direct, branches := branches, rayon := rayon' } store hget
      block rows
    have hok : ∀ {result : Except Error Unit} {changes : List ChangeRecord},
        (∃ c, (result.map fun _ => changes) = .ok c) ↔ result = .ok () := by
      intro result changes
      cases result <;> simp [Except.map]
    refine ⟨hw'.trans hw.symm, ?_, fun changes hchanges => ?_⟩
    · rw [show r'.2.2 = _ from hres', show r.2.2 = _ from hres, hok, hok, hiff]
    · have hseq := hok.mp ⟨changes, hres.symm.trans hchanges⟩
      have hpar := hiff.mpr hseq
      refine ⟨?_, hn'.trans ((hnodes hseq).trans hn.symm)⟩
      rw [hseq] at hres
      rw [hpar] at hres'
      exact hres'.trans (hres.symm.trans hchanges)

/-! ### Two branches -/

/-- Two reducers of one table, and a view below each of the three. -/
def twoBranches : Schema where
  tables := [⟨"t", [⟨"block_number", .uint64⟩, ⟨"x", .uint64⟩], false⟩]
  modules := []
  reducers := [⟨"a", "t", ["x"], [], .external "a", []⟩, ⟨"b", "t", ["x"], [], .external "b", []⟩]
  materializedViews := [⟨"u", "a", [⟨.agg .count none, none⟩], [], none⟩,
    ⟨"v", "b", [⟨.agg .count none, none⟩], [], none⟩,
    ⟨"w", "t", [⟨.agg .sum (some "x"), none⟩], [], none⟩]

/-- A reducer that counts the rows of each user. -/
def countingReducer (d : ReducerDef) (store : Store) : PipelineReducer where
  shape := { countPerUser with name := d.name, source := d.source }
  isExternal := false
  needsHostCallback := false
  engine := ReducerEngine.new { countPerUser with name := d.name, source := d.source } store

/-- A view of a replay. -/
def replayView (v : PipelineView) (store : Store) (block : BlockNumber) (rows : List Row) :
    Except Error PipelineView :=
  let replayed := v.engine.replayBlock v.shape (noViewStorage.reads v.shape store) block rows
  replayed.2.map fun _ => { v with engine := replayed.1 }

theorem replayView_shape {v v' : PipelineView} {store : Store} {block : BlockNumber}
    {rows : List Row} (h : replayView v store block rows = .ok v') : v'.shape = v.shape := by
  rw [replayView] at h
  cases hreplayed : (v.engine.replayBlock v.shape (noViewStorage.reads v.shape store) block
      rows).2 with
  | error err =>
    rw [hreplayed] at h
    cases h
  | ok _ =>
    rw [hreplayed] at h
    cases h
    rfl

/-- Such reducers, and new views. -/
@[reducible] def countingNodes : NodeBuild PipelineReducer PipelineView where
  newReducer d store _ _ := .ok (countingReducer d store)
  newChained d store _ := .ok (countingReducer d store)
  newView d _ types := .ok { shape := MVShape.new d types, engine := {} }
  replayBlock v store block rows := replayView v store block rows

theorem countingNodes_sources :
    letI := noViewStorage
    letI := countingNodes
    BuildsSources PipelineReducer PipelineView := by
  refine @BuildsSources.mk _ _ _ (_) (_) ?_ ?_ ?_ ?_
  · intro d store registry modules r h
    cases h
    rfl
  · intro d store modules r h
    cases h
    rfl
  · intro d store types v h
    cases h
    rfl
  · intro v v' store block rows h
    show v'.shape.source = v.shape.source
    rw [replayView_shape h]

theorem twoBranches_valid : twoBranches.validate = .ok () := by
  have hother : twoBranches.OtherChecks := by
    refine ⟨by decide +kernel, by decide +kernel, by decide +kernel, ?_, ?_, ?_⟩
    · decide +kernel
    · decide +kernel
    · decide +kernel
  have hacyclic : ¬ twoBranches.Cyclic :=
    (Schema.checkCycles_ok (by decide +kernel)).mp (by decide +kernel)
  exact (Schema.validate_iff hother).mpr ⟨by decide +kernel, hacyclic⟩

/-- The parallel way and the loop on a block of `t`. -/
theorem batch_order_free_twoBranches :
    letI := noViewStorage
    letI := countingNodes
    ∃ e₀ : PipelineEngine, SettleEngine.new twoBranches {} true = .ok e₀ ∧
      let e := e₀.afterCalls [.processBatch {} "t" 1 [userRow "bob"]]
      let r := e.processBatchDeferred {} "t" 2 [userRow "bob"]
      let r' := ({ e with
        pipeline := buildPipeline twoBranches, directMvs := twoBranches.branches.1
        branches := twoBranches.branches.2, rayon := false } :
        PipelineEngine).processBatchDeferred {} "t" 2 [userRow "bob"]
      r'.2.1 = r.2.1 ∧ ((∃ changes, r'.2.2 = .ok changes) ↔ ∃ changes, r.2.2 = .ok changes) ∧
      ∀ changes, r.2.2 = .ok changes → r'.2.2 = .ok changes ∧ r'.1.nodes = r.1.nodes := by
  let := noViewStorage
  let := countingNodes
  have hok : (SettleEngine.new (R := PipelineReducer) (V := PipelineView) twoBranches {}
      true).toBool = true := by
    decide +kernel
  obtain ⟨e₀, hnew⟩ := ok_of_toBool hok
  exact ⟨e₀, hnew, batch_order_free countingNodes_sources twoBranches_valid hnew _
    (Schema.buildPipeline_spec twoBranches_valid) (Schema.branches_spec twoBranches_valid) false {}
    "t" 2 _⟩

end Settle
