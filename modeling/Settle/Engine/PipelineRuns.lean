import Settle.Engine.BlockLimits
import Settle.Engine.DagMarks
import Settle.Engine.ViewRuns
import Settle.Engine.Wiring

/-!
# Runs of a pipeline

A run of an engine over its calls, on storage without state and with nothing evicted. Its history is
what the engine was given: the rows of each table, and for each view the rows that came from its
source, of the blocks that were neither rolled back nor undone.

**Every view of the pipeline is the fold of what its source gave it** (`pipeline_views_are_folds`),
through any interleaving of batches, failed batches with their undo, rollbacks, finality and
checkpoints, on either way of running the branches. A view of a table was given exactly the rows
of the table.
-/

namespace Settle

open Std

/-! ## At most one step for each node -/

namespace Nodes

variable {R V : Type} [ReducerNode R] [ViewNode V] {nodes nodes' nodes'' : Nodes R V}
  {store : Store} {block : BlockNumber} {name : String} {n : PipelineNode} {P : String → Prop}

/-- A reducer or a view. -/
def node (nodes : Nodes R V) : PipelineNode → Option (R ⊕ V)
  | .rawTable _ => none
  | .reducer name => nodes.reducers[name]?.map .inl
  | .mv name => nodes.mvs[name]?.map .inr

/-- The source of a reducer or a view. -/
def source : R ⊕ V → String := Sum.elim ReducerNode.source ViewNode.source

/-- The step of a reducer or a view on some rows. -/
def nodeStep (store : Store) (block : BlockNumber) (rows : List Row) : R ⊕ V → R ⊕ V :=
  Sum.map (fun r => (ReducerNode.processBlock r store block rows).1)
    (fun v => (ViewNode.applyRows v store block rows).1)

/-- A property of sources that goes from the source of a reducer to the reducer. -/
def Closed (P : String → Prop) (nodes : Nodes R V) : Prop :=
  ∀ name source, nodes.sourceOf (.reducer name) = some source → P source → P name

/-- Rows of sources with the property. -/
def RowsOf (P : String → Prop) (rows : OutputRows) : Prop :=
  ∀ source l, rows[source]? = some l → P source

theorem Closed.of_eq (h : nodes.Closed P) (heq : nodes'.sourceOf = nodes.sourceOf) :
    nodes'.Closed P := by
  intro name source hsource
  rw [heq] at hsource
  exact h name source hsource

theorem RowsOf.insert {rows : OutputRows} (h : RowsOf P rows) (hname : P name)
    (l : List Row) : RowsOf P (rows.insert name l) := by
  intro source l' hl
  rw [ExtTreeMap.getElem?_insert] at hl
  by_cases heq : name = source
  · exact heq ▸ hname
  · rw [if_neg (by simpa using heq)] at hl
    exact h source l' hl

/-- A node made one step on the block, if it has a source with the property, or none. -/
def Once (P : String → Prop) (store : Store) (block : BlockNumber) (nodes nodes' : Nodes R V)
    (n : PipelineNode) : Prop :=
  nodes'.node n = nodes.node n ∨ ∃ x rows, nodes.node n = some x ∧ P (source x) ∧
    nodes'.node n = some (nodeStep store block rows x)

theorem Once.of_eq (h : nodes'.node n = nodes.node n) : Once P store block nodes nodes' n :=
  .inl h

theorem Once.trans_eq (h : Once P store block nodes nodes' n)
    (heq : nodes''.node n = nodes'.node n) : Once P store block nodes nodes'' n := by
  rcases h with h | ⟨x, rows, hx, hsource, h⟩
  · exact .inl (heq.trans h)
  · exact .inr ⟨x, rows, hx, hsource, heq.trans h⟩

theorem Once.eq_trans (heq : nodes'.node n = nodes.node n)
    (h : Once P store block nodes' nodes'' n) : Once P store block nodes nodes'' n := by
  rcases h with h | ⟨x, rows, hx, hsource, h⟩
  · exact .inl (h.trans heq)
  · exact .inr ⟨x, rows, heq ▸ hx, hsource, h⟩

theorem Once.mv (h : Once P store block nodes nodes' (.mv name)) {v' : V}
    (hv' : nodes'.mvs[name]? = some v') : nodes.mvs[name]? = some v' ∨
      ∃ v rows, nodes.mvs[name]? = some v ∧ P (ViewNode.source v) ∧
        v' = (ViewNode.applyRows v store block rows).1 := by
  rw [Once, node, node, hv'] at h
  cases hv : nodes.mvs[name]? with
  | none =>
    rw [hv] at h
    rcases h with h | ⟨x, rows, hx, -⟩
    · cases h
    · cases hx
  | some v =>
    rw [hv] at h
    rcases h with h | ⟨x, rows, hx, hsource, h⟩
    · cases h
      exact .inl rfl
    · cases hx
      cases h
      exact .inr ⟨v, rows, rfl, hsource, rfl⟩

theorem Once.reducer (h : Once P store block nodes nodes' (.reducer name)) {r' : R}
    (hr' : nodes'.reducers[name]? = some r') : nodes.reducers[name]? = some r' ∨
      ∃ r rows, nodes.reducers[name]? = some r ∧ P (ReducerNode.source r) ∧
        r' = (ReducerNode.processBlock r store block rows).1 := by
  rw [Once, node, node, hr'] at h
  cases hr : nodes.reducers[name]? with
  | none =>
    rw [hr] at h
    rcases h with h | ⟨x, rows, hx, -⟩
    · cases h
    · cases hx
  | some r =>
    rw [hr] at h
    rcases h with h | ⟨x, rows, hx, hsource, h⟩
    · cases h
      exact .inl rfl
    · cases hx
      cases h
      exact .inr ⟨r, rows, rfl, hsource, rfl⟩

/-- A reducer that emits has rows of its source. -/
theorem processReducer_fed (hclosed : nodes.Closed P) {reducer : String} {rows : OutputRows}
    (hrows : RowsOf P rows) {emitted : List Row}
    (h : (nodes.processReducer store block reducer rows).2 = .ok emitted)
    (hne : emitted.isEmpty = false) : P reducer := by
  rw [processReducer] at h
  split at h
  · cases h
    cases hne
  · next r hr =>
    split at h
    · cases h
      cases hne
    · next l hl =>
      refine hclosed reducer (ReducerNode.source r) ?_ (hrows _ l hl)
      rw [sourceOf, hr]
      rfl

theorem flowRows_fed (hclosed : nodes.Closed P) (pipeline : List PipelineNode) {rows : OutputRows}
    (hrows : RowsOf P rows) : RowsOf P (nodes.flowRows store block pipeline rows) := by
  induction pipeline generalizing rows with
  | nil => exact hrows
  | cons node rest ih =>
    cases node with
    | rawTable _ => exact ih hrows
    | mv _ => exact ih hrows
    | reducer reducer =>
      rw [flowRows]
      split
      · next emits hemits =>
        apply ih
        apply hrows.insert
        rw [emitted, Option.bind_eq_some_iff] at hemits
        obtain ⟨step, hstep, -⟩ := hemits
        rw [reducerStep, Option.bind_eq_some_iff] at hstep
        obtain ⟨r, hr, hstep⟩ := hstep
        obtain ⟨l, hl, -⟩ := Option.map_eq_some_iff.mp hstep
        refine hclosed reducer (ReducerNode.source r) ?_ (hrows _ l hl)
        rw [sourceOf, hr]
        rfl
      · exact ih hrows

/-! ### One node -/

omit [ViewNode V] in
theorem processReducer_other (nodes : Nodes R V) (store : Store) (block : BlockNumber)
    {reducer : String} (rows : OutputRows) (hne : n ≠ .reducer reducer) :
    (nodes.processReducer store block reducer rows).1.node n = nodes.node n := by
  rw [processReducer]
  split
  · rfl
  · split
    · rfl
    · cases n with
      | rawTable _ => rfl
      | mv _ => rfl
      | reducer other =>
        rw [node, node]
        dsimp only
        rw [ExtTreeMap.getElem?_insert, if_neg]
        intro heq
        exact hne (by rw [LawfulEqCmp.eq_of_compare heq])

theorem processReducer_once (nodes : Nodes R V) (store : Store) (block : BlockNumber)
    (reducer : String) {rows : OutputRows} (hrows : RowsOf P rows) (n : PipelineNode) :
    Once P store block nodes (nodes.processReducer store block reducer rows).1 n := by
  by_cases hne : n = .reducer reducer
  · subst hne
    rw [processReducer]
    split
    · exact .of_eq rfl
    · next r hr =>
      split
      · exact .of_eq rfl
      · next l hl =>
        refine .inr ⟨.inl r, l, ?_, hrows _ l hl, ?_⟩
        · rw [node, hr]
          rfl
        · rw [node]
          dsimp only
          rw [ExtTreeMap.getElem?_insert_self]
          rfl
  · exact .of_eq (processReducer_other nodes store block rows hne)

omit [ReducerNode R] in
theorem processMv_other (nodes : Nodes R V) (store : Store) (block : BlockNumber)
    {view : String} (rows : OutputRows) (hne : n ≠ .mv view) :
    (nodes.processMv store block view rows).1.node n = nodes.node n := by
  rw [processMv]
  split
  · rfl
  · split
    · rfl
    · cases n with
      | rawTable _ => rfl
      | reducer _ => rfl
      | mv other =>
        rw [node, node]
        dsimp only
        rw [ExtTreeMap.getElem?_insert, if_neg]
        intro heq
        exact hne (by rw [LawfulEqCmp.eq_of_compare heq])

theorem processMv_once (nodes : Nodes R V) (store : Store) (block : BlockNumber)
    (view : String) {rows : OutputRows} (hrows : RowsOf P rows) (n : PipelineNode) :
    Once P store block nodes (nodes.processMv store block view rows).1 n := by
  by_cases hne : n = .mv view
  · subst hne
    rw [processMv]
    split
    · exact .of_eq rfl
    · next v hv =>
      split
      · exact .of_eq rfl
      · next l hl =>
        refine .inr ⟨.inr v, l, ?_, hrows _ l hl, ?_⟩
        · rw [node, hv]
          rfl
        · rw [node]
          dsimp only
          rw [ExtTreeMap.getElem?_insert_self]
          rfl
  · exact .of_eq (processMv_other nodes store block rows hne)

/-! ### The loops -/

theorem processMvs_once (store : Store) (block : BlockNumber) {views : List String}
    (hnodup : views.Nodup) (nodes : Nodes R V) {rows : OutputRows} (hrows : RowsOf P rows)
    (n : PipelineNode) :
    (n ∉ views.map .mv → (processMvs store block rows views nodes).1.node n = nodes.node n) ∧
    Once P store block nodes (processMvs store block rows views nodes).1 n := by
  induction views generalizing nodes with
  | nil => exact ⟨fun _ => rfl, .of_eq rfl⟩
  | cons view views ih =>
    obtain ⟨hview, hnodup⟩ := List.nodup_cons.mp hnodup
    have hother := fun hne : n ≠ .mv view => processMv_other nodes store block rows hne
    have hone := processMv_once nodes store block view hrows n
    rw [processMvs]
    split
    · next hr =>
      rw [hr] at hother hone
      exact ⟨fun h => hother (by rintro rfl; simp at h), hone⟩
    · next nodes₁ hr =>
      rw [hr] at hother hone
      obtain ⟨hnot, honce⟩ := ih hnodup nodes₁
      refine ⟨fun h => ?_, ?_⟩
      · rw [List.map_cons, List.mem_cons, not_or] at h
        exact (hnot h.2).trans (hother h.1)
      · by_cases hne : n = .mv view
        · subst hne
          exact hone.trans_eq (hnot (by simpa using hview))
        · exact honce.eq_trans (hother hne)

variable [KeepsSource R V]

/-- The loop takes a node through at most one step. -/
theorem processSequential_once (store : Store) (block : BlockNumber)
    {pipeline : List PipelineNode} (hnodup : pipeline.Nodup) {nodes : Nodes R V}
    (hclosed : nodes.Closed P) {rows : OutputRows} (hrows : RowsOf P rows) (n : PipelineNode) :
    (n ∉ pipeline →
      (processSequential store block pipeline nodes rows).1.node n = nodes.node n) ∧
    Once P store block nodes (processSequential store block pipeline nodes rows).1 n := by
  induction pipeline generalizing nodes rows with
  | nil => exact ⟨fun _ => rfl, .of_eq rfl⟩
  | cons node rest ih =>
    obtain ⟨hnode, hnodup⟩ := List.nodup_cons.mp hnodup
    have ih := @ih hnodup
    cases node with
    | rawTable _ =>
      exact ⟨fun h => (ih hclosed hrows).1 fun hmem => h (List.mem_cons_of_mem _ hmem),
        (ih hclosed hrows).2⟩
    | reducer reducer =>
      have hother := fun hne : n ≠ .reducer reducer =>
        processReducer_other nodes store block rows hne
      have hone := processReducer_once nodes store block reducer hrows n
      have hsources := processReducer_sourceOf store block nodes reducer rows
      have hfed : ∀ {l}, (nodes.processReducer store block reducer rows).2 = .ok l →
          l.isEmpty = false → P reducer := processReducer_fed hclosed hrows
      rw [processSequential]
      split
      · next hr =>
        rw [hr] at hother hone
        exact ⟨fun h => hother (by rintro rfl; simp at h), hone⟩
      · next nodes₁ enriched hr =>
        rw [hr] at hother hone hsources hfed
        dsimp only at hother hone hsources ⊢
        have hrows₁ : RowsOf P
            (if enriched.isEmpty then rows else rows.insert reducer enriched) := by
          split
          · exact hrows
          · next hne => exact hrows.insert (hfed rfl (by simpa using hne)) _
        obtain ⟨hnot, honce⟩ := ih (hclosed.of_eq hsources) hrows₁
        refine ⟨fun h => ?_, ?_⟩
        · rw [List.mem_cons, not_or] at h
          exact (hnot h.2).trans (hother h.1)
        · by_cases hne : n = .reducer reducer
          · subst hne
            exact hone.trans_eq (hnot hnode)
          · exact honce.eq_trans (hother hne)
    | mv view =>
      have hother := fun hne : n ≠ .mv view => processMv_other nodes store block rows hne
      have hone := processMv_once nodes store block view hrows n
      have hsources := processMv_sourceOf store block nodes view rows
      rw [processSequential]
      split
      · next hr =>
        rw [hr] at hother hone
        exact ⟨fun h => hother (by rintro rfl; simp at h), hone⟩
      · next nodes₁ hr =>
        rw [hr] at hother hone hsources
        obtain ⟨hnot, honce⟩ := ih (hclosed.of_eq hsources) hrows
        refine ⟨fun h => ?_, ?_⟩
        · rw [List.mem_cons, not_or] at h
          exact (hnot h.2).trans (hother h.1)
        · by_cases hne : n = .mv view
          · subst hne
            exact hone.trans_eq (hnot hnode)
          · exact honce.eq_trans (hother hne)

omit [KeepsSource R V] in
theorem processBranch_once (store : Store) (block : BlockNumber)
    {branch : String × List String} (hnodup : branch.2.Nodup) {nodes : Nodes R V}
    (hclosed : nodes.Closed P) {rows : OutputRows} (hrows : RowsOf P rows) (n : PipelineNode) :
    (n ∉ .reducer branch.1 :: branch.2.map .mv →
      (processBranch store block rows branch nodes).1.node n = nodes.node n) ∧
    Once P store block nodes (processBranch store block rows branch nodes).1 n := by
  have hother := fun hne : n ≠ .reducer branch.1 =>
    processReducer_other nodes store block rows hne
  have hone := processReducer_once nodes store block branch.1 hrows n
  have hfed : ∀ {l}, (nodes.processReducer store block branch.1 rows).2 = .ok l →
      l.isEmpty = false → P branch.1 := processReducer_fed hclosed hrows
  rw [processBranch]
  split
  · next hr =>
    rw [hr] at hother hone
    exact ⟨fun h => hother (by rintro rfl; simp at h), hone⟩
  · next nodes₁ enriched hr =>
    rw [hr] at hother hone hfed
    dsimp only at hother hone
    split
    · exact ⟨fun h => hother (by rintro rfl; simp at h), hone⟩
    · next hne =>
      have hrows₁ : RowsOf P ((∅ : OutputRows).insert branch.1 enriched) :=
        RowsOf.insert (by intro source l hl; simp at hl) (hfed rfl (by simpa using hne)) _
      obtain ⟨hnot, honce⟩ := processMvs_once store block hnodup nodes₁ hrows₁ n
      refine ⟨fun h => ?_, ?_⟩
      · rw [List.mem_cons, not_or] at h
        exact (hnot h.2).trans (hother h.1)
      · by_cases hne : n = .reducer branch.1
        · subst hne
          exact hone.trans_eq (hnot (by simp))
        · exact honce.eq_trans (hother hne)

theorem processBranches_once (store : Store) (block : BlockNumber)
    {branches : List (String × List String)} (hnodup : (branchNodes branches).Nodup)
    {nodes : Nodes R V} (hclosed : nodes.Closed P) {rows : OutputRows} (hrows : RowsOf P rows)
    (n : PipelineNode) :
    (n ∉ branchNodes branches →
      (processBranches store block rows branches nodes).1.node n = nodes.node n) ∧
    Once P store block nodes (processBranches store block rows branches nodes).1 n := by
  induction branches generalizing nodes with
  | nil => exact ⟨fun _ => rfl, .of_eq rfl⟩
  | cons branch branches ih =>
    rw [branchNodes, List.flatMap_cons, ← branchNodes] at hnodup
    obtain ⟨hbranch, hrest, hdisjoint⟩ := List.nodup_append.mp hnodup
    have hviews : branch.2.Nodup := (List.nodup_cons.mp hbranch).2.of_map _
    obtain ⟨hnot, honce⟩ := processBranch_once store block hviews hclosed hrows n
    obtain ⟨hnot', honce'⟩ := ih hrest (hclosed.of_eq (processBranch_sourceOf branch nodes rows))
    rw [processBranches]
    refine ⟨fun h => ?_, ?_⟩
    · rw [branchNodes, List.flatMap_cons, ← branchNodes, List.mem_append, not_or] at h
      exact (hnot' h.2).trans (hnot h.1)
    · by_cases hin : n ∈ PipelineNode.reducer branch.1 :: branch.2.map .mv
      · exact honce.trans_eq (hnot' fun hin' => hdisjoint n hin n hin' rfl)
      · exact honce'.eq_trans (hnot hin)

theorem processParallel_once (store : Store) (block : BlockNumber) {direct : List String}
    {branches : List (String × List String)}
    (hnodup : (direct.map PipelineNode.mv ++ branchNodes branches).Nodup) {nodes : Nodes R V}
    (hclosed : nodes.Closed P) {rows : OutputRows} (hrows : RowsOf P rows) (n : PipelineNode) :
    Once P store block nodes (processParallel store block direct branches rows nodes).1 n := by
  obtain ⟨hdirect, hbranches, hdisjoint⟩ := List.nodup_append.mp hnodup
  obtain ⟨hnot, honce⟩ := processMvs_once store block (hdirect.of_map _) nodes hrows n
  have hsources : (processMvs store block rows direct nodes).1.sourceOf = nodes.sourceOf :=
    processMvs_sourceOf ..
  rw [processParallel]
  split
  · next hr =>
    rw [hr] at honce
    exact honce
  · next nodes₁ hr =>
    rw [hr] at hnot honce hsources
    obtain ⟨hnot', honce'⟩ :=
      processBranches_once store block hbranches (hclosed.of_eq hsources) hrows n
    by_cases hin : n ∈ direct.map PipelineNode.mv
    · exact honce.trans_eq (hnot' fun hin' => hdisjoint n hin n hin' rfl)
    · exact honce'.eq_trans (hnot hin)

end Nodes

/-! ## The table of a view -/

namespace Schema

variable {schema : Schema}

/-- The rows of a table reach a source: the table itself, and the reducers below it. -/
inductive FedBy (schema : Schema) (table : String) : String → Prop
  | table : FedBy schema table table
  | reducer {name source : String} (hsource : schema.nodeSource (.reducer name) = some source)
      (h : FedBy schema table source) : FedBy schema table name

/-- A node with a source is a node of the schema. -/
theorem nodeSource_mem {node : PipelineNode} {source : String}
    (h : schema.nodeSource node = some source) : node ∈ schema.nodes := by
  cases node with
  | rawTable _ => cases h
  | reducer name =>
    obtain ⟨d, hd, -⟩ := Option.map_eq_some_iff.mp h
    have hname : d.name = name := by simpa using List.find?_some hd
    subst hname
    have hmem : d.name ∈ schema.reducerNames :=
      List.mem_map.mpr ⟨d, List.mem_of_find?_eq_some hd, rfl⟩
    simpa [nodes] using hmem
  | mv name =>
    obtain ⟨d, hd, -⟩ := Option.map_eq_some_iff.mp h
    have hname : d.name = name := by simpa using List.find?_some hd
    subst hname
    have hmem : d.name ∈ schema.materializedViews.map MVDef.name :=
      List.mem_map.mpr ⟨d, List.mem_of_find?_eq_some hd, rfl⟩
    simpa [nodes] using hmem

theorem nodeSource_table (hvalid : schema.validate = .ok ()) {table : String}
    (htable : table ∈ schema.tableNames) : schema.nodeSource (.reducer table) = none := by
  have hspec := buildPipeline_spec hvalid
  rw [Option.eq_none_iff_forall_ne_some]
  intro source hsource
  exact SettleEngine.table_not_mem hvalid hspec htable
    (hspec.perm.mem_iff.mpr (nodeSource_mem hsource))

/-- **A source has the rows of one table.** -/
theorem FedBy.unique (hvalid : schema.validate = .ok ()) {table table' source : String}
    (htable : table ∈ schema.tableNames) (htable' : table' ∈ schema.tableNames)
    (h : schema.FedBy table source) (h' : schema.FedBy table' source) : table = table' := by
  induction h with
  | table =>
    cases h' with
    | table => rfl
    | reducer hsource _ =>
      rw [nodeSource_table hvalid htable] at hsource
      cases hsource
  | reducer hsource _ ih =>
    cases h' with
    | table =>
      rw [nodeSource_table hvalid htable'] at hsource
      cases hsource
    | reducer hsource' h' =>
      rw [hsource] at hsource'
      cases hsource'
      exact ih h'

end Schema

namespace SettleEngine

variable {R V : Type} [ReducerNode R] [ViewNode V] {e : SettleEngine R V} {schema : Schema}

theorem Wired.closed (h : e.Wired schema) (table : String) :
    e.nodes.Closed (schema.FedBy table) :=
  fun _ _ hsource hfed => .reducer (h.sources _ _ hsource) hfed

theorem Wired.mem_pipeline (h : e.Wired schema) {name : String} {v : V}
    (hv : e.nodes.mvs[name]? = some v) : .mv name ∈ e.pipeline := by
  rw [h.pipeline.perm.mem_iff]
  refine Schema.nodeSource_mem (h.sources (.mv name) (ViewNode.source v) ?_)
  rw [Nodes.sourceOf, hv]
  rfl

theorem rowsOf_table (schema : Schema) (table : String) (rows : List Row) :
    Nodes.RowsOf (schema.FedBy table) ((∅ : Nodes.OutputRows).insert table rows) :=
  Nodes.RowsOf.insert (by intro source l hl; simp at hl) .table _

/-- Each reducer and each view stands once among the direct views and the branches. -/
theorem Wired.nodup_branches (h : e.Wired schema) (hvalid : schema.validate = .ok ()) :
    (e.directMvs.map PipelineNode.mv ++ Nodes.branchNodes e.branches).Nodup := by
  have hnodes := Schema.nodes_nodup
    (Schema.checkNames_ok.mp (Schema.validate_ok.mp hvalid).2.2.1).1
  rw [Schema.nodes, List.append_assoc] at hnodes
  exact (branchNodes_perm h.branches).nodup_iff.mpr (List.nodup_append.mp hnodes).2.1

/-- A batch takes each node through at most one step, on rows of its table. -/
theorem Wired.processed_once [KeepsSource R V] (h : e.Wired schema)
    (hvalid : schema.validate = .ok ()) (store : Store) (table : String) (block : BlockNumber)
    (rows : List Row) (n : PipelineNode) :
    Nodes.Once (schema.FedBy table) store block e.nodes (e.processed store table block rows).1
      n := by
  have hclosed := h.closed table
  have hrows := rowsOf_table schema table rows
  rw [processed]
  split
  · exact Nodes.processParallel_once store block (h.nodup_branches hvalid) hclosed hrows n
  · exact (Nodes.processSequential_once store block h.pipeline.nodup hclosed hrows n).2

/-- A batch that fails changes the nodes only, and takes each through at most one step. -/
theorem Wired.failed_once [KeepsSource R V] (h : e.Wired schema)
    (hvalid : schema.validate = .ok ()) {store : Store} {table : String} {block : BlockNumber}
    {rows : List Row} {e₁ : SettleEngine R V} {writes : WriteBatch} {err : Error}
    (hbatch : e.processBatchDeferred store table block rows = (e₁, writes, .error err)) :
    ∃ nodes₁, e₁ = { e with nodes := nodes₁ } ∧ (nodes₁ = e.nodes ∨ table ∈ schema.tableNames ∧
      ∀ n, Nodes.Once (schema.FedBy table) store block e.nodes nodes₁ n) := by
  obtain ⟨nodes₁, rfl⟩ : ∃ nodes₁, e₁ = { e with nodes := nodes₁ } := by
    rcases e.processBatchDeferred_cases store table block rows with
      ⟨nodes, _, _, heq⟩ | ⟨_, _, _, heq⟩
    · rw [hbatch] at heq
      cases heq
      exact ⟨nodes, rfl⟩
    · rw [hbatch] at heq
      cases heq
  refine ⟨nodes₁, rfl, ?_⟩
  cases hraw : e.rawTables[table]? with
  | none =>
    rw [processBatchDeferred, hraw] at hbatch
    exact .inl (congrArg (·.1.nodes) hbatch).symm
  | some raw =>
    have htable : table ∈ schema.tableNames := h.tables table (by
      rw [ExtTreeMap.contains_eq_isSome_getElem?, hraw]
      rfl)
    have hnodes := (e.processBatch_known store hraw block rows).1
    rw [hbatch] at hnodes
    refine .inr ⟨htable, fun n => ?_⟩
    have honce := h.processed_once hvalid store table block rows n
    rwa [← hnodes] at honce

/-- A batch that succeeds is of a table, and takes every node through its step. -/
theorem Wired.batch_ok (h : e.Wired schema) {store : Store} {table : String} {block : BlockNumber}
    {rows : List Row} {e' : SettleEngine R V} {writes : WriteBatch} {changes : List ChangeRecord}
    (hbatch : e.processBatchDeferred store table block rows = (e', writes, .ok changes)) :
    table ∈ schema.tableNames ∧ (e.processed store table block rows).2 = .ok () ∧
      e'.nodes = (e.processed store table block rows).1 := by
  have hcontains : e.rawTables.contains table := by
    rcases e.processBatchDeferred_cases store table block rows with
      ⟨_, _, _, heq⟩ | ⟨nodes, cs, hcontains, heq⟩
    · rw [hbatch] at heq
      cases heq
    · exact hcontains
  refine ⟨h.tables table hcontains, ?_⟩
  rw [ExtTreeMap.contains_eq_isSome_getElem?] at hcontains
  obtain ⟨raw, hraw⟩ := Option.isSome_iff_exists.mp hcontains
  obtain ⟨hnodes, -, hresult⟩ := e.processBatch_known store hraw block rows
  rw [hbatch] at hnodes hresult
  refine ⟨?_, hnodes⟩
  cases hp : (e.processed store table block rows).2 with
  | error err =>
    rw [hp] at hresult
    cases hresult
  | ok u => rfl

/-- What is undone, below the latest block, is rolled back. -/
theorem undoIngest_unwound {e' : SettleEngine R V} {undo : Store} {pending : List WriteBatch}
    {latest p : BlockNumber} (hlatest : e.latestBlock = some latest) (hle : p ≤ latest)
    (hundo : e.undoIngest undo pending (some p) = (e', .ok ())) :
    e' = { e with nodes := e.discardChanges.rolledBackNodes p, latestBlock := some p } := by
  unfold undoIngest at hundo
  dsimp only at hundo
  rw [if_neg] at hundo
  · split at hundo
    · cases hundo
    · next hu =>
      cases hundo
      rw [unwindTo] at hu
      split at hu
      · cases hu
      · next hun =>
        cases hu
        rw [unwindNodes_nodes _ undo pending p hun]
        rfl
  · show ¬ e.latestBlock.getD 0 < p
    rw [hlatest]
    exact UInt64.not_lt.mpr hle

end SettleEngine

/-! ## Runs -/

/-- The blocks up to `p` do not see a later one. -/
theorem Chain.keep_insert (blocks : Chain Row) {block p : BlockNumber} (hp : p < block)
    (rows : List Row) :
    OrdMap.keep (blocks.insert block rows) (· ≤ p) = OrdMap.keep blocks (· ≤ p) := by
  ext b l
  simp only [OrdMap.getElem?_keep, ExtTreeMap.getElem?_insert]
  by_cases hb : b ≤ p
  · have hne : block ≠ b := by
      rintro rfl
      exact absurd hp (UInt64.not_lt.mpr hb)
    simp [hb, hne]
  · simp [hb]

namespace ViewHistory

/-- The rows that a block gives to the view, if any. -/
def apply (h : ViewHistory Row) (block : BlockNumber) : Option (List Row) → ViewHistory Row
  | some rows => { h with blocks := h.blocks.insert block rows }
  | none => h

/-- The blocks above `p` are gone. -/
def cut (h : ViewHistory Row) (p : BlockNumber) : ViewHistory Row :=
  { h with blocks := OrdMap.keep h.blocks (· ≤ p) }

/-- Finality at `block`. -/
def finalTo (h : ViewHistory Row) (block : BlockNumber) : ViewHistory Row :=
  { h with finality := some block, final := OrdMap.keep h.blocks (· ≤ block) }

theorem apply_final (h : ViewHistory Row) (block : BlockNumber) (rows : Option (List Row)) :
    (h.apply block rows).final = h.final ∧ (h.apply block rows).finality = h.finality := by
  cases rows <;> exact ⟨rfl, rfl⟩

theorem mem_apply {h : ViewHistory Row} {block b : BlockNumber} {rows : Option (List Row)}
    (hb : b ∈ (h.apply block rows).blocks) : (b = block ∧ rows.isSome) ∨ b ∈ h.blocks := by
  cases rows with
  | none => exact .inr hb
  | some l =>
    rcases ExtTreeMap.mem_insert.mp hb with hb | hb
    · exact .inl ⟨(LawfulEqCmp.eq_of_compare hb).symm, rfl⟩
    · exact .inr hb

theorem cut_cut (h : ViewHistory Row) (p : BlockNumber) : (h.cut p).cut p = h.cut p := by
  simp [cut, OrdMap.keep_keep]

theorem cut_insert (h : ViewHistory Row) {block p : BlockNumber} (hp : p < block)
    (rows : List Row) :
    ({ h with blocks := h.blocks.insert block rows } : ViewHistory Row).cut p = h.cut p := by
  simp only [cut, Chain.keep_insert h.blocks hp]

end ViewHistory

/-- An engine, and what it was given. -/
structure PipelineWorld where
  engine : PipelineEngine
  /-- the rows of each table, by block -/
  tables : String → Chain Row := fun _ => ∅
  /-- the rows that were at or below finality when it advanced -/
  final : String → Chain Row := fun _ => ∅
  /-- what each view was given by its source -/
  views : String → ViewHistory Row := fun _ => {}

namespace PipelineWorld

variable [ViewStorage]

/-- The rows that a batch gives to a view, if any: those of the table, or what the reducer that it
reads emits in the flow of the block. -/
def given (w : PipelineWorld) (store : Store) (table : String) (block : BlockNumber)
    (rows : List Row) (name : String) : Option (List Row) :=
  w.engine.nodes.mvs[name]?.bind fun v =>
    (w.engine.nodes.flowRows store block w.engine.pipeline
      ((∅ : Nodes.OutputRows).insert table rows))[ViewNode.source v]?

/-- The rows of the tables, with those of one more block. -/
def withRows (w : PipelineWorld) (table : String) (block : BlockNumber) (rows : List Row) :
    String → Chain Row :=
  Function.update w.tables table ((w.tables table).insert block rows)

omit [ViewStorage] in
theorem mem_withRows {w : PipelineWorld} {table table' : String} {block b : BlockNumber}
    {rows : List Row} : b ∈ w.withRows table block rows table' ↔
      (table' = table ∧ b = block) ∨ b ∈ w.tables table' := by
  by_cases heq : table' = table
  · subst heq
    rw [withRows, Function.update_self, ExtTreeMap.mem_insert, LawfulEqCmp.compare_eq_iff_eq,
      eq_comm]
    simp
  · rw [withRows, Function.update_of_ne heq]
    simp [heq]

/-- No final row is above `p`. -/
def FinalBelow (w : PipelineWorld) (p : BlockNumber) : Prop :=
  (∀ table, ∀ b ∈ w.final table, b ≤ p) ∧ ∀ name, ∀ b ∈ (w.views name).final, b ≤ p

/-- The blocks above `p` are gone, from the tables and from what the views were given. -/
def cut (w : PipelineWorld) (e' : PipelineEngine) (p : BlockNumber) : PipelineWorld where
  engine := e'
  tables table := OrdMap.keep (w.tables table) (· ≤ p)
  final := w.final
  views name := (w.views name).cut p

end PipelineWorld

/-- One call. The blocks of a table come in order, a batch that fails is undone to a block that
keeps the final rows, and finality does not go back. In a *timely* run a checkpoint comes when every
row at or below finality was there when finality advanced. -/
inductive PipelineStep [ViewStorage] [NodeBuild PipelineReducer PipelineView] (timely : Prop) :
    PipelineWorld → PipelineWorld → Prop
  | batch {w : PipelineWorld} {e' writes changes} (store : Store) (table : String)
      (block : BlockNumber) (rows : List Row) (hnew : ∀ b ∈ w.tables table, b < block)
      (h : w.engine.processBatchDeferred store table block rows = (e', writes, .ok changes)) :
      PipelineStep timely w
        { w with
          engine := e'
          tables := w.withRows table block rows
          views name := (w.views name).apply block (w.given store table block rows name) }
  | failed {w : PipelineWorld} {e₁ e' writes err} (store : Store) (table : String)
      (block : BlockNumber) (rows : List Row) (undo : Store) (pending : List WriteBatch)
      {latest p : BlockNumber} (hnew : ∀ b ∈ w.tables table, b < block)
      (hbatch : w.engine.processBatchDeferred store table block rows = (e₁, writes, .error err))
      (hlatest : w.engine.latestBlock = some latest) (hp : p ≤ latest) (hblock : p < block)
      (hfinal : w.FinalBelow p)
      (hundo : e₁.undoIngest undo pending (some p) = (e', .ok ())) :
      PipelineStep timely w (w.cut e' p)
  | takeChanges {w : PipelineWorld} :
      PipelineStep timely w { w with engine := w.engine.takeChanges.1 }
  | rollback {w : PipelineWorld} {e' writes changes} (store : Store) (pending : List WriteBatch)
      {p : BlockNumber} (htarget : w.engine.Target p)
      (h : w.engine.rollbackToBatch store pending p = (e', writes, .ok changes)) :
      PipelineStep timely w (w.cut e' p)
  | advanceFinality {w : PipelineWorld} {block : BlockNumber}
      (hmono : w.engine.finalizedBlock ≤ block) (hmax : block ≠ BlockNumber.max) :
      PipelineStep timely w
        { w with
          engine := w.engine.advanceFinality block
          final := if w.engine.finalityReached block then w.final
            else fun table => OrdMap.keep (w.tables table) (· ≤ block)
          views := if w.engine.finalityReached block then w.views
            else fun name => (w.views name).finalTo block }
  | writeCheckpoint {w : PipelineWorld}
      (htimely : timely → w.engine.hasFinalized = true ∧ ∀ table, ∀ b ∈ w.tables table,
        b ≤ w.engine.finalizedBlock → b ∈ w.final table) :
      PipelineStep timely w { w with engine := w.engine.writeCheckpoint.1 }
  | setCommittedCheckpoint {w : PipelineWorld} (checkpoint : Nat) :
      PipelineStep timely w { w with engine := { w.engine with committedCheckpoint := checkpoint } }
  | setRollbackChain {w : PipelineWorld} (chain : List (BlockNumber × String)) :
      PipelineStep timely w { w with engine := w.engine.setRollbackChain chain }
  | takeHashChanges {w : PipelineWorld} :
      PipelineStep timely w { w with engine := w.engine.takeHashChanges.1 }

/-! ## One view -/

/-- A view without a window is what its history says. -/
def PipelineView.Holds (v : PipelineView) (h : ViewHistory Row) : Prop :=
  v.shape.slidingWindow = none → ViewInv v.shape v.engine h

namespace PipelineView.Holds

variable [ViewStorage] {h : ViewHistory Row} {v : PipelineView}

theorem applyRows (hv : v.Holds h) (store : Store) {block : BlockNumber} (rows : List Row)
    (hnew : ∀ b ∈ h.blocks, b < block) :
    (ViewNode.applyRows v store block rows).1.Holds
      { h with blocks := h.blocks.insert block rows } :=
  fun hwindow => (hv hwindow).step hwindow (.applyRows _ block rows hnew)

theorem discardChanges (hv : v.Holds h) : (ViewNode.discardChanges v).Holds h := by
  intro hwindow
  have hi := hv hwindow
  exact hi.of_rep (fun st => (hi.rep st).of_eq rfl rfl rfl) hi.pending rfl hi.finality

theorem takeChanges (hv : v.Holds h) : (ViewNode.takeChanges v).1.Holds h :=
  fun hwindow => (hv hwindow).step hwindow .takeChanges

/-- A rollback that keeps the final blocks. -/
theorem rollback (hv : v.Holds h) {p : BlockNumber} (hp : ∀ b ∈ h.final, b ≤ p) :
    (ViewNode.rollback v p).1.Holds (h.cut p) := by
  intro hwindow
  have hi := hv hwindow
  have hframe := MVEngine.rollback_frame hwindow v.engine p
  refine hi.of_rep (fun st => (hi.rep st).rollback hwindow hp) ?_ hframe.1 hi.finality
  intro key hk
  rw [show (ViewNode.rollback v p).1.engine.pendingDurable = v.engine.pendingDurable from
    hframe.2] at hk
  exact hi.pending key hk

/-- A second rollback to the same block. -/
theorem rollback_cut {p : BlockNumber} (hv : v.Holds (h.cut p)) (hp : ∀ b ∈ h.final, b ≤ p) :
    (ViewNode.rollback v p).1.Holds (h.cut p) := by
  have := hv.rollback (p := p) hp
  rwa [ViewHistory.cut_cut] at this

theorem advanceFinality (hv : v.Holds h) {block : BlockNumber}
    (hmono : ∀ f, h.finality = some f → f ≤ block) (hmax : block ≠ BlockNumber.max) :
    (ViewNode.advanceFinality v block).Holds (h.finalTo block) :=
  fun hwindow => (hv hwindow).step hwindow (.advanceFinality block hmono hmax)

theorem writeCheckpoint (hv : v.Holds h) (checkpoint : Nat) :
    (ViewNode.writeCheckpoint v checkpoint).1.Holds h :=
  fun hwindow => (hv hwindow).step hwindow (.writeCheckpoint checkpoint)

end PipelineView.Holds

/-- A view that may have the rows of one more block. -/
def PipelineView.Halfway (v : PipelineView) (h : ViewHistory Row) (block : BlockNumber) : Prop :=
  v.Holds h ∨ ∃ l, v.Holds { h with blocks := h.blocks.insert block l }

namespace PipelineView.Halfway

variable [ViewStorage] {h : ViewHistory Row} {v : PipelineView} {block : BlockNumber}

theorem discardChanges (hv : v.Halfway h block) :
    (ViewNode.discardChanges v).Halfway h block := by
  rcases hv with hv | ⟨l, hv⟩
  · exact .inl hv.discardChanges
  · exact .inr ⟨l, hv.discardChanges⟩

/-- The rollback below the block takes its rows. -/
theorem rollback (hv : v.Halfway h block) {p : BlockNumber} (hblock : p < block)
    (hp : ∀ b ∈ h.final, b ≤ p) : (ViewNode.rollback v p).1.Holds (h.cut p) := by
  rcases hv with hv | ⟨l, hv⟩
  · exact hv.rollback hp
  · have := hv.rollback (p := p) hp
    rwa [ViewHistory.cut_insert _ hblock] at this

end PipelineView.Halfway

/-- A step on some nodes, among them every view, takes a view from `P` to `Q`. -/
theorem Nodes.stepNodes_view {R V : Type} [ReducerNode R] [ViewNode V]
    {reducer : R → R × WriteBatch} {mv : V → V × WriteBatch} {P Q : V → Prop}
    (hstep : ∀ v, P v → Q (mv v).1) (hkeep : ∀ v, Q v → Q (mv v).1)
    {order : List PipelineNode} {nodes : Nodes R V} {name : String}
    (hP : ∀ v, nodes.mvs[name]? = some v → P v ∧ .mv name ∈ order) {v' : V}
    (h : (stepNodes reducer mv order nodes).1.mvs[name]? = some v') : Q v' := by
  rw [stepNodes_mvs] at h
  obtain ⟨v, hv, rfl⟩ := Option.map_eq_some_iff.mp h
  obtain ⟨hv, hmem⟩ := hP v hv
  obtain ⟨k, hk⟩ := Nat.exists_eq_succ_of_ne_zero
    (Nat.pos_iff_ne_zero.mp (List.count_pos_iff.mpr hmem))
  rw [hk, Function.iterate_succ_apply]
  exact Function.Iterate.rec Q (hstep v hv) hkeep k

theorem SettleEngine.takeChangesOf_nodes {R V : Type} [ReducerNode R] [ViewNode V]
    (views : List String) (nodes : Nodes R V) :
    (takeChangesOf views nodes).1 = (Nodes.stepNodes (fun r => (r, []))
      (fun v => ((ViewNode.takeChanges v).1, [])) (views.map .mv) nodes).1 := by
  induction views generalizing nodes with
  | nil => rfl
  | cons view views ih =>
    rw [takeChangesOf, List.map_cons, Nodes.stepNodes]
    dsimp only
    cases hv : nodes.mvs[view]? with
    | none =>
      rw [show Nodes.stepNode _ _ nodes (.mv view) = (nodes, []) by rw [Nodes.stepNode, hv]]
      exact ih nodes
    | some v =>
      rw [Nodes.stepNode, hv]
      exact ih _

/-- A checkpoint of blocks that were not durable yet: the next number, and a step of every node. -/
theorem SettleEngine.writeCheckpoint_written {R V : Type} [ReducerNode R] [ViewNode V]
    (e : SettleEngine R V) (h : ¬ e.durableThrough e.finalizedBlock = true) :
    e.writeCheckpoint.1.nodes = (Nodes.stepNodes
      (fun r => ReducerNode.writeCheckpoint r e.finalizedBlock (e.checkpoints + 1))
      (fun v => ViewNode.writeCheckpoint v (e.checkpoints + 1)) e.nodeOrder e.nodes).1 ∧
    e.writeCheckpoint.1.checkpoints = e.checkpoints + 1 ∧
    e.writeCheckpoint.1.hasFinalized = e.hasFinalized := by
  rw [writeCheckpoint, if_neg h]
  dsimp only
  obtain ⟨q, hq⟩ := (purgeRawRows_marks { e with
    checkpoints := e.checkpoints + 1
    nodes := (Nodes.stepNodes
      (fun r => ReducerNode.writeCheckpoint r e.finalizedBlock (e.checkpoints + 1))
      (fun v => ViewNode.writeCheckpoint v (e.checkpoints + 1)) e.nodeOrder e.nodes).1
    durableBlock := e.checkpointBlock }).1
  exact ⟨congrArg (·.nodes) hq, congrArg (·.checkpoints) hq, congrArg (·.hasFinalized) hq⟩

/-! ## The invariant -/

/-- The block is at or below the latest block. -/
def SettleEngine.Reached {R V : Type} (e : SettleEngine R V) (b : BlockNumber) : Prop :=
  ∃ latest, e.latestBlock = some latest ∧ b ≤ latest

/-- What holds along every run. -/
structure PipelineInv [ViewStorage] (schema : Schema) (w : PipelineWorld) : Prop where
  wired : w.engine.Wired schema
  views : ∀ name (v : PipelineView), w.engine.nodes.mvs[name]? = some v → v.Holds (w.views name)
  finality : ∀ name f, (w.views name).finality = some f → f ≤ w.engine.finalizedBlock
  final : ∀ name, ∀ b ∈ (w.views name).final,
    b ≤ w.engine.finalizedBlock ∧ w.engine.Reached b
  finalRows : ∀ table, ∀ b ∈ w.final table, b ≤ w.engine.finalizedBlock ∧ w.engine.Reached b
  given : ∀ name, ∀ b ∈ (w.views name).blocks, w.engine.Reached b
  reached : ∀ table, ∀ b ∈ w.tables table, w.engine.Reached b
  known : ∀ table, ∀ b ∈ w.tables table, table ∈ schema.tableNames
  /-- the blocks of a view are blocks of the table that feeds it -/
  origin : ∀ name source, w.engine.nodes.sourceOf (.mv name) = some source →
    ∀ b ∈ (w.views name).blocks, ∃ table, schema.FedBy table source ∧ b ∈ w.tables table
  /-- a view of a table was given the rows of the table -/
  direct : ∀ name source, w.engine.nodes.sourceOf (.mv name) = some source →
    source ∈ schema.tableNames → (w.views name).blocks = w.tables source

namespace PipelineInv

variable [ViewStorage] {schema : Schema} {w : PipelineWorld} {e' : PipelineEngine}

/-- A call that gives and takes no rows. -/
theorem quiet (h : PipelineInv schema w) (hsame : w.engine.SameWiring e')
    (hlatest : e'.latestBlock = w.engine.latestBlock)
    (hfinal : e'.finalizedBlock = w.engine.finalizedBlock)
    (hviews : ∀ name (v' : PipelineView), e'.nodes.mvs[name]? = some v' →
      v'.Holds (w.views name)) :
    PipelineInv schema { w with engine := e' } where
  wired := h.wired.of_same hsame
  views := hviews
  finality name f hf := by
    rw [show e'.finalizedBlock = _ from hfinal]
    exact h.finality name f hf
  final name b hb := by
    rw [SettleEngine.Reached, show e'.finalizedBlock = _ from hfinal,
      show e'.latestBlock = _ from hlatest]
    exact h.final name b hb
  finalRows table b hb := by
    rw [SettleEngine.Reached, show e'.finalizedBlock = _ from hfinal,
      show e'.latestBlock = _ from hlatest]
    exact h.finalRows table b hb
  given name b hb := by
    rw [SettleEngine.Reached, show e'.latestBlock = _ from hlatest]
    exact h.given name b hb
  reached table b hb := by
    rw [SettleEngine.Reached, show e'.latestBlock = _ from hlatest]
    exact h.reached table b hb
  known := h.known
  origin name source hsource := by
    rw [show e'.nodes.sourceOf = _ from hsame.sources] at hsource
    exact h.origin name source hsource
  direct name source hsource := by
    rw [show e'.nodes.sourceOf = _ from hsame.sources] at hsource
    exact h.direct name source hsource

/-- A call that takes the blocks above `p`, none of which is final. -/
theorem cut (h : PipelineInv schema w) {p : BlockNumber} (hsame : w.engine.SameWiring e')
    (hlatest : e'.latestBlock = some p) (hfinal : e'.finalizedBlock = w.engine.finalizedBlock)
    (hp : w.FinalBelow p)
    (hviews : ∀ name (v' : PipelineView), e'.nodes.mvs[name]? = some v' →
      v'.Holds ((w.views name).cut p)) :
    PipelineInv schema (w.cut e' p) where
  wired := h.wired.of_same hsame
  views := hviews
  finality name f hf := by
    rw [show (w.cut e' p).engine.finalizedBlock = _ from hfinal]
    exact h.finality name f hf
  final name b hb := by
    rw [show (w.cut e' p).engine.finalizedBlock = _ from hfinal]
    exact ⟨(h.final name b hb).1, p, hlatest, hp.2 name b hb⟩
  finalRows table b hb := by
    rw [show (w.cut e' p).engine.finalizedBlock = _ from hfinal]
    exact ⟨(h.finalRows table b hb).1, p, hlatest, hp.1 table b hb⟩
  given name b hb := by
    have hb : b ∈ OrdMap.keep (w.views name).blocks (· ≤ p) := hb
    exact ⟨p, hlatest, by simpa using (OrdMap.mem_keep ..).mp hb |>.2⟩
  reached table b hb := by
    have hb : b ∈ OrdMap.keep (w.tables table) (· ≤ p) := hb
    exact ⟨p, hlatest, by simpa using (OrdMap.mem_keep ..).mp hb |>.2⟩
  known table b hb := h.known table b ((OrdMap.mem_keep ..).mp hb).1
  origin name source hsource b hb := by
    rw [show (w.cut e' p).engine.nodes.sourceOf = _ from hsame.sources] at hsource
    obtain ⟨hb, hle⟩ := (OrdMap.mem_keep ..).mp hb
    obtain ⟨table, hfed, hb⟩ := h.origin name source hsource b hb
    exact ⟨table, hfed, (OrdMap.mem_keep ..).mpr ⟨hb, hle⟩⟩
  direct name source hsource htable := by
    rw [show (w.cut e' p).engine.nodes.sourceOf = _ from hsame.sources] at hsource
    exact congrArg (OrdMap.keep · (· ≤ p)) (h.direct name source hsource htable)

/-! ### A batch -/

section Batch

variable {store : Store} {table : String} {block : BlockNumber} {rows : List Row}

/-- What a batch gives to a view is of the table that feeds it. -/
theorem given_some (h : PipelineInv schema w) {name : String} {l : List Row}
    (hgiven : w.given store table block rows name = some l) :
    ∃ source, w.engine.nodes.sourceOf (.mv name) = some source ∧ schema.FedBy table source := by
  obtain ⟨v, hv, hl⟩ := Option.bind_eq_some_iff.mp hgiven
  refine ⟨ViewNode.source v, ?_, ?_⟩
  · rw [Nodes.sourceOf, hv]
    rfl
  · exact Nodes.flowRows_fed (h.wired.closed table) w.engine.pipeline
      (SettleEngine.rowsOf_table schema table rows) _ l hl

/-- A block of a table is new to the views that the table feeds. -/
theorem new_block (h : PipelineInv schema w) (hvalid : schema.validate = .ok ())
    (htable : table ∈ schema.tableNames) (hnew : ∀ b ∈ w.tables table, b < block)
    {name source : String} (hsource : w.engine.nodes.sourceOf (.mv name) = some source)
    (hfed : schema.FedBy table source) : ∀ b ∈ (w.views name).blocks, b < block := by
  intro b hb
  obtain ⟨table', hfed', hb⟩ := h.origin name source hsource b hb
  obtain rfl := hfed'.unique hvalid (h.known table' b hb) htable hfed
  exact hnew b hb

/-- **A batch**: each view makes the step on the rows that it is given. -/
theorem batch (h : PipelineInv schema w) (hvalid : schema.validate = .ok ())
    (hnew : ∀ b ∈ w.tables table, b < block) {writes : WriteBatch} {changes : List ChangeRecord}
    (hbatch : w.engine.processBatchDeferred store table block rows = (e', writes, .ok changes)) :
    PipelineInv schema
      { w with
        engine := e'
        tables := w.withRows table block rows
        views name := (w.views name).apply block (w.given store table block rows name) } := by
  have hsame : w.engine.SameWiring e' := by
    have := SettleEngine.processBatchDeferred_wiring w.engine store table block rows
    rwa [hbatch] at this
  obtain ⟨htable, hok, hnodes⟩ := h.wired.batch_ok hbatch
  -- the marks after the batch
  obtain ⟨hfinal, hlatest⟩ : e'.finalizedBlock = w.engine.finalizedBlock ∧
      e'.latestBlock = SettleEngine.bumpLatest w.engine.latestBlock block := by
    rcases w.engine.processBatchDeferred_cases store table block rows with
      ⟨_, _, _, heq⟩ | ⟨nodes, cs, -, heq⟩
    · rw [hbatch] at heq
      cases heq
    · rw [hbatch] at heq
      cases heq
      exact ⟨rfl, rfl⟩
  have hreached : ∀ b, w.engine.Reached b → e'.Reached b := by
    rintro b ⟨latest, hl, hb⟩
    refine ⟨max latest block, ?_, UInt64.le_trans hb (BlockNumber.le_max_left latest block)⟩
    rw [hlatest, hl]
    rfl
  have hreachedBlock : e'.Reached block := by
    cases hl : w.engine.latestBlock with
    | none => exact ⟨block, by rw [hlatest, hl]; rfl, UInt64.le_refl block⟩
    | some latest =>
      exact ⟨max latest block, by rw [hlatest, hl]; rfl, BlockNumber.le_max_right latest block⟩
  -- the nodes after the batch
  have hstepped := (h.wired.processed_flow hvalid store htable block rows).2 hok
  rw [← hnodes] at hstepped
  have hsourceOf : ∀ {name} {v : PipelineView}, w.engine.nodes.mvs[name]? = some v →
      w.engine.nodes.sourceOf (.mv name) = some (ViewNode.source v) := by
    intro name v hv
    rw [Nodes.sourceOf, hv]
    rfl
  refine ⟨h.wired.of_same hsame, ?_, ?_, ?_, ?_, ?_, ?_, ?_, ?_, ?_⟩
  · intro name v' hv'
    rw [hstepped.mvs] at hv'
    cases hv : w.engine.nodes.mvs[name]? with
    | none =>
      rw [Nodes.mvStep, hv] at hv'
      simp at hv'
    | some v =>
      have hold := h.views name v hv
      rw [if_pos (h.wired.mem_pipeline hv), Nodes.mvStep, hv, Option.bind_some] at hv'
      have hgiven : w.given store table block rows name
          = (w.engine.nodes.flowRows store block w.engine.pipeline
            ((∅ : Nodes.OutputRows).insert table rows))[ViewNode.source v]? := by
        rw [PipelineWorld.given, hv, Option.bind_some]
      dsimp only
      cases hout : (w.engine.nodes.flowRows store block w.engine.pipeline
          ((∅ : Nodes.OutputRows).insert table rows))[ViewNode.source v]? with
      | none =>
        rw [hgiven, hout]
        rw [hout] at hv'
        cases hv'
        exact hold
      | some l =>
        rw [hgiven, hout]
        rw [hout] at hv'
        cases hv'
        obtain ⟨source, hsource, hfed⟩ := h.given_some (hgiven.trans hout)
        exact hold.applyRows store l (h.new_block hvalid htable hnew hsource hfed)
  · intro name f hf
    rw [hfinal]
    dsimp only at hf
    rw [(ViewHistory.apply_final ..).2] at hf
    exact h.finality name f hf
  · intro name b hb
    rw [hfinal]
    dsimp only at hb
    rw [(ViewHistory.apply_final ..).1] at hb
    exact ⟨(h.final name b hb).1, hreached b (h.final name b hb).2⟩
  · intro table' b hb
    rw [hfinal]
    exact ⟨(h.finalRows table' b hb).1, hreached b (h.finalRows table' b hb).2⟩
  · intro name b hb
    rcases ViewHistory.mem_apply hb with ⟨rfl, -⟩ | hb
    · exact hreachedBlock
    · exact hreached b (h.given name b hb)
  · intro table' b hb
    rcases PipelineWorld.mem_withRows.mp hb with ⟨-, rfl⟩ | hb
    · exact hreachedBlock
    · exact hreached b (h.reached table' b hb)
  · intro table' b hb
    rcases PipelineWorld.mem_withRows.mp hb with ⟨rfl, -⟩ | hb
    · exact htable
    · exact h.known table' b hb
  · intro name source hsource b hb
    rw [show e'.nodes.sourceOf = _ from hsame.sources] at hsource
    rcases ViewHistory.mem_apply hb with ⟨rfl, hgiven⟩ | hb
    · obtain ⟨l, hl⟩ := Option.isSome_iff_exists.mp hgiven
      obtain ⟨source', hsource', hfed⟩ := h.given_some hl
      rw [hsource] at hsource'
      cases hsource'
      exact ⟨table, hfed, PipelineWorld.mem_withRows.mpr (.inl ⟨rfl, rfl⟩)⟩
    · obtain ⟨table', hfed, hb⟩ := h.origin name source hsource b hb
      exact ⟨table', hfed, PipelineWorld.mem_withRows.mpr (.inr hb)⟩
  · intro name source hsource hsourceTable
    rw [show e'.nodes.sourceOf = _ from hsame.sources] at hsource
    have hdirect := h.direct name source hsource hsourceTable
    dsimp only
    obtain ⟨v, hv, hvsource⟩ := Option.map_eq_some_iff.mp hsource
    have hgiven : w.given store table block rows name
        = ((∅ : Nodes.OutputRows).insert table rows)[source]? := by
      rw [PipelineWorld.given, hv, Option.bind_some, hvsource]
      exact Nodes.getElem?_flowRows_of_not_mem _
        (SettleEngine.table_not_mem hvalid h.wired.pipeline hsourceTable)
    rw [hgiven, ExtTreeMap.getElem?_insert, PipelineWorld.withRows]
    by_cases heq : table = source
    · subst heq
      rw [if_pos ReflCmp.compare_self, Function.update_self, ← hdirect]
      rfl
    · rw [if_neg (by simpa using heq), Function.update_of_ne (Ne.symm heq),
        ExtTreeMap.getElem?_empty]
      exact hdirect

end Batch

/-! ### The other calls -/

theorem mem_pipeline (h : PipelineInv schema w) {name : String} {v : PipelineView}
    (hv : w.engine.nodes.mvs[name]? = some v) : .mv name ∈ w.engine.pipeline :=
  h.wired.mem_pipeline hv

/-- A block at or above finality keeps the final rows. -/
theorem final_le (h : PipelineInv schema w) {p : BlockNumber} (hp : w.engine.finalizedBlock ≤ p) :
    w.FinalBelow p :=
  ⟨fun table b hb => UInt64.le_trans (h.finalRows table b hb).1 hp,
    fun name b hb => UInt64.le_trans (h.final name b hb).1 hp⟩

/-- A rollback of the nodes, to a block at or above what is final. -/
theorem rolledBack (h : PipelineInv schema w) {p : BlockNumber} (hp : w.FinalBelow p)
    (name : String) {v' : PipelineView} (hv' : (w.engine.rolledBackNodes p).mvs[name]? = some v') :
    v'.Holds ((w.views name).cut p) := by
  exact Nodes.stepNodes_view (P := fun v => v.Holds (w.views name))
    (Q := fun v => v.Holds ((w.views name).cut p)) (fun v hv => hv.rollback (hp.2 name))
    (fun v hv => hv.rollback_cut (hp.2 name))
    (fun v hv => ⟨h.views name v hv, List.mem_reverse.mpr (h.mem_pipeline hv)⟩) hv'

theorem rollback (h : PipelineInv schema w) {store : Store} {pending : List WriteBatch}
    {p : BlockNumber} (htarget : w.engine.Target p) {writes : WriteBatch}
    {changes : List ChangeRecord}
    (hcall : w.engine.rollbackToBatch store pending p = (e', writes, .ok changes)) :
    PipelineInv schema (w.cut e' p) := by
  obtain ⟨hunwound, -, -⟩ := SettleEngine.rollbackToBatch_spec htarget hcall
  have hsame : w.engine.SameWiring e' := by
    have := SettleEngine.rollbackToBatch_wiring w.engine store pending p
    rwa [hcall] at this
  have hp : w.FinalBelow p := h.final_le htarget.2
  refine h.cut hsame hunwound.latestBlock hunwound.finalizedBlock hp ?_
  intro name v' hv'
  rw [hunwound.nodes] at hv'
  exact h.rolledBack hp name hv'

/-- **A batch that fails** and is undone leaves nothing of its block. -/
theorem failed (h : PipelineInv schema w) (hvalid : schema.validate = .ok ()) {e₁ : PipelineEngine}
    {store undo : Store} {pending : List WriteBatch} {table : String} {block latest p : BlockNumber}
    {rows : List Row} {writes : WriteBatch} {err : Error}
    (hnew : ∀ b ∈ w.tables table, b < block)
    (hbatch : w.engine.processBatchDeferred store table block rows = (e₁, writes, .error err))
    (hlatest : w.engine.latestBlock = some latest) (hle : p ≤ latest) (hblock : p < block)
    (hp : w.FinalBelow p) (hundo : e₁.undoIngest undo pending (some p) = (e', .ok ())) :
    PipelineInv schema (w.cut e' p) := by
  have hsame₁ : w.engine.SameWiring e₁ := by
    have := SettleEngine.processBatchDeferred_wiring w.engine store table block rows
    rwa [hbatch] at this
  have hsame : e₁.SameWiring e' := by
    have := SettleEngine.undoIngest_wiring e₁ undo pending (some p)
    rwa [hundo] at this
  obtain ⟨nodes₁, rfl, honce⟩ := h.wired.failed_once hvalid hbatch
  -- a view made at most one step, on the block
  have hone : ∀ name v', nodes₁.mvs[name]? = some v' →
      .mv name ∈ w.engine.pipeline ∧ v'.Halfway (w.views name) block := by
    intro name v' hv'
    refine ⟨(h.wired.of_same hsame₁).mem_pipeline hv', ?_⟩
    rcases honce with rfl | ⟨htable, honce⟩
    · exact .inl (h.views name v' hv')
    · rcases (honce (.mv name)).mv hv' with hv | ⟨v, l, hv, hfed, rfl⟩
      · exact .inl (h.views name v' hv)
      · refine .inr ⟨l, (h.views name v hv).applyRows store l ?_⟩
        refine h.new_block hvalid htable hnew ?_ hfed
        rw [Nodes.sourceOf, hv]
        rfl
  obtain rfl := SettleEngine.undoIngest_unwound
    (show ({ w.engine with nodes := nodes₁ } : PipelineEngine).latestBlock = some latest from
      hlatest) hle hundo
  refine h.cut (hsame₁.trans hsame) rfl rfl hp ?_
  intro name v' hv'
  have hdiscarded : ∀ v : PipelineView,
      ({ w.engine with nodes := nodes₁ } : PipelineEngine).discardChanges.nodes.mvs[name]?
          = some v →
        v.Halfway (w.views name) block ∧ .mv name ∈ w.engine.pipeline.reverse := by
    intro v hv
    rw [SettleEngine.discardChanges] at hv
    dsimp only at hv
    rw [Nodes.stepNodes_mvs] at hv
    obtain ⟨v₁, hv₁, rfl⟩ := Option.map_eq_some_iff.mp hv
    obtain ⟨hmem, hhalf⟩ := hone name v₁ hv₁
    exact ⟨Function.Iterate.rec (fun v : PipelineView => v.Halfway (w.views name) block) hhalf
      (fun _ => PipelineView.Halfway.discardChanges) _, List.mem_reverse.mpr hmem⟩
  exact Nodes.stepNodes_view (Q := fun v => v.Holds ((w.views name).cut p))
    (fun v hv => PipelineView.Halfway.rollback hv hblock (hp.2 name))
    (fun v hv => hv.rollback_cut (hp.2 name)) hdiscarded hv'

theorem takeChanges (h : PipelineInv schema w) :
    PipelineInv schema { w with engine := w.engine.takeChanges.1 } := by
  refine h.quiet (.of_nodes (SettleEngine.takeChangesOf_sourceOf _ _)) rfl rfl ?_
  intro name v' hv'
  rw [SettleEngine.takeChanges, SettleEngine.takeChangesOf_nodes] at hv'
  refine Nodes.stepNodes_view (P := fun v => v.Holds (w.views name))
    (Q := fun v => v.Holds (w.views name)) (fun v hv => hv.takeChanges)
    (fun v hv => hv.takeChanges) (fun v hv => ⟨h.views name v hv, ?_⟩) hv'
  refine List.mem_map.mpr ⟨name, List.mem_filterMap.mpr ⟨.mv name, ?_, rfl⟩, rfl⟩
  exact h.mem_pipeline hv

theorem writeCheckpoint (h : PipelineInv schema w) :
    PipelineInv schema { w with engine := w.engine.writeCheckpoint.1 } := by
  have hmarks : w.engine.writeCheckpoint.1.latestBlock = w.engine.latestBlock ∧
      w.engine.writeCheckpoint.1.finalizedBlock = w.engine.finalizedBlock := by
    rcases w.engine.writeCheckpoint_marks with ⟨-, heq⟩ | ⟨-, ⟨nodes, q, k, heq⟩, -⟩
    · rw [heq]
      exact ⟨rfl, rfl⟩
    · rw [heq]
      exact ⟨rfl, rfl⟩
  refine h.quiet (SettleEngine.writeCheckpoint_wiring _) hmarks.1 hmarks.2 ?_
  intro name v' hv'
  by_cases hdurable : w.engine.durableThrough w.engine.finalizedBlock = true
  · rw [SettleEngine.writeCheckpoint, if_pos hdurable] at hv'
    exact h.views name v' hv'
  · rw [(w.engine.writeCheckpoint_written hdurable).1] at hv'
    exact Nodes.stepNodes_view (P := fun v => v.Holds (w.views name))
      (Q := fun v => v.Holds (w.views name)) (fun v hv => hv.writeCheckpoint _)
      (fun v hv => hv.writeCheckpoint _)
      (fun v hv => ⟨h.views name v hv, SettleEngine.mem_nodeOrder_mv hv⟩) hv'

variable [NodeBuild PipelineReducer PipelineView]

omit [NodeBuild PipelineReducer PipelineView] in
theorem advanceFinality (h : PipelineInv schema w) {block : BlockNumber}
    (hmono : w.engine.finalizedBlock ≤ block) (hmax : block ≠ BlockNumber.max) :
    PipelineInv schema
      { w with
        engine := w.engine.advanceFinality block
        final := if w.engine.finalityReached block then w.final
          else fun table => OrdMap.keep (w.tables table) (· ≤ block)
        views := if w.engine.finalityReached block then w.views
          else fun name => (w.views name).finalTo block } := by
  by_cases hreached : w.engine.finalityReached block = true
  · rw [if_pos hreached, if_pos hreached]
    have heq : w.engine.advanceFinality block = w.engine := by
      rw [SettleEngine.advanceFinality]
      exact if_pos hreached
    rw [heq]
    exact h
  · rw [if_neg hreached, if_neg hreached]
    have hsame := SettleEngine.advanceFinality_wiring w.engine block
    have heq : w.engine.advanceFinality block = SettleEngine.pruneBlockHashes
        { w.engine with
          nodes := (Nodes.stepNodes (fun r => (ReducerNode.advanceFinality r block, []))
            (fun v => (ViewNode.advanceFinality v block, [])) w.engine.nodeOrder w.engine.nodes).1
          nodesFinalAt := none
          finalizedBlock := block
          hasFinalized := true } := by
      rw [SettleEngine.advanceFinality]
      exact if_neg hreached
    have hfinal : (w.engine.advanceFinality block).finalizedBlock = block := by
      rw [heq]
      rfl
    have hlatest : (w.engine.advanceFinality block).latestBlock = w.engine.latestBlock := by
      rw [heq]
      rfl
    have hreachedOf : ∀ b, w.engine.Reached b → (w.engine.advanceFinality block).Reached b := by
      intro b hb
      rwa [SettleEngine.Reached, hlatest]
    refine ⟨h.wired.of_same hsame, ?_, ?_, ?_, ?_, ?_, ?_, h.known, ?_, ?_⟩
    · intro name v' hv'
      rw [heq] at hv'
      refine Nodes.stepNodes_view (P := fun v => v.Holds (w.views name))
        (Q := fun v => v.Holds ((w.views name).finalTo block)) (fun v hv => ?_) (fun v hv => ?_)
        (fun v hv => ⟨h.views name v hv, SettleEngine.mem_nodeOrder_mv hv⟩) hv'
      · exact hv.advanceFinality (fun f hf => UInt64.le_trans (h.finality name f hf) hmono) hmax
      · refine hv.advanceFinality (fun f hf => ?_) hmax
        cases hf
        exact UInt64.le_refl block
    · intro name f hf
      cases hf
      exact UInt64.le_of_eq hfinal.symm
    · intro name b hb
      obtain ⟨hb, hle⟩ := (OrdMap.mem_keep ..).mp hb
      rw [hfinal]
      exact ⟨by simpa using hle, hreachedOf b (h.given name b hb)⟩
    · intro table b hb
      obtain ⟨hb, hle⟩ := (OrdMap.mem_keep ..).mp hb
      rw [hfinal]
      exact ⟨by simpa using hle, hreachedOf b (h.reached table b hb)⟩
    · exact fun name b hb => hreachedOf b (h.given name b hb)
    · exact fun table b hb => hreachedOf b (h.reached table b hb)
    · intro name source hsource
      rw [show (w.engine.advanceFinality block).nodes.sourceOf = _ from hsame.sources] at hsource
      exact h.origin name source hsource
    · intro name source hsource
      rw [show (w.engine.advanceFinality block).nodes.sourceOf = _ from hsame.sources] at hsource
      exact h.direct name source hsource

/-- **Every call keeps the invariant.** -/
theorem step (h : PipelineInv schema w) (hvalid : schema.validate = .ok ()) {timely : Prop}
    {w' : PipelineWorld} (hstep : PipelineStep timely w w') : PipelineInv schema w' := by
  cases hstep with
  | batch store table block rows hnew hbatch => exact h.batch hvalid hnew hbatch
  | failed store table block rows undo pending hnew hbatch hlatest hp hblock hfinal hundo =>
    exact h.failed hvalid hnew hbatch hlatest hp hblock hfinal hundo
  | takeChanges => exact h.takeChanges
  | rollback store pending htarget hcall => exact h.rollback htarget hcall
  | advanceFinality hmono hmax => exact h.advanceFinality hmono hmax
  | writeCheckpoint _ => exact h.writeCheckpoint
  | setCommittedCheckpoint checkpoint =>
    exact h.quiet ⟨rfl, rfl, rfl, rfl, rfl⟩ rfl rfl h.views
  | setRollbackChain chain =>
    obtain ⟨hashes, changes, heq⟩ := w.engine.setRollbackChain_marks chain
    rw [heq]
    exact h.quiet ⟨rfl, rfl, rfl, rfl, rfl⟩ rfl rfl h.views
  | takeHashChanges => exact h.quiet ⟨rfl, rfl, rfl, rfl, rfl⟩ rfl rfl h.views

theorem run (h : PipelineInv schema w) (hvalid : schema.validate = .ok ()) {timely : Prop}
    {w' : PipelineWorld} (hrun : Relation.ReflTransGen (PipelineStep timely) w w') :
    PipelineInv schema w' := by
  induction hrun with
  | refl => exact h
  | tail _ hstep ih => exact ih.step hvalid hstep

end PipelineInv

/-! ## The state of the views along a run -/

theorem ViewInv.init {v : MVShape} (hv : v.slidingWindow = none) :
    ViewInv v {} ({} : ViewHistory Row) := by
  refine ViewRun.inv hv ⟨noMvState, {}, rfl, ?_, .refl⟩
  simp [MVEngine.reload, MVEngine.restore, hv, noMvState]

/-- The folds of a view that is what its history says. -/
theorem ViewInv.folds {v : MVShape} {m : MVEngine} {h : ViewHistory Row} (hi : ViewInv v m h)
    (hv : v.slidingWindow = none) :
    (∀ key g, m.groups[key]? = some g →
      g.aggs.map Agg.currentValue = v.foldGroup h.blocks key ∧
      g.aggs.map Agg.hasData
        = v.feeds.map fun f => f.func.hasData f.columnType (v.columnList key f h.blocks)) ∧
    (∀ key, m.groups[key]? = none → v.foldHasData h.blocks key = false) ∧
    (∀ n key state, .putGroup key state ∈ (m.writeCheckpoint v n).2 →
      ∃ aggs, v.restoreGroup state = some aggs ∧
        aggs.map Agg.currentValue = v.foldGroup h.final key ∧
        aggs.map Agg.hasData
          = v.feeds.map fun f => f.func.hasData f.columnType (v.columnList key f h.final)) := by
  have hrep := hi.rep noMvState
  refine ⟨?_, ?_, ?_⟩
  · intro key g hg
    exact (hrep.groups key g hg).folds hrep.below
  · intro key hg
    rw [v.foldHasData_eq_false_iff]
    intro f hf
    rw [hrep.absent key hg f hf]
    exact OrdMap.mapEntries_empty _
  · intro n key state hw
    obtain ⟨aggs, hrestore, hgroup⟩ := hrep.stored_folds hi.pending hv hw
    exact ⟨aggs, hrestore, hgroup.folds_final⟩

/-- The views of a new engine are those that were built. -/
theorem SettleEngine.new_views {R V : Type} [ReducerNode R] [ViewNode V] [NodeBuild R V]
    {schema : Schema} {store : Store} {rayon : Bool} {e : SettleEngine R V}
    (hvalid : schema.validate = .ok ()) (h : SettleEngine.new schema store rayon = .ok e)
    {P : V → Prop} (hP : ∀ {d types} {v : V}, NodeBuild.newView R d store types = .ok v → P v)
    (name : String) {v : V} (hv : e.nodes.mvs[name]? = some v) : P v := by
  obtain ⟨-, -, hviews, -⟩ := Schema.objectNames_nodup
    (Schema.checkNames_ok.mp (Schema.validate_ok.mp hvalid).2.2.1).1
  unfold SettleEngine.new at h
  dsimp only at h
  cases hr : newReducers (R := R) (V := V) schema store (newRawTables schema) with
  | error err =>
    rw [hr] at h
    cases h
  | ok reducers =>
    cases hmvs : newMvs (R := R) (V := V) schema store with
    | error err =>
      rw [hr, hmvs] at h
      cases h
    | ok mvs =>
      rw [hr, hmvs] at h
      cases h
      obtain ⟨hnone, hsome⟩ := foldlM_insert hviews hmvs
      by_cases hname : name ∈ schema.materializedViews.map MVDef.name
      · obtain ⟨d, hd, rfl⟩ := List.mem_map.mp hname
        obtain ⟨v', hmake, hnode⟩ := hsome d hd
        obtain rfl : v' = v := Option.some.inj (hnode.symm.trans hv)
        exact hP hmake
      · rw [show mvs[name]? = _ from hnone name hname, ExtTreeMap.getElem?_empty] at hv
        cases hv

theorem PipelineInv.init [ViewStorage] {schema : Schema} {e : PipelineEngine}
    (hwired : e.Wired schema)
    (hfresh : ∀ (name : String) (v : PipelineView), e.nodes.mvs[name]? = some v → v.engine = {}) :
    PipelineInv schema { engine := e } where
  wired := hwired
  views name v hv hwindow := by
    rw [hfresh name v hv]
    exact .init hwindow
  finality _ _ hf := by cases hf
  final _ b hb := absurd hb (by simp)
  finalRows _ b hb := absurd hb (by simp)
  given _ b hb := absurd hb (by simp)
  reached _ b hb := absurd hb (by simp)
  known _ b hb := absurd hb (by simp)
  origin _ _ _ b hb := absurd hb (by simp)
  direct _ _ _ _ := rfl

/-- **The views of a pipeline are folds.** Take an engine of an accepted schema with new views, and
any run of its calls: batches on either way through the branches, batches that fail and are undone,
rollbacks, finality and checkpoints. In the state that it reaches, the groups of every view without
a window have the folds of what the view was given in the blocks that stand, a group that is not
there has no data, and what a checkpoint stores reads back as the folds of the final blocks. A view
of a table was given the rows of the table, and a view below reducers rows of one table's blocks. -/
theorem pipeline_views_are_folds [ViewStorage] [NodeBuild PipelineReducer PipelineView]
    (hbuild : BuildsSources PipelineReducer PipelineView) {schema : Schema} {opened : Store}
    {rayon : Bool} {e₀ : PipelineEngine} (hvalid : schema.validate = .ok ())
    (hfresh : ∀ {d types} {v : PipelineView},
      NodeBuild.newView PipelineReducer d opened types = .ok v → v.engine = {})
    (hnew : SettleEngine.new schema opened rayon = .ok e₀) {timely : Prop} {w : PipelineWorld}
    (hrun : Relation.ReflTransGen (PipelineStep timely) { engine := e₀ } w) {name : String}
    {v : PipelineView} (hv : w.engine.nodes.mvs[name]? = some v) :
    (v.shape.slidingWindow = none →
      (∀ key g, v.engine.groups[key]? = some g →
        g.aggs.map Agg.currentValue = v.shape.foldGroup (w.views name).blocks key ∧
        g.aggs.map Agg.hasData = v.shape.feeds.map fun f =>
          f.func.hasData f.columnType (v.shape.columnList key f (w.views name).blocks)) ∧
      (∀ key, v.engine.groups[key]? = none →
        v.shape.foldHasData (w.views name).blocks key = false) ∧
      (∀ n key state, .putGroup key state ∈ (v.engine.writeCheckpoint v.shape n).2 →
        ∃ aggs, v.shape.restoreGroup state = some aggs ∧
          aggs.map Agg.currentValue = v.shape.foldGroup (w.views name).final key ∧
          aggs.map Agg.hasData = v.shape.feeds.map fun f =>
            f.func.hasData f.columnType (v.shape.columnList key f (w.views name).final))) ∧
    (v.shape.source ∈ schema.tableNames → (w.views name).blocks = w.tables v.shape.source) ∧
    ∀ b ∈ (w.views name).blocks, ∃ table ∈ schema.tableNames,
      schema.FedBy table v.shape.source ∧ b ∈ w.tables table := by
  have hwired := SettleEngine.new_wired hbuild hvalid hnew
  have hi : PipelineInv schema w := (PipelineInv.init hwired fun name v hv =>
    SettleEngine.new_views hvalid hnew (P := fun v : PipelineView => v.engine = {}) hfresh name
      hv).run hvalid hrun
  have hsource : w.engine.nodes.sourceOf (.mv name) = some v.shape.source := by
    rw [Nodes.sourceOf, hv]
    rfl
  refine ⟨fun hwindow => (hi.views name v hv hwindow).folds hwindow,
    hi.direct name _ hsource, ?_⟩
  intro b hb
  obtain ⟨table, hfed, hb⟩ := hi.origin name _ hsource b hb
  exact ⟨table, hi.known table b hb, hfed, hb⟩

/-! ### Two branches -/

/-- The calls below, on a new engine of `twoBranches`, all succeed. -/
def twoBranchesCalls [ViewStorage] [NodeBuild PipelineReducer PipelineView] (e : PipelineEngine) :
    Bool :=
  let first := e.processBatchDeferred {} "t" 1 [userRow "bob"]
  let final := first.1.takeChanges.1.advanceFinality 1
  let second := final.processBatchDeferred {} "t" 2 [userRow "bob"]
  first.2.2.toBool && decide (first.1.takeChanges.1.finalizedBlock ≤ 1) && second.2.2.toBool &&
    decide (1 ≤ second.1.latestBlock.getD 0) && decide (second.1.finalizedBlock ≤ 1) &&
    (second.1.rollbackToBatch {} [] 1).2.2.toBool

/-- The engine after them. -/
def twoBranchesAfter [ViewStorage] [NodeBuild PipelineReducer PipelineView] (e : PipelineEngine) :
    PipelineEngine :=
  let first := e.processBatchDeferred {} "t" 1 [userRow "bob"]
  let final := first.1.takeChanges.1.advanceFinality 1
  let second := final.processBatchDeferred {} "t" 2 [userRow "bob"]
  (second.1.rollbackToBatch {} [] 1).1

/-- Block 1 and its finality, block 2, and back to block 1. -/
theorem twoBranches_run :
    letI := noViewStorage
    letI := countingNodes
    ∃ (e₀ : PipelineEngine) (w : PipelineWorld),
      SettleEngine.new twoBranches {} true = .ok e₀ ∧
      Relation.ReflTransGen (PipelineStep True) { engine := e₀ } w ∧
      w.engine = twoBranchesAfter e₀ ∧ 1 ∈ w.tables "t" := by
  let := noViewStorage
  let := countingNodes
  have hok : ((SettleEngine.new (R := PipelineReducer) (V := PipelineView) twoBranches {}
      true).toOption.map twoBranchesCalls) = some true := by
    decide +kernel
  cases hnew : SettleEngine.new (R := PipelineReducer) (V := PipelineView) twoBranches {} true with
  | error err =>
    rw [hnew] at hok
    cases hok
  | ok e₀ =>
    rw [hnew] at hok
    have hcalls : twoBranchesCalls e₀ = true := Option.some.inj hok
    simp only [twoBranchesCalls, Bool.and_eq_true, decide_eq_true_eq] at hcalls
    obtain ⟨⟨⟨⟨⟨hfirst, hmono⟩, hsecond⟩, hlatest⟩, hfinalized⟩, hback⟩ := hcalls
    obtain ⟨changes₁, hfirst⟩ := ok_of_toBool hfirst
    obtain ⟨changes₂, hsecond⟩ := ok_of_toBool hsecond
    obtain ⟨changes₃, hback⟩ := ok_of_toBool hback
    have h₁ : Relation.ReflTransGen (PipelineStep True) { engine := e₀ } _ :=
      .tail .refl (.batch {} "t" 1 [userRow "bob"] (fun b hb => by simp at hb)
        (Prod.ext rfl (Prod.ext rfl hfirst)))
    have h₂ := (h₁.tail .takeChanges).tail (.advanceFinality hmono (by decide))
    have h₃ := h₂.tail (.batch {} "t" 2 [userRow "bob"] (fun b hb => by
      rcases PipelineWorld.mem_withRows.mp hb with ⟨-, rfl⟩ | hb
      · decide
      · simp at hb) (Prod.ext rfl (Prod.ext rfl hsecond)))
    have h₄ := h₃.tail (.rollback {} [] ⟨hlatest, hfinalized⟩ (Prod.ext rfl (Prod.ext rfl hback)))
    exact ⟨e₀, _, rfl, h₄, rfl, (OrdMap.mem_keep ..).mpr ⟨PipelineWorld.mem_withRows.mpr (.inr
      (PipelineWorld.mem_withRows.mpr (.inl ⟨rfl, rfl⟩))), by decide⟩⟩

/-- The view of `t` after that run. -/
theorem pipeline_views_are_folds_twoBranches :
    letI := noViewStorage
    letI := countingNodes
    ∃ (e₀ : PipelineEngine) (w : PipelineWorld),
      SettleEngine.new twoBranches {} true = .ok e₀ ∧
      Relation.ReflTransGen (PipelineStep True) { engine := e₀ } w ∧ w.tables "t" ≠ ∅ ∧
      ∀ (name : String) (v : PipelineView), w.engine.nodes.mvs[name]? = some v →
        v.shape.source = "t" →
        v.shape.slidingWindow = none → ∀ key g, v.engine.groups[key]? = some g →
          g.aggs.map Agg.currentValue = v.shape.foldGroup (w.tables "t") key := by
  let := noViewStorage
  let := countingNodes
  obtain ⟨e₀, w, hnew, hrun, -, hrows⟩ := twoBranches_run
  refine ⟨e₀, w, hnew, hrun, ?_, ?_⟩
  · intro hempty
    rw [hempty] at hrows
    simp at hrows
  · intro name v hv hsource hwindow key g hg
    obtain ⟨hfold, hdirect, -⟩ := pipeline_views_are_folds countingNodes_sources
      twoBranches_valid (fun h => by cases h; rfl) hnew hrun hv
    rw [← hsource, ← hdirect (by rw [hsource]; decide)]
    exact ((hfold hwindow).1 key g hg).1

end Settle
