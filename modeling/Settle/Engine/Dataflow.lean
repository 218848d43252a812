import Settle.Engine.Dag

/-!
# A block as a dataflow

`process_batch_inner` of `src/engine/dag.rs` takes the rows of one table through the reducers and
the views. It does so in one of two ways: a loop over the whole pipeline, or the direct views and
then the branches in parallel.

`flowRows` is what a block gives, of the nodes before it alone: the rows of its table, and what
each reducer emits for the rows of its source. **Both ways make the step of every node on the rows
of its source in the flow** (`processSequential_flow`, `processParallel_flow`), so they fail
together, and when neither does they leave the same nodes. The order of the pipeline is free as
long as sources come first, and so is the order of the branches.
-/

namespace Settle

open Std

variable {R V : Type} [ReducerNode R] [ViewNode V]

namespace Nodes

/-! ## The flow -/

/-- What a reducer does with the rows of its source. -/
def reducerStep (nodes : Nodes R V) (store : Store) (block : BlockNumber) (out : OutputRows)
    (name : String) : Option (R × Except Error (List Row)) :=
  nodes.reducers[name]?.bind fun r =>
    out[ReducerNode.source r]?.map fun rows => ReducerNode.processBlock r store block rows

/-- What a view does with the rows of its source. -/
def mvStep (nodes : Nodes R V) (store : Store) (block : BlockNumber) (out : OutputRows)
    (name : String) : Option (V × Except Error Unit) :=
  nodes.mvs[name]?.bind fun v =>
    out[ViewNode.source v]?.map fun rows => ViewNode.applyRows v store block rows

/-- The rows that a reducer emits, if there are any. -/
def emitted (nodes : Nodes R V) (store : Store) (block : BlockNumber) (out : OutputRows)
    (name : String) : Option (List Row) :=
  (nodes.reducerStep store block out name).bind fun step =>
    match step.2 with
    | .ok rows => if rows.isEmpty then none else some rows
    | .error _ => none

/-- The rows that a block gives to the nodes, by their source. -/
def flowRows (nodes : Nodes R V) (store : Store) (block : BlockNumber) :
    List PipelineNode → OutputRows → OutputRows
  | .reducer name :: rest, out =>
    match nodes.emitted store block out name with
    | some rows => flowRows nodes store block rest (out.insert name rows)
    | none => flowRows nodes store block rest out
  | .rawTable _ :: rest, out | .mv _ :: rest, out => flowRows nodes store block rest out
  | [], out => out

/-- A node does not fail on the rows of the flow. -/
def Passes (nodes : Nodes R V) (store : Store) (block : BlockNumber) (out : OutputRows) :
    PipelineNode → Prop
  | .rawTable _ => True
  | .reducer name => ∀ step, nodes.reducerStep store block out name = some step →
      ∃ rows, step.2 = .ok rows
  | .mv name => ∀ step, nodes.mvStep store block out name = some step → step.2 = .ok ()

/-- The nodes once those in `done` made their step. -/
structure Stepped (before : Nodes R V) (store : Store) (block : BlockNumber) (out : OutputRows)
    (done : List PipelineNode) (nodes : Nodes R V) : Prop where
  reducers : ∀ name, nodes.reducers[name]? =
    if .reducer name ∈ done then
      (before.reducerStep store block out name).map Prod.fst <|> before.reducers[name]?
    else before.reducers[name]?
  mvs : ∀ name, nodes.mvs[name]? =
    if .mv name ∈ done then
      (before.mvStep store block out name).map Prod.fst <|> before.mvs[name]?
    else before.mvs[name]?

/-- Each node stands once, and after the reducer that it reads. -/
structure InOrder (nodes : Nodes R V) (pipeline : List PipelineNode) : Prop where
  nodup : pipeline.Nodup
  sorted : ∀ pre node post, pipeline = pre ++ node :: post → ∀ source,
    nodes.sourceOf node = some source → .reducer source ∉ node :: post

variable {before nodes : Nodes R V} {store : Store} {block : BlockNumber} {out : OutputRows}
  {done : List PipelineNode}

theorem Stepped.refl (before : Nodes R V) (store : Store) (block : BlockNumber)
    (out : OutputRows) : Stepped before store block out [] before :=
  ⟨fun _ => by simp, fun _ => by simp⟩

theorem Stepped.of_mem {done' : List PipelineNode} (h : Stepped before store block out done nodes)
    (hr : ∀ name, .reducer name ∈ done ↔ .reducer name ∈ done')
    (hv : ∀ name, .mv name ∈ done ↔ .mv name ∈ done') :
    Stepped before store block out done' nodes := by
  constructor
  · intro name
    rw [h.reducers]
    simp only [hr]
  · intro name
    rw [h.mvs]
    simp only [hv]

/-- The nodes after the steps are determined. -/
theorem Stepped.unique {nodes' : Nodes R V} (h : Stepped before store block out done nodes)
    (h' : Stepped before store block out done nodes') : nodes = nodes' := by
  have hreducers : nodes.reducers = nodes'.reducers := by
    ext1 name
    rw [h.reducers, h'.reducers]
  have hmvs : nodes.mvs = nodes'.mvs := by
    ext1 name
    rw [h.mvs, h'.mvs]
  cases nodes
  cases nodes'
  exact congr (congrArg Nodes.mk hreducers) hmvs

/-! ## One node -/

/-- **The step of a reducer**, when its rows are those of the flow. -/
theorem Stepped.processReducer (h : Stepped before store block out done nodes) {name : String}
    (hname : .reducer name ∉ done) (rows : OutputRows)
    (hrows : ∀ r, before.reducers[name]? = some r →
      rows[ReducerNode.source r]? = out[ReducerNode.source r]?) :
    (nodes.processReducer store block name rows).2
      = ((before.reducerStep store block out name).map Prod.snd).getD (.ok []) ∧
    Stepped before store block out (.reducer name :: done)
      (nodes.processReducer store block name rows).1 := by
  have hr : nodes.reducers[name]? = before.reducers[name]? := by
    rw [h.reducers, if_neg hname]
  rw [Nodes.processReducer, hr]
  have hkeep : before.reducerStep store block out name = none →
      Stepped before store block out (.reducer name :: done) nodes := by
    intro hstep
    refine ⟨fun other => ?_, fun other => by rw [h.mvs]; simp⟩
    rw [h.reducers]
    by_cases hother : other = name
    · subst hother
      simp [hname, hstep]
    · simp [hother]
  cases hb : before.reducers[name]? with
  | none =>
    have hstep : before.reducerStep store block out name = none := by rw [reducerStep, hb]; rfl
    rw [hstep]
    exact ⟨rfl, hkeep hstep⟩
  | some r =>
    dsimp only
    rw [hrows r hb]
    cases ho : out[ReducerNode.source r]? with
    | none =>
      have hstep : before.reducerStep store block out name = none := by
        rw [reducerStep, hb, Option.bind_some, ho]
        rfl
      rw [hstep]
      exact ⟨rfl, hkeep hstep⟩
    | some input =>
      have hstep : before.reducerStep store block out name
          = some (ReducerNode.processBlock r store block input) := by
        rw [reducerStep, hb, Option.bind_some, ho]
        rfl
      rw [hstep]
      refine ⟨rfl, fun other => ?_, fun other => by rw [h.mvs]; simp⟩
      dsimp only
      rw [ExtTreeMap.getElem?_insert]
      by_cases hother : other = name
      · subst hother
        simp [hstep]
      · rw [h.reducers]
        simp [hother, Ne.symm hother]

/-- **The step of a view**, when its rows are those of the flow. -/
theorem Stepped.processMv (h : Stepped before store block out done nodes) {name : String}
    (hname : .mv name ∉ done) (rows : OutputRows)
    (hrows : ∀ v, before.mvs[name]? = some v →
      rows[ViewNode.source v]? = out[ViewNode.source v]?) :
    (nodes.processMv store block name rows).2
      = ((before.mvStep store block out name).map Prod.snd).getD (.ok ()) ∧
    Stepped before store block out (.mv name :: done)
      (nodes.processMv store block name rows).1 := by
  have hv : nodes.mvs[name]? = before.mvs[name]? := by
    rw [h.mvs, if_neg hname]
  rw [Nodes.processMv, hv]
  have hkeep : before.mvStep store block out name = none →
      Stepped before store block out (.mv name :: done) nodes := by
    intro hstep
    refine ⟨fun other => by rw [h.reducers]; simp, fun other => ?_⟩
    rw [h.mvs]
    by_cases hother : other = name
    · subst hother
      simp [hname, hstep]
    · simp [hother]
  cases hb : before.mvs[name]? with
  | none =>
    have hstep : before.mvStep store block out name = none := by rw [mvStep, hb]; rfl
    rw [hstep]
    exact ⟨rfl, hkeep hstep⟩
  | some v =>
    dsimp only
    rw [hrows v hb]
    cases ho : out[ViewNode.source v]? with
    | none =>
      have hstep : before.mvStep store block out name = none := by
        rw [mvStep, hb, Option.bind_some, ho]
        rfl
      rw [hstep]
      exact ⟨rfl, hkeep hstep⟩
    | some input =>
      have hstep : before.mvStep store block out name
          = some (ViewNode.applyRows v store block input) := by
        rw [mvStep, hb, Option.bind_some, ho]
        rfl
      rw [hstep]
      refine ⟨rfl, fun other => by rw [h.reducers]; simp, fun other => ?_⟩
      dsimp only
      rw [ExtTreeMap.getElem?_insert]
      by_cases hother : other = name
      · subst hother
        simp [hstep]
      · rw [h.mvs]
        simp [hother, Ne.symm hother]

/-- Whether a view passes is the outcome of its step. -/
theorem passes_mv {name : String} : before.Passes store block out (.mv name) ↔
    ((before.mvStep store block out name).map Prod.snd).getD (.ok ()) = .ok () := by
  cases h : before.mvStep store block out name with
  | none => simp [Passes, h]
  | some step => simp [Passes, h]

theorem passes_reducer {name : String} : before.Passes store block out (.reducer name) ↔
    ∃ rows, ((before.reducerStep store block out name).map Prod.snd).getD (.ok []) = .ok rows := by
  cases h : before.reducerStep store block out name with
  | none => simp [Passes, h]
  | some step => simp [Passes, h]

/-! ## The rows of the flow -/

omit [ViewNode V] in
theorem getElem?_flowRows_of_not_mem {rest : List PipelineNode} (rows : OutputRows) {s : String}
    (hs : .reducer s ∉ rest) : (before.flowRows store block rest rows)[s]? = rows[s]? := by
  induction rest generalizing rows with
  | nil => rfl
  | cons node rest ih =>
    have hrest : .reducer s ∉ rest := fun h => hs (List.mem_cons_of_mem _ h)
    cases node with
    | rawTable _ => exact ih rows hrest
    | mv _ => exact ih rows hrest
    | reducer name =>
      rw [flowRows]
      have hne : name ≠ s := by
        intro heq
        exact hs (by rw [heq]; exact List.mem_cons_self)
      split
      · rw [ih _ hrest, ExtTreeMap.getElem?_insert, if_neg (by simpa using hne)]
      · exact ih rows hrest

/-- The rows that a node reads do not change once its turn has come. -/
theorem getElem?_flowRows_source {pre rest : List PipelineNode} {node : PipelineNode}
    (h : before.InOrder (pre ++ node :: rest)) {source : String}
    (hsource : before.sourceOf node = some source) (rows : OutputRows) :
    (before.flowRows store block (node :: rest) rows)[source]? = rows[source]? :=
  getElem?_flowRows_of_not_mem rows (h.sorted pre node rest rfl source hsource)

theorem reducerStep_congr {out' : OutputRows} {name : String}
    (h : ∀ source, before.sourceOf (.reducer name) = some source → out[source]? = out'[source]?) :
    before.reducerStep store block out name = before.reducerStep store block out' name := by
  rw [reducerStep, reducerStep]
  cases hr : before.reducers[name]? with
  | none => rfl
  | some r =>
    rw [Option.bind_some, Option.bind_some, h]
    rw [sourceOf, hr]
    rfl

theorem emitted_congr {out' : OutputRows} {name : String}
    (h : ∀ source, before.sourceOf (.reducer name) = some source → out[source]? = out'[source]?) :
    before.emitted store block out name = before.emitted store block out' name := by
  rw [emitted, emitted, reducerStep_congr h]

/-- **The rows of a reducer** in the flow are what it emits for the rows of its source there. -/
theorem getElem?_flowRows {pre rest : List PipelineNode} (h : before.InOrder (pre ++ rest))
    (rows : OutputRows) {name : String} (hname : .reducer name ∈ rest)
    (hrows : rows[name]? = none) :
    (before.flowRows store block rest rows)[name]?
      = before.emitted store block (before.flowRows store block rest rows) name := by
  induction rest generalizing pre rows with
  | nil => cases hname
  | cons node rest ih =>
    have hnext : before.InOrder ((pre ++ [node]) ++ rest) := by
      rwa [List.append_assoc, List.singleton_append]
    cases node with
    | rawTable t =>
      exact ih hnext rows ((List.mem_cons.mp hname).resolve_left (by simp)) hrows
    | mv v =>
      exact ih hnext rows ((List.mem_cons.mp hname).resolve_left (by simp)) hrows
    | reducer other =>
      by_cases hother : other = name
      · subst hother
        have hnot : PipelineNode.reducer other ∉ rest :=
          (List.nodup_cons.mp (List.nodup_append.mp h.nodup).2.1).1
        have hemit : before.emitted store block
            (before.flowRows store block (.reducer other :: rest) rows) other
              = before.emitted store block rows other :=
          emitted_congr fun source hsource => getElem?_flowRows_source h hsource rows
        rw [hemit, flowRows]
        split
        · next emits hemits =>
          rw [getElem?_flowRows_of_not_mem _ hnot, ExtTreeMap.getElem?_insert_self, hemits]
        · next hemits => rw [getElem?_flowRows_of_not_mem _ hnot, hrows, hemits]
      · have hin : PipelineNode.reducer name ∈ rest :=
          (List.mem_cons.mp hname).resolve_left (by simpa using Ne.symm hother)
        rw [flowRows]
        split
        · apply ih hnext _ hin
          rw [ExtTreeMap.getElem?_insert, if_neg (by simpa using hother), hrows]
        · exact ih hnext rows hin hrows

/-- **The flow has one solution**: the order of the pipeline does not matter. -/
theorem flowRows_perm {pipeline pipeline' : List PipelineNode} (h : before.InOrder pipeline)
    (h' : before.InOrder pipeline') (hperm : pipeline.Perm pipeline') (rows : OutputRows)
    (hrows : ∀ name, .reducer name ∈ pipeline → rows[name]? = none) :
    before.flowRows store block pipeline rows = before.flowRows store block pipeline' rows := by
  -- by induction on what stands before a reducer
  have hprefix : ∀ pre post, pipeline = pre ++ post → ∀ s, .reducer s ∈ pre →
      (before.flowRows store block pipeline rows)[s]?
        = (before.flowRows store block pipeline' rows)[s]? := by
    intro pre
    induction pre using List.reverseRecOn with
    | nil =>
      intro post _ s hs
      cases hs
    | append_singleton pre node ih =>
      intro post hpipe s hs
      have hpipe : pipeline = pre ++ node :: post := by simpa using hpipe
      rcases List.mem_append.mp hs with hs | hs
      · exact ih (node :: post) hpipe s hs
      · obtain rfl := List.mem_singleton.mp hs
        have hmem : PipelineNode.reducer s ∈ pipeline := by simp [hpipe]
        rw [getElem?_flowRows (show before.InOrder ([] ++ pipeline) from h) rows hmem
            (hrows s hmem),
          getElem?_flowRows (show before.InOrder ([] ++ pipeline') from h') rows
            (hperm.mem_iff.mp hmem) (hrows s hmem)]
        apply emitted_congr
        intro source hsource
        by_cases hin : PipelineNode.reducer source ∈ pipeline
        · refine ih (.reducer s :: post) hpipe source ?_
          rw [hpipe] at hin
          exact (List.mem_append.mp hin).resolve_right (h.sorted pre _ post hpipe source hsource)
        · rw [getElem?_flowRows_of_not_mem rows hin,
            getElem?_flowRows_of_not_mem rows fun hin' => hin (hperm.mem_iff.mpr hin')]
  ext1 s
  by_cases hs : PipelineNode.reducer s ∈ pipeline
  · exact hprefix pipeline [] (List.append_nil _).symm s hs
  · rw [getElem?_flowRows_of_not_mem rows hs,
      getElem?_flowRows_of_not_mem rows fun hin => hs (hperm.mem_iff.mpr hin)]

/-! ## The loop over the pipeline -/

omit [ViewNode V] in
/-- The rows after a reducer that passed. -/
theorem flowRows_reducer {rest : List PipelineNode} {rows : OutputRows} {name : String}
    {emits : List Row}
    (h : ((before.reducerStep store block rows name).map Prod.snd).getD (.ok []) = .ok emits) :
    before.flowRows store block (.reducer name :: rest) rows
      = before.flowRows store block rest
          (if emits.isEmpty then rows else rows.insert name emits) := by
  rw [flowRows, emitted]
  cases hstep : before.reducerStep store block rows name with
  | none =>
    rw [hstep] at h
    cases h
    rfl
  | some step =>
    obtain ⟨r, result⟩ := step
    rw [hstep] at h
    obtain rfl : result = .ok emits := h
    rw [Option.bind_some]
    dsimp only
    by_cases hempty : emits.isEmpty = true
    · rw [if_pos hempty, if_pos hempty]
    · rw [if_neg hempty, if_neg hempty]

/-- **The loop makes the steps of the flow**, up to the first node that fails. -/
theorem processSequential_flow {rest : List PipelineNode} {rows : OutputRows}
    (h : before.InOrder (done ++ rest))
    (hdone : Stepped before store block (before.flowRows store block rest rows) done nodes) :
    ((processSequential store block rest nodes rows).2 = .ok () ↔
      ∀ node ∈ rest, before.Passes store block (before.flowRows store block rest rows) node) ∧
    ((processSequential store block rest nodes rows).2 = .ok () →
      Stepped before store block (before.flowRows store block rest rows) (done ++ rest)
        (processSequential store block rest nodes rows).1) := by
  induction rest generalizing done nodes rows with
  | nil =>
    rw [List.append_nil]
    exact ⟨by simp [processSequential], fun _ => hdone⟩
  | cons node rest ih =>
    have hnext : before.InOrder ((done ++ [node]) ++ rest) := by
      rwa [List.append_assoc, List.singleton_append]
    have hnot : node ∉ done := fun hin =>
      (List.nodup_append.mp h.nodup).2.2 node hin node List.mem_cons_self rfl
    have happend : done ++ node :: rest = (done ++ [node]) ++ rest := by
      rw [List.append_assoc, List.singleton_append]
    rw [List.forall_mem_cons, happend]
    cases node with
    | rawTable t =>
      have hdone' : Stepped before store block (before.flowRows store block rest rows)
          (done ++ [.rawTable t]) nodes := hdone.of_mem (by simp) (by simp)
      obtain ⟨hiff, hok⟩ := ih hnext hdone'
      exact ⟨hiff.trans ⟨fun hall => ⟨trivial, hall⟩, And.right⟩, hok⟩
    | reducer name =>
      have hrows : ∀ source, before.sourceOf (.reducer name) = some source →
          rows[source]? = (before.flowRows store block (.reducer name :: rest) rows)[source]? :=
        fun source hsource => (getElem?_flowRows_source h hsource rows).symm
      obtain ⟨hresult, hstep⟩ := hdone.processReducer hnot rows
        fun r hr => hrows _ (by rw [sourceOf, hr]; rfl)
      rw [passes_reducer, ← hresult]
      rw [← reducerStep_congr hrows] at hresult
      rw [processSequential]
      generalize hprocessed : nodes.processReducer store block name rows = processed
        at hresult hstep ⊢
      obtain ⟨nodes', result⟩ := processed
      cases result with
      | error e => exact ⟨by simp, fun hok => by cases hok⟩
      | ok emits =>
        rw [flowRows_reducer hresult.symm] at hstep ⊢
        have hdone' : Stepped before store block (before.flowRows store block rest
            (if emits.isEmpty then rows else rows.insert name emits)) (done ++ [.reducer name])
            nodes' := hstep.of_mem (by simp [or_comm]) (by simp)
        obtain ⟨hiff, hok⟩ := ih hnext hdone'
        exact ⟨hiff.trans ⟨fun hall => ⟨⟨emits, rfl⟩, hall⟩, And.right⟩, hok⟩
    | mv name =>
      obtain ⟨hresult, hstep⟩ := hdone.processMv hnot rows
        fun v hv => (getElem?_flowRows_source h (by rw [sourceOf, hv]; rfl) rows).symm
      rw [passes_mv, ← hresult]
      rw [processSequential]
      generalize hprocessed : nodes.processMv store block name rows = processed
        at hresult hstep ⊢
      obtain ⟨nodes', result⟩ := processed
      cases result with
      | error e => exact ⟨by simp, fun hok => by cases hok⟩
      | ok u =>
        have hdone' : Stepped before store block (before.flowRows store block rest rows)
            (done ++ [.mv name]) nodes' := hstep.of_mem (by simp) (by simp [or_comm])
        obtain ⟨hiff, hok⟩ := ih hnext hdone'
        exact ⟨hiff.trans ⟨fun hall => ⟨rfl, hall⟩, And.right⟩, hok⟩

/-! ## The branches -/

/-- Some views that read the rows of the flow. -/
theorem processMvs_flow (rows : OutputRows) {views : List String} (hnodup : views.Nodup)
    (hnot : ∀ view ∈ views, PipelineNode.mv view ∉ done)
    (hrows : ∀ view ∈ views, ∀ source, before.sourceOf (.mv view) = some source →
      rows[source]? = out[source]?)
    (hdone : Stepped before store block out done nodes) :
    ((processMvs store block rows views nodes).2 = .ok () ↔
      ∀ view ∈ views, before.Passes store block out (.mv view)) ∧
    ((processMvs store block rows views nodes).2 = .ok () →
      Stepped before store block out (done ++ views.map .mv)
        (processMvs store block rows views nodes).1) := by
  induction views generalizing done nodes with
  | nil =>
    rw [List.map_nil, List.append_nil]
    exact ⟨by simp [processMvs], fun _ => hdone⟩
  | cons view views ih =>
    obtain ⟨hview, hnodup⟩ := List.nodup_cons.mp hnodup
    obtain ⟨hresult, hstep⟩ := hdone.processMv (hnot view List.mem_cons_self) rows
      fun v hv => hrows view List.mem_cons_self _ (by rw [sourceOf, hv]; rfl)
    rw [List.forall_mem_cons, passes_mv, ← hresult, processMvs]
    generalize hprocessed : nodes.processMv store block view rows = processed
      at hresult hstep ⊢
    obtain ⟨nodes', result⟩ := processed
    cases result with
    | error e => exact ⟨by simp, fun hok => by cases hok⟩
    | ok u =>
      have hnext : Stepped before store block out (done ++ [.mv view]) nodes' :=
        hstep.of_mem (by simp) (by simp [or_comm])
      have hnot' : ∀ other ∈ views, PipelineNode.mv other ∉ done ++ [.mv view] := by
        intro other hother hin
        rcases List.mem_append.mp hin with hin | hin
        · exact hnot other (List.mem_cons_of_mem _ hother) hin
        · obtain rfl : other = view := by simpa using hin
          exact hview hother
      obtain ⟨hiff, hok⟩ := ih hnodup hnot'
        (fun other hother => hrows other (List.mem_cons_of_mem _ hother)) hnext
      refine ⟨hiff.trans ⟨fun hall => ⟨rfl, hall⟩, And.right⟩, fun h => ?_⟩
      have := hok h
      rwa [List.append_assoc, List.singleton_append] at this

/-- Views without rows make no step. -/
theorem Stepped.idle (h : Stepped before store block out done nodes) {views : List String}
    (hidle : ∀ view ∈ views, before.mvStep store block out view = none) :
    Stepped before store block out (done ++ views.map .mv) nodes := by
  refine ⟨fun name => by rw [h.reducers]; simp, fun name => ?_⟩
  rw [h.mvs]
  by_cases hname : name ∈ views
  · simp [hidle name hname]
  · simp [hname]

/-- The nodes of some branches, each reducer before its views. -/
def branchNodes (branches : List (String × List String)) : List PipelineNode :=
  branches.flatMap fun branch => .reducer branch.1 :: branch.2.map .mv

/-- A branch of a reducer whose source is not in the way: its rows are those of the flow. -/
structure Branches (before : Nodes R V) (store : Store) (block : BlockNumber)
    (rows out : OutputRows) (branch : String × List String) : Prop where
  source : ∀ source, before.sourceOf (.reducer branch.1) = some source →
    rows[source]? = out[source]?
  emits : out[branch.1]? = before.emitted store block out branch.1
  views : ∀ view ∈ branch.2, ∀ source, before.sourceOf (.mv view) = some source →
    source = branch.1

/-- **A branch makes the steps of the flow.** -/
theorem processBranch_flow {branch : String × List String} {rows : OutputRows}
    (hbranch : Branches before store block rows out branch)
    (hnodup : (done ++ branchNodes [branch]).Nodup)
    (hdone : Stepped before store block out done nodes) :
    ((processBranch store block rows branch nodes).2 = .ok () ↔
      ∀ node ∈ branchNodes [branch], before.Passes store block out node) ∧
    ((processBranch store block rows branch nodes).2 = .ok () →
      Stepped before store block out (done ++ branchNodes [branch])
        (processBranch store block rows branch nodes).1) := by
  obtain ⟨name, views⟩ := branch
  have hnodes : branchNodes [(name, views)] = .reducer name :: views.map .mv :=
    List.append_nil _
  rw [hnodes] at hnodup ⊢
  obtain ⟨-, hbranchNodup, hdisjoint⟩ := List.nodup_append.mp hnodup
  have hnot : PipelineNode.reducer name ∉ done := fun hin =>
    hdisjoint _ hin _ List.mem_cons_self rfl
  obtain ⟨hresult, hstep⟩ := hdone.processReducer hnot rows
    fun r hr => hbranch.source _ (by rw [sourceOf, hr]; rfl)
  have hemits := hbranch.emits
  rw [List.forall_mem_cons, passes_reducer, ← hresult, processBranch]
  generalize hprocessed : nodes.processReducer store block name rows = processed
    at hresult hstep ⊢
  obtain ⟨nodes', result⟩ := processed
  cases result with
  | error e => exact ⟨by simp, fun hok => by cases hok⟩
  | ok enriched =>
    dsimp only at hemits ⊢
    have hstep : Stepped before store block out (done ++ [.reducer name]) nodes' :=
      hstep.of_mem (by simp [or_comm]) (by simp)
    have hout : out[name]? = if enriched.isEmpty then none else some enriched := by
      rw [hemits, emitted]
      cases hred : before.reducerStep store block out name with
      | none =>
        rw [hred] at hresult
        cases hresult
        rfl
      | some step =>
        rw [hred] at hresult
        obtain ⟨r, result⟩ := step
        obtain rfl : Except.ok enriched = result := hresult
        rfl
    by_cases hempty : enriched.isEmpty = true
    · -- the views of a reducer that emits nothing have no rows
      rw [if_pos hempty] at hout ⊢
      have hidle : ∀ view ∈ views, before.mvStep store block out view = none := by
        intro view hview
        rw [mvStep]
        cases hv : before.mvs[view]? with
        | none => rfl
        | some v =>
          have hsource : ViewNode.source v = name :=
            hbranch.views view hview _ (by rw [sourceOf, hv]; rfl)
          rw [Option.bind_some, hsource, hout]
          rfl
      refine ⟨⟨fun _ => ⟨⟨enriched, rfl⟩, ?_⟩, fun _ => rfl⟩, fun _ => ?_⟩
      · intro node hnode
        obtain ⟨view, hview, rfl⟩ := List.mem_map.mp hnode
        intro step hsome
        rw [hidle view hview] at hsome
        cases hsome
      · have := hstep.idle hidle
        rwa [List.append_assoc, List.singleton_append] at this
    · rw [if_neg hempty] at hout ⊢
      obtain ⟨hiff, hok⟩ := processMvs_flow ((∅ : OutputRows).insert name enriched)
        (List.Nodup.of_map _ (List.nodup_cons.mp hbranchNodup).2) (by
          intro view hview hin
          rcases List.mem_append.mp hin with hin | hin
          · exact hdisjoint _ hin _ (List.mem_cons_of_mem _ (List.mem_map_of_mem hview)) rfl
          · simp at hin) (by
          intro view hview source hsource
          rw [hbranch.views view hview source hsource, ExtTreeMap.getElem?_insert_self]
          exact hout.symm) hstep
      refine ⟨hiff.trans ⟨fun hall => ⟨⟨enriched, rfl⟩, ?_⟩, fun hall view hview => ?_⟩,
        fun h => ?_⟩
      · intro node hnode
        obtain ⟨view, hview, rfl⟩ := List.mem_map.mp hnode
        exact hall view hview
      · exact hall.2 _ (List.mem_map_of_mem hview)
      · have := hok h
        rwa [List.append_assoc, List.singleton_append] at this

/-- Every branch makes the steps of the flow, when no branch fails. -/
theorem processBranches_flow {branches : List (String × List String)} {rows : OutputRows}
    (hbranches : ∀ branch ∈ branches, Branches before store block rows out branch)
    (hnodup : (done ++ branchNodes branches).Nodup)
    (hdone : Stepped before store block out done nodes) :
    ((processBranches store block rows branches nodes).2 = .ok () ↔
      ∀ node ∈ branchNodes branches, before.Passes store block out node) ∧
    ((processBranches store block rows branches nodes).2 = .ok () →
      Stepped before store block out (done ++ branchNodes branches)
        (processBranches store block rows branches nodes).1) := by
  induction branches generalizing done nodes with
  | nil =>
    refine ⟨by simp [processBranches, branchNodes], fun _ => ?_⟩
    rwa [branchNodes, List.flatMap_nil, List.append_nil]
  | cons branch branches ih =>
    have hsplit : branchNodes (branch :: branches)
        = branchNodes [branch] ++ branchNodes branches := by
      simp [branchNodes]
    rw [hsplit, ← List.append_assoc] at hnodup
    rw [hsplit]
    obtain ⟨hiff, hok⟩ := processBranch_flow (hbranches branch List.mem_cons_self)
      (List.nodup_append.mp hnodup).1 hdone
    rw [List.forall_mem_append, ← hiff, processBranches]
    dsimp only
    cases hresult : (processBranch store block rows branch nodes).2 with
    | error e => exact ⟨by simp, fun h => by cases h⟩
    | ok u =>
      obtain ⟨hiff', hok'⟩ := ih (fun b hb => hbranches b (List.mem_cons_of_mem _ hb)) hnodup
        (hok hresult)
      rw [← List.append_assoc]
      exact ⟨hiff'.trans ⟨fun hall => ⟨rfl, hall⟩, And.right⟩, hok'⟩

/-- Direct views and branches that are the nodes of a pipeline whose reducers read raw tables. -/
structure Flat (before : Nodes R V) (pipeline : List PipelineNode) (direct : List String)
    (branches : List (String × List String)) : Prop where
  nodup : (direct.map PipelineNode.mv ++ branchNodes branches).Nodup
  mem : ∀ node, node ∈ direct.map PipelineNode.mv ++ branchNodes branches ↔
    node ∈ pipeline ∧ ∀ table, node ≠ .rawTable table
  reducers : ∀ branch ∈ branches, ∀ source, before.sourceOf (.reducer branch.1) = some source →
    .reducer source ∉ pipeline
  direct : ∀ view ∈ direct, ∀ source, before.sourceOf (.mv view) = some source →
    .reducer source ∉ pipeline
  views : ∀ branch ∈ branches, ∀ view ∈ branch.2, ∀ source,
    before.sourceOf (.mv view) = some source → source = branch.1

/-- **The parallel way makes the steps of the flow.** -/
theorem processParallel_flow {pipeline : List PipelineNode} {direct : List String}
    {branches : List (String × List String)} {rows : OutputRows} (h : before.InOrder pipeline)
    (hflat : before.Flat pipeline direct branches)
    (hrows : ∀ name, .reducer name ∈ pipeline → rows[name]? = none) :
    ((processParallel store block direct branches rows before).2 = .ok () ↔
      ∀ node ∈ pipeline,
        before.Passes store block (before.flowRows store block pipeline rows) node) ∧
    ((processParallel store block direct branches rows before).2 = .ok () →
      Stepped before store block (before.flowRows store block pipeline rows) pipeline
        (processParallel store block direct branches rows before).1) := by
  have hraw : ∀ source, .reducer source ∉ pipeline →
      rows[source]? = (before.flowRows store block pipeline rows)[source]? := fun source hsource =>
    (getElem?_flowRows_of_not_mem rows hsource).symm
  have hall : (∀ node ∈ pipeline,
      before.Passes store block (before.flowRows store block pipeline rows) node) ↔
      (∀ view ∈ direct,
        before.Passes store block (before.flowRows store block pipeline rows) (.mv view)) ∧
      ∀ node ∈ branchNodes branches,
        before.Passes store block (before.flowRows store block pipeline rows) node := by
    constructor
    · intro hpass
      refine ⟨fun view hview => hpass _ ?_, fun node hnode => hpass _ ?_⟩
      · exact ((hflat.mem _).mp (List.mem_append_left _ (List.mem_map_of_mem hview))).1
      · exact ((hflat.mem _).mp (List.mem_append_right _ hnode)).1
    · rintro ⟨hdirect, hbranches⟩ node hnode
      by_cases htable : ∃ table, node = .rawTable table
      · obtain ⟨table, rfl⟩ := htable
        trivial
      · have hin := (hflat.mem node).mpr ⟨hnode, fun table heq => htable ⟨table, heq⟩⟩
        rcases List.mem_append.mp hin with hin | hin
        · obtain ⟨view, hview, rfl⟩ := List.mem_map.mp hin
          exact hdirect view hview
        · exact hbranches node hin
  have hbranches : ∀ branch ∈ branches, Branches before store block rows
      (before.flowRows store block pipeline rows) branch := by
    intro branch hbranch
    have hin : PipelineNode.reducer branch.1 ∈ pipeline := by
      refine ((hflat.mem _).mp (List.mem_append_right _ ?_)).1
      exact List.mem_flatMap.mpr ⟨branch, hbranch, List.mem_cons_self⟩
    refine ⟨fun source hsource => hraw source (hflat.reducers branch hbranch source hsource), ?_,
      hflat.views branch hbranch⟩
    exact getElem?_flowRows (show before.InOrder ([] ++ pipeline) from h) rows hin
      (hrows _ hin)
  rw [hall, processParallel]
  obtain ⟨hiff, hok⟩ := processMvs_flow rows
    (List.Nodup.of_map _ (List.nodup_append.mp hflat.nodup).1) (fun _ _ => List.not_mem_nil)
    (fun view hview source hsource => hraw source (hflat.direct view hview source hsource))
    (Stepped.refl before store block _)
  rw [← hiff]
  generalize hprocessed : processMvs store block rows direct before = processed at hok ⊢
  obtain ⟨nodes', result⟩ := processed
  cases result with
  | error e => exact ⟨by simp, fun h => by cases h⟩
  | ok u =>
    obtain ⟨hiff', hok'⟩ := processBranches_flow hbranches hflat.nodup (hok rfl)
    refine ⟨hiff'.trans ⟨fun hall => ⟨rfl, hall⟩, And.right⟩, fun hres => ?_⟩
    refine (hok' hres).of_mem ?_ ?_
    · intro name
      rw [hflat.mem]
      simp
    · intro name
      rw [hflat.mem]
      simp

/-- What a flow leaves, of a way that makes its steps. -/
theorem eq_of_flow {pipeline pipeline' : List PipelineNode}
    {result result' : Nodes R V × Except Error Unit}
    (hmem : ∀ node, node ∈ pipeline ↔ node ∈ pipeline')
    (h : (result.2 = .ok () ↔ ∀ node ∈ pipeline, before.Passes store block out node) ∧
      (result.2 = .ok () → Stepped before store block out pipeline result.1))
    (h' : (result'.2 = .ok () ↔ ∀ node ∈ pipeline', before.Passes store block out node) ∧
      (result'.2 = .ok () → Stepped before store block out pipeline' result'.1)) :
    (result.2 = .ok () ↔ result'.2 = .ok ()) ∧ (result'.2 = .ok () → result.1 = result'.1) := by
  have hiff : result.2 = .ok () ↔ result'.2 = .ok () := by
    rw [h.1, h'.1]
    simp only [hmem]
  refine ⟨hiff, fun hok => ?_⟩
  exact ((h.2 (hiff.mpr hok)).of_mem (fun name => hmem _) (fun name => hmem _)).unique (h'.2 hok)

/-- **The parallel way agrees with the loop.** -/
theorem processParallel_eq {pipeline : List PipelineNode} {direct : List String}
    {branches : List (String × List String)} {rows : OutputRows} (h : before.InOrder pipeline)
    (hflat : before.Flat pipeline direct branches)
    (hrows : ∀ name, .reducer name ∈ pipeline → rows[name]? = none) :
    ((processParallel store block direct branches rows before).2 = .ok () ↔
      (processSequential store block pipeline before rows).2 = .ok ()) ∧
    ((processSequential store block pipeline before rows).2 = .ok () →
      (processParallel store block direct branches rows before).1
        = (processSequential store block pipeline before rows).1) :=
  eq_of_flow (fun _ => Iff.rfl) (processParallel_flow h hflat hrows)
    (processSequential_flow (show before.InOrder ([] ++ pipeline) from h)
      (Stepped.refl before store block _))

end Nodes

end Settle
