import Settle.Schema.ColumnTypes

/-!
# The pipeline of a validated schema

`validate_schema` walks along the sources of the reducers to find a cycle, `build_pipeline` emits
the reducers whose source is emitted until a round makes no progress, and `compute_branches` gives
each view to its source. For a schema that passes, the rounds emit every reducer, after its source,
and every view is in exactly one branch or in the direct views (`validated_pipeline`).

The link between the two algorithms is `Acc` along the sources: a walk that ends shows it, a cycle
excludes it, and by induction on it some reducer that waits is always ready.
-/

namespace Settle

open Std

/-! ## Walks -/

/-- The source of `a` is `b`. -/
def Source (sources : FxHashMap String String) (a b : String) : Prop := sources[a]? = some b

theorem acc_irrefl {α : Type} {r : α → α → Prop} {a : α} (h : Acc r a) : ¬ r a a := by
  induction h with
  | intro x _ ih => exact fun hx => ih x hx hx

/-- A walk that ends reaches a name without a source. -/
theorem acc_of_walk {sources : FxHashMap String String} {visited : List String} {current : String}
    (h : walkSources sources visited current = .ok ()) :
    Acc (fun b a => Source sources a b) current := by
  fun_induction walkSources sources visited current with
  | case1 visited current hnone =>
    refine ⟨current, fun b hb => ?_⟩
    rw [Source, hnone] at hb
    cases hb
  | case2 visited current next hnext hv => cases h
  | case3 visited current next hnext hv ih =>
    refine ⟨current, fun b hb => ?_⟩
    rw [Source, hnext] at hb
    obtain rfl := Option.some.inj hb
    exact ih h

/-- A walk that fails has found a cycle. -/
theorem cycle_of_walk {sources : FxHashMap String String} {visited : List String}
    {current : String} (hvisited : ∀ x ∈ visited, Relation.TransGen (Source sources) x current)
    (h : walkSources sources visited current ≠ .ok ()) :
    ∃ x, Relation.TransGen (Source sources) x x := by
  fun_induction walkSources sources visited current with
  | case1 visited current hnone => exact absurd rfl h
  | case2 visited current next hnext hv => exact ⟨current, hvisited current (by simpa using hv)⟩
  | case3 visited current next hnext hv ih =>
    refine ih ?_ h
    intro x hx
    rcases List.mem_cons.mp hx with rfl | hx
    · exact .single hnext
    · exact (hvisited x hx).tail hnext

namespace Schema

variable {schema : Schema}

/-- The reducer `a` reads the reducer `b`. -/
def Feeds (schema : Schema) (a b : String) : Prop :=
  ∃ r ∈ schema.reducers, r.name = a ∧ r.source = b ∧ b ∈ schema.reducerNames

/-- The sources of the reducers form a cycle. -/
def Cyclic (schema : Schema) : Prop := ∃ name, Relation.TransGen schema.Feeds name name

theorem source_iff_feeds (hnames : schema.reducerNames.Nodup) {a b : String} :
    Source schema.reducerSourceMap a b ↔ schema.Feeds a b := by
  have hnodup : ((schema.reducers.filter fun r => schema.reducerNames.contains r.source).map
      ReducerDef.name).Nodup := hnames.sublist (List.filter_sublist.map _)
  rw [Source, reducerSourceMap, getElem?_ofList_map ReducerDef.name ReducerDef.source hnodup]
  constructor
  · intro h
    obtain ⟨r, hfind, hsource⟩ := Option.map_eq_some_iff.mp h
    obtain ⟨hr, hcontains⟩ := List.mem_filter.mp (List.mem_of_find?_eq_some hfind)
    have hname : r.name = a := by simpa using List.find?_some hfind
    refine ⟨r, hr, hname, hsource, ?_⟩
    rw [← hsource]
    simpa using hcontains
  · rintro ⟨r, hr, rfl, rfl, hb⟩
    have hmem : r ∈ schema.reducers.filter fun r => schema.reducerNames.contains r.source :=
      List.mem_filter.mpr ⟨hr, by simpa using hb⟩
    rw [find?_of_nodup ReducerDef.name hnodup hmem]
    rfl

/-- **The walks find the cycles.** -/
theorem checkCycles_ok (hnames : schema.reducerNames.Nodup) :
    schema.checkCycles = .ok () ↔ ¬ schema.Cyclic := by
  have hfeeds : Source schema.reducerSourceMap = schema.Feeds := by
    funext a b
    exact propext (source_iff_feeds hnames)
  rw [checkCycles, forM_eq_ok]
  constructor
  · rintro hwalks ⟨x, hx⟩
    rw [← hfeeds] at hx
    obtain ⟨y, hy, -⟩ := Relation.TransGen.head'_iff.mp hx
    have hkey : x ∈ schema.reducerSourceMap.keys := by
      rw [ExtTreeMap.mem_keys, ExtTreeMap.mem_iff_isSome_getElem?, hy]
      rfl
    have hacc := (acc_of_walk (hwalks x hkey)).transGen
    have hswap : Relation.TransGen (fun b a => Source schema.reducerSourceMap a b) x x :=
      Relation.transGen_swap.mpr hx
    exact acc_irrefl hacc hswap
  · intro hacyclic x hx
    by_contra hwalk
    refine hacyclic ?_
    rw [Cyclic, ← hfeeds]
    exact cycle_of_walk (by simp) hwalk

/-- The checks of `validate_schema` that are not about the sources of the reducers. -/
structure OtherChecks (schema : Schema) : Prop where
  sizes : schema.checkSizes = .ok ()
  modules : checkModules [] schema.moduleNames = .ok ()
  names : schema.checkNames = .ok ()
  requires : ∀ r ∈ schema.reducers, schema.checkRequires r = .ok ()
  groupBy : ∀ r ∈ schema.reducers, schema.checkGroupBy r = .ok ()
  views : ∀ mv ∈ schema.materializedViews, schema.checkView mv = .ok ()

/-- **What validation rejects**: among the schemas that pass its other checks, those where the
source of a reducer is no table and no reducer, or the sources form a cycle. -/
theorem validate_iff (h : schema.OtherChecks) : schema.validate = .ok () ↔
    (∀ r ∈ schema.reducers, r.source ∈ schema.tableNames ∨ r.source ∈ schema.reducerNames) ∧
      ¬ schema.Cyclic := by
  obtain ⟨-, hreducers, -, -⟩ := objectNames_nodup (checkNames_ok.mp h.names).1
  rw [validate_ok, checkCycles_ok hreducers]
  constructor
  · rintro ⟨-, -, -, hchecks, hacyclic, -⟩
    refine ⟨fun r hr => ?_, hacyclic⟩
    exact (checkSource_ok.mp (checkReducer_ok.mp (hchecks r hr)).2.1).1
  · rintro ⟨hsources, hacyclic⟩
    refine ⟨h.sizes, h.modules, h.names, fun r hr => ?_, hacyclic, h.views⟩
    refine checkReducer_ok.mpr ⟨h.requires r hr, checkSource_ok.mpr ⟨hsources r hr, ?_⟩,
      h.groupBy r hr⟩
    -- a reducer that reads itself is a cycle
    intro hself
    refine hacyclic ⟨r.name, .single ⟨r, hr, rfl, hself, ?_⟩⟩
    exact List.mem_map.mpr ⟨r, hr, rfl⟩

/-! ## The order of the reducers -/

/-- The source of a reducer, as `emitReady` looks it up. -/
def sourceOf (schema : Schema) (name : String) : String :=
  ((schema.reducers.find? (·.name == name)).map ReducerDef.source).getD ""

theorem sourceOf_name (hnames : schema.reducerNames.Nodup) {r : ReducerDef}
    (hr : r ∈ schema.reducers) : schema.sourceOf r.name = r.source := by
  rw [sourceOf, find?_of_nodup ReducerDef.name hnames hr]
  rfl

/-- The source of the reducer is a table or was emitted. -/
def Ready (schema : Schema) (emitted : List String) (name : String) : Prop :=
  schema.sourceOf name ∈ schema.tableNames ∨ schema.sourceOf name ∈ emitted

/-- Each reducer comes after its source. -/
def Ordered (schema : Schema) (emitted : List String) : Prop :=
  ∀ pre name post, emitted = pre ++ name :: post → schema.Ready pre name

theorem Ordered.append {emitted : List String} (h : schema.Ordered emitted) {name : String}
    (hready : schema.Ready emitted name) : schema.Ordered (emitted ++ [name]) := by
  intro pre n post heq
  rcases List.eq_nil_or_concat post with rfl | ⟨post', last, rfl⟩
  · obtain ⟨rfl, hn⟩ := List.append_inj' heq rfl
    obtain rfl := List.singleton_inj.mp hn
    exact hready
  · have hassoc : emitted ++ [name] = (pre ++ n :: post') ++ [last] := by
      rw [heq]
      simp
    obtain ⟨rfl, -⟩ := List.append_inj' hassoc rfl
    exact h pre n post' rfl

/-- One round. -/
theorem emitReady_spec (remaining emitted : List String) (h : schema.Ordered emitted) :
    schema.Ordered (emitReady schema remaining emitted).1 ∧
    ((emitReady schema remaining emitted).1 ++ (emitReady schema remaining emitted).2).Perm
      (emitted ++ remaining) ∧
    (emitReady schema remaining emitted).2.length ≤ remaining.length ∧
    ((emitReady schema remaining emitted).2.length = remaining.length →
      ∀ name ∈ remaining, ¬ schema.Ready emitted name) := by
  induction remaining generalizing emitted with
  | nil => exact ⟨h, .refl _, Nat.le_refl _, by simp⟩
  | cons name rest ih =>
    have hcond : ((schema.tables.map TableDef.name).contains (schema.sourceOf name) ||
        emitted.contains (schema.sourceOf name)) = true ↔ schema.Ready emitted name := by
      simp [Ready, tableNames]
    rw [emitReady]
    dsimp only
    split
    · next hready =>
      have hready := hcond.mp hready
      obtain ⟨hordered, hperm, hlen, -⟩ := ih (emitted ++ [name]) (h.append hready)
      refine ⟨hordered, ?_, ?_, ?_⟩
      · simpa using hperm
      · simp only [List.length_cons]
        omega
      · intro heq
        simp only [List.length_cons] at heq
        omega
    · next hnot =>
      have hnot : ¬ schema.Ready emitted name := fun hready => hnot (hcond.mpr hready)
      obtain ⟨hordered, hperm, hlen, hnone⟩ := ih emitted h
      refine ⟨hordered, ?_, ?_, ?_⟩
      · refine (List.perm_middle).trans ?_
        refine (hperm.cons name).trans ?_
        exact List.perm_middle.symm
      · simpa using hlen
      · intro heq n hn
        simp only [List.length_cons, Nat.add_right_cancel_iff] at heq
        rcases List.mem_cons.mp hn with rfl | hn
        · exact hnot
        · exact hnone heq n hn

theorem length_emitReady_le (remaining emitted : List String) :
    (emitReady schema remaining emitted).2.length ≤ remaining.length := by
  induction remaining generalizing emitted with
  | nil => exact Nat.le_refl _
  | cons name rest ih =>
    rw [emitReady]
    dsimp only
    split
    · have := ih (emitted ++ [name])
      simp only [List.length_cons]
      omega
    · simpa using ih emitted

/-- More rounds than reducers change nothing: the loop of the source ends. -/
theorem emitReducers_fuel {fuel : Nat} {remaining : List String} (emitted : List String)
    (h : remaining.length ≤ fuel) (more : Nat) :
    emitReducers schema (fuel + more) remaining emitted
      = emitReducers schema fuel remaining emitted := by
  induction fuel generalizing remaining emitted with
  | zero =>
    obtain rfl := List.length_eq_zero_iff.mp (Nat.le_zero.mp h)
    cases more with
    | zero => rfl
    | succ more =>
      rw [Nat.zero_add, emitReducers]
      rfl
  | succ fuel ih =>
    rw [Nat.add_right_comm, emitReducers, emitReducers]
    split
    · rfl
    · next hcond =>
      refine ih _ ?_
      have hle := @length_emitReady_le schema remaining emitted
      simp only [Bool.or_eq_true, beq_iff_eq, not_or] at hcond
      omega

/-- A reducer that waits is ready, or another one is, along the sources. -/
theorem exists_ready (hnames : schema.reducerNames.Nodup)
    (hsources : ∀ r ∈ schema.reducers,
      r.source ∈ schema.tableNames ∨ r.source ∈ schema.reducerNames)
    {remaining emitted : List String} (hperm : (emitted ++ remaining).Perm schema.reducerNames)
    {name : String} (hacc : Acc (fun b a => schema.Feeds a b) name) (hname : name ∈ remaining) :
    ∃ n ∈ remaining, schema.Ready emitted n := by
  induction hacc with
  | intro name _ ih =>
    have hmem : name ∈ schema.reducerNames := hperm.subset (List.mem_append_right _ hname)
    obtain ⟨r, hr, rfl⟩ := List.mem_map.mp hmem
    have hsource := sourceOf_name hnames hr
    rcases hsources r hr with htable | hreducer
    · exact ⟨r.name, hname, .inl (by rwa [hsource])⟩
    · rcases List.mem_append.mp (hperm.symm.subset hreducer) with hemitted | hwaits
      · exact ⟨r.name, hname, .inr (by rwa [hsource])⟩
      · exact ih r.source ⟨r, hr, rfl, rfl, hreducer⟩ hwaits

/-- **The rounds emit every reducer, after its source.** -/
theorem emitReducers_spec (hnames : schema.reducerNames.Nodup)
    (hsources : ∀ r ∈ schema.reducers,
      r.source ∈ schema.tableNames ∨ r.source ∈ schema.reducerNames)
    (hacc : ∀ name, Acc (fun b a => schema.Feeds a b) name) {fuel : Nat}
    {remaining emitted : List String} (hfuel : remaining.length ≤ fuel)
    (hperm : (emitted ++ remaining).Perm schema.reducerNames) (hordered : schema.Ordered emitted) :
    schema.Ordered (emitReducers schema fuel remaining emitted) ∧
      (emitReducers schema fuel remaining emitted).Perm schema.reducerNames := by
  induction fuel generalizing remaining emitted with
  | zero =>
    obtain rfl := List.length_eq_zero_iff.mp (Nat.le_zero.mp hfuel)
    rw [List.append_nil] at hperm
    exact ⟨hordered, hperm⟩
  | succ fuel ih =>
    obtain ⟨hordered', hperm', hlen, hnone⟩ := emitReady_spec remaining emitted hordered
    rw [emitReducers]
    split
    · next hdone =>
      -- a round without progress leaves no reducer
      have hempty : (emitReady schema remaining emitted).2 = [] := by
        by_cases hnil : (emitReady schema remaining emitted).2 = []
        · exact hnil
        · have heq : (emitReady schema remaining emitted).2.length = remaining.length := by
            simpa [hnil] using hdone
          cases hrem : remaining with
          | nil =>
            rw [hrem] at heq
            exact absurd (List.length_eq_zero_iff.mp (by simpa [hrem] using heq))
              (by simpa [hrem] using hnil)
          | cons name rest =>
            obtain ⟨n, hn, hready⟩ := exists_ready hnames hsources hperm (hacc name)
              (by simp [hrem])
            exact absurd hready (hnone heq n hn)
      rw [hempty, List.append_nil] at hperm'
      exact ⟨hordered', hperm'.trans hperm⟩
    · next hcond =>
      simp only [Bool.or_eq_true, beq_iff_eq, not_or] at hcond
      exact ih (by omega) (hperm'.trans hperm) hordered'

/-- Without cycles every chain of sources ends. -/
theorem acc_of_checkCycles (hnames : schema.reducerNames.Nodup) (h : schema.checkCycles = .ok ())
    (name : String) : Acc (fun b a => schema.Feeds a b) name := by
  have hfeeds : (fun b a => Source schema.reducerSourceMap a b) = fun b a => schema.Feeds a b := by
    funext b a
    exact propext (source_iff_feeds hnames)
  rw [← hfeeds]
  by_cases hkey : name ∈ schema.reducerSourceMap.keys
  · rw [checkCycles, forM_eq_ok] at h
    exact acc_of_walk (h name hkey)
  · refine ⟨name, fun b hb => ?_⟩
    rw [ExtTreeMap.mem_keys, ExtTreeMap.mem_iff_isSome_getElem?] at hkey
    have hb : schema.reducerSourceMap[name]? = some b := hb
    exact absurd (by rw [hb]; rfl) hkey

/-! ## The pipeline -/

/-- The source of a node: none for a raw table. -/
def nodeSource (schema : Schema) : PipelineNode → Option String
  | .rawTable _ => none
  | .reducer name => (schema.reducers.find? (·.name == name)).map ReducerDef.source
  | .mv name => (schema.materializedViews.find? (·.name == name)).map MVDef.source

/-- The nodes of the schema, each once. -/
def nodes (schema : Schema) : List PipelineNode :=
  schema.tableNames.map .rawTable ++ schema.reducerNames.map .reducer ++
    (schema.materializedViews.map MVDef.name).map .mv

/-- A list of the nodes of the schema, each once and after its source. -/
structure IsPipeline (schema : Schema) (pipeline : List PipelineNode) : Prop where
  perm : pipeline.Perm schema.nodes
  nodup : pipeline.Nodup
  sorted : ∀ pre node post, pipeline = pre ++ node :: post → ∀ source,
    schema.nodeSource node = some source → .rawTable source ∈ pre ∨ .reducer source ∈ pre

theorem nodes_nodup (h : schema.objectNames.Nodup) : schema.nodes.Nodup := by
  obtain ⟨htables, hreducers, hviews, -⟩ := objectNames_nodup h
  rw [nodes, List.nodup_append, List.nodup_append]
  refine ⟨⟨htables.map fun a b h => by injection h, hreducers.map fun a b h => by injection h, ?_⟩,
    hviews.map fun a b h => by injection h, ?_⟩
  · intro a ha b hb
    obtain ⟨x, -, rfl⟩ := List.mem_map.mp ha
    obtain ⟨y, -, rfl⟩ := List.mem_map.mp hb
    simp
  · intro a ha b hb
    obtain ⟨y, -, rfl⟩ := List.mem_map.mp hb
    rcases List.mem_append.mp ha with ha | ha
    · obtain ⟨x, -, rfl⟩ := List.mem_map.mp ha
      simp
    · obtain ⟨x, -, rfl⟩ := List.mem_map.mp ha
      simp

theorem map_partition_perm {α β : Type} (f : α → β) (p : α → Bool) (l : List α) :
    ((l.partition p).1.map f ++ (l.partition p).2.map f).Perm (l.map f) := by
  rw [List.partition_eq_filter_filter, ← List.map_append]
  exact (List.filter_append_perm p l).map f

/-- An element that is not in the first part is in the second one. -/
theorem split_after {α : Type} {l₁ l₂ pre post : List α} {a : α} (h : l₁ ++ l₂ = pre ++ a :: post)
    (ha : a ∉ l₁) : ∃ mid, pre = l₁ ++ mid ∧ l₂ = mid ++ a :: post := by
  rcases List.append_eq_append_iff.mp h with ⟨mid, hpre, hl₂⟩ | ⟨mid, hl₁, hrest⟩
  · exact ⟨mid, hpre, hl₂⟩
  · cases mid with
    | nil =>
      rw [List.append_nil] at hl₁
      exact ⟨[], by rw [hl₁, List.append_nil], hrest.symm⟩
    | cons b mid =>
      have hb : a = b := (List.cons.inj hrest).1
      exact absurd (by rw [hl₁, hb]; simp) ha

/-- An element that is not in the second part is in the first one. -/
theorem split_before {α : Type} {l₁ l₂ pre post : List α} {a : α}
    (h : l₁ ++ l₂ = pre ++ a :: post) (ha : a ∉ l₂) : ∃ mid, l₁ = pre ++ a :: mid := by
  rcases List.append_eq_append_iff.mp h with ⟨mid, -, hl₂⟩ | ⟨mid, hl₁, hrest⟩
  · exact absurd (by rw [hl₂]; simp) ha
  · cases mid with
    | nil =>
      have hl₂ : l₂ = a :: post := hrest.symm
      exact absurd (by rw [hl₂]; simp) ha
    | cons b mid =>
      have hb : a = b := (List.cons.inj hrest).1
      exact ⟨mid, by rw [hl₁, hb]⟩

/-- **The pipeline of an accepted schema is complete and sorted.** -/
theorem buildPipeline_spec (h : schema.validate = .ok ()) :
    schema.IsPipeline (buildPipeline schema) := by
  obtain ⟨-, -, hnames, hchecks, hcycles, hviews⟩ := validate_ok.mp h
  have hobjects := (checkNames_ok.mp hnames).1
  obtain ⟨-, hreducers, hmvs, -⟩ := objectNames_nodup hobjects
  have hsources : ∀ r ∈ schema.reducers,
      r.source ∈ schema.tableNames ∨ r.source ∈ schema.reducerNames := fun r hr =>
    (checkSource_ok.mp (checkReducer_ok.mp (hchecks r hr)).2.1).1
  have hempty : schema.Ordered [] := by
    intro pre name post heq
    simp at heq
  have hlen : schema.reducerNames.length ≤ schema.reducers.length := by simp [reducerNames]
  obtain ⟨hordered, hperm⟩ := emitReducers_spec hreducers hsources
    (acc_of_checkCycles hreducers hcycles) hlen (.refl _) hempty
  have hall : (buildPipeline schema).Perm schema.nodes := by
    rw [buildPipeline, nodes, List.append_assoc]
    refine ((hperm.map _).append_left _).append ?_
    rw [List.map_map]
    exact map_partition_perm _ _ _
  refine ⟨hall, hall.nodup_iff.mpr (nodes_nodup hobjects), ?_⟩
  intro pre node post heq source hsource
  rw [buildPipeline, List.append_assoc] at heq
  cases node with
  | rawTable name => cases hsource
  | reducer name =>
    rw [List.append_assoc] at heq
    obtain ⟨mid, rfl, hrest⟩ := split_after heq (by simp)
    obtain ⟨rest, hmid⟩ := split_before hrest (by simp)
    obtain ⟨pre', tail, hemitted, rfl, htail⟩ := List.map_eq_append_iff.mp hmid
    obtain ⟨name', post', rfl, hname, -⟩ := List.map_eq_cons_iff.mp htail
    obtain rfl : name' = name := by injection hname
    have hlookup : schema.sourceOf name' = source := by
      rw [sourceOf]
      have hsource : (schema.reducers.find? (·.name == name')).map ReducerDef.source
        = some source := hsource
      rw [hsource, Option.getD_some]
    rcases hordered pre' name' post' hemitted with htable | hbefore
    · rw [hlookup] at htable
      exact .inl (List.mem_append_left _ (List.mem_map.mpr ⟨source, htable, rfl⟩))
    · rw [hlookup] at hbefore
      exact .inr (List.mem_append_right _ (List.mem_map.mpr ⟨source, hbefore, rfl⟩))
  | mv name =>
    obtain ⟨mid, rfl, -⟩ := split_after heq (by simp)
    obtain ⟨mv, hfind, hmv⟩ := Option.map_eq_some_iff.mp hsource
    have hcheck := hviews mv (List.mem_of_find?_eq_some hfind)
    rcases checkViewSource_mem (checkView_ok.mp hcheck).1 with htable | hreducer
    · rw [hmv] at htable
      have hmem : PipelineNode.rawTable source ∈ schema.tableNames.map .rawTable :=
        List.mem_map.mpr ⟨source, htable, rfl⟩
      exact .inl (List.mem_append_left _ (List.mem_append_left _ hmem))
    · rw [hmv] at hreducer
      have hmem : PipelineNode.reducer source ∈ (emitReducers schema schema.reducers.length
          schema.reducerNames []).map .reducer :=
        List.mem_map.mpr ⟨source, hperm.symm.subset hreducer, rfl⟩
      exact .inr (List.mem_append_left _ (List.mem_append_right _ hmem))

end Schema

/-! ## Branches -/

/-- `compute_branches`: the direct views, and each reducer with the views that read it. It reads
the names of the reducers, and the source of each view. -/
def computeBranches (pipeline : List PipelineNode) (isReducer : String → Bool)
    (mvSource : String → Option String) : List String × List (String × List String) :=
  (pipeline.filterMap fun node =>
    match node with
    | .mv mv =>
      match mvSource mv with
      | some source => if isReducer source then none else some mv
      | none => none
    | _ => none,
  pipeline.filterMap fun node =>
    match node with
    | .reducer name => some (name, pipeline.filterMap fun node =>
      match node with
      | .mv mv => if mvSource mv = some name then some mv else none
      | _ => none)
    | _ => none)

namespace Schema

variable {schema : Schema}

/-- The source of a view. -/
def mvSource (schema : Schema) (name : String) : Option String :=
  (schema.materializedViews.find? (·.name == name)).map MVDef.source

/-- The branches of a schema. -/
def branches (schema : Schema) : List String × List (String × List String) :=
  computeBranches (buildPipeline schema) schema.reducerNames.contains schema.mvSource

/-- Every reducer has one branch with the views that read it, and the views of tables are direct;
each view stands once. -/
structure IsPartition (schema : Schema) (direct : List String)
    (branches : List (String × List String)) : Prop where
  reducers : (branches.map Prod.fst).Perm schema.reducerNames
  branch : ∀ name views, (name, views) ∈ branches → ∀ view,
    view ∈ views ↔ ∃ mv ∈ schema.materializedViews, mv.name = view ∧ mv.source = name
  directViews : ∀ view, view ∈ direct ↔
    ∃ mv ∈ schema.materializedViews, mv.name = view ∧ mv.source ∈ schema.tableNames
  once : (direct ++ branches.flatMap Prod.snd).Perm (schema.materializedViews.map MVDef.name)

theorem mvSource_iff (hviews : (schema.materializedViews.map MVDef.name).Nodup)
    {name source : String} : schema.mvSource name = some source ↔
      ∃ mv ∈ schema.materializedViews, mv.name = name ∧ mv.source = source := by
  rw [mvSource]
  constructor
  · intro h
    obtain ⟨mv, hfind, hsource⟩ := Option.map_eq_some_iff.mp h
    exact ⟨mv, List.mem_of_find?_eq_some hfind, by simpa using List.find?_some hfind, hsource⟩
  · rintro ⟨mv, hmv, rfl, rfl⟩
    rw [find?_of_nodup MVDef.name hviews hmv]
    rfl

/-- The views of the pipeline that read a node. -/
def viewsOf (schema : Schema) (name : String) : List String :=
  (buildPipeline schema).filterMap fun node =>
    match node with
    | .mv mv => if schema.mvSource mv = some name then some mv else none
    | _ => none

theorem mem_viewsOf {name view : String} : view ∈ schema.viewsOf name ↔
    .mv view ∈ buildPipeline schema ∧ schema.mvSource view = some name := by
  rw [viewsOf, List.mem_filterMap]
  constructor
  · rintro ⟨node, hnode, hview⟩
    cases node with
    | mv mv =>
      dsimp only at hview
      split at hview
      · next hsource =>
        obtain rfl := Option.some.inj hview
        exact ⟨hnode, hsource⟩
      · cases hview
    | rawTable _ => cases hview
    | reducer _ => cases hview
  · rintro ⟨hnode, hsource⟩
    exact ⟨.mv view, hnode, if_pos hsource⟩

theorem viewsOf_nodup (h : (buildPipeline schema).Nodup) (name : String) :
    (schema.viewsOf name).Nodup := by
  refine h.filterMap ?_
  intro a a' view ha ha'
  cases a with
  | mv mv =>
    cases a' with
    | mv mv' =>
      dsimp only at ha ha'
      split at ha
      · split at ha'
        · rw [Option.some.inj ha, Option.some.inj ha']
        · cases ha'
      · cases ha
    | rawTable _ => cases ha'
    | reducer _ => cases ha'
  | rawTable _ => cases ha
  | reducer _ => cases ha

theorem mem_branches {name : String} {views : List String} :
    (name, views) ∈ schema.branches.2 ↔
      .reducer name ∈ buildPipeline schema ∧ views = schema.viewsOf name := by
  rw [branches, computeBranches]
  dsimp only
  rw [List.mem_filterMap]
  constructor
  · rintro ⟨node, hnode, hbranch⟩
    cases node with
    | reducer n =>
      obtain ⟨rfl, rfl⟩ := Prod.mk.inj (Option.some.inj hbranch)
      exact ⟨hnode, rfl⟩
    | rawTable _ => cases hbranch
    | mv _ => cases hbranch
  · rintro ⟨hnode, rfl⟩
    exact ⟨.reducer name, hnode, rfl⟩

theorem mem_direct {view : String} : view ∈ schema.branches.1 ↔
    .mv view ∈ buildPipeline schema ∧
      ∃ source, schema.mvSource view = some source ∧ source ∉ schema.reducerNames := by
  rw [branches, computeBranches]
  dsimp only
  rw [List.mem_filterMap]
  constructor
  · rintro ⟨node, hnode, hview⟩
    cases node with
    | mv mv =>
      dsimp only at hview
      split at hview
      · next source hsource =>
        split at hview
        · cases hview
        · next hnot =>
          obtain rfl := Option.some.inj hview
          exact ⟨hnode, source, hsource, by simpa using hnot⟩
      · cases hview
    | rawTable _ => cases hview
    | reducer _ => cases hview
  · rintro ⟨hnode, source, hsource, hnot⟩
    refine ⟨.mv view, hnode, ?_⟩
    dsimp only
    rw [hsource]
    exact if_neg (by simpa using hnot)

theorem direct_nodup (h : (buildPipeline schema).Nodup) : schema.branches.1.Nodup := by
  refine h.filterMap ?_
  intro a a' view ha ha'
  cases a with
  | mv mv =>
    cases a' with
    | mv mv' =>
      dsimp only at ha ha'
      split at ha
      · split at ha
        · cases ha
        · split at ha'
          · split at ha'
            · cases ha'
            · rw [Option.some.inj ha, Option.some.inj ha']
          · cases ha'
      · cases ha
    | rawTable _ => cases ha'
    | reducer _ => cases ha'
  | rawTable _ => cases ha
  | reducer _ => cases ha

theorem mem_buildPipeline_reducer (h : schema.validate = .ok ()) {name : String} :
    .reducer name ∈ buildPipeline schema ↔ name ∈ schema.reducerNames := by
  rw [(buildPipeline_spec h).perm.mem_iff, nodes]
  simp

theorem mem_buildPipeline_mv (h : schema.validate = .ok ()) {name : String} :
    .mv name ∈ buildPipeline schema ↔ name ∈ schema.materializedViews.map MVDef.name := by
  rw [(buildPipeline_spec h).perm.mem_iff, nodes]
  simp

/-- Each reducer has one branch. -/
theorem branches_names (h : schema.validate = .ok ()) :
    (schema.branches.2.map Prod.fst).Perm schema.reducerNames := by
  have hfst : schema.branches.2.map Prod.fst = (buildPipeline schema).filterMap fun node =>
      match node with
      | .reducer name => some name
      | _ => none := by
    rw [branches, computeBranches, List.map_filterMap]
    congr 1
    funext node
    cases node <;> rfl
  rw [hfst]
  refine ((buildPipeline_spec h).perm.filterMap _).trans ?_
  rw [nodes]
  simp [List.filterMap_append, List.filterMap_map, Function.comp_def]

section Accepted

variable (h : schema.validate = .ok ())
include h

theorem views_nodup : (schema.materializedViews.map MVDef.name).Nodup :=
  (objectNames_nodup (checkNames_ok.mp (validate_ok.mp h).2.2.1).1).2.2.1

/-- The views of a branch read its reducer. -/
theorem mem_viewsOf_iff (name view : String) : view ∈ schema.viewsOf name ↔
    ∃ mv ∈ schema.materializedViews, mv.name = view ∧ mv.source = name := by
  rw [mem_viewsOf, mvSource_iff (views_nodup h)]
  constructor
  · exact fun hboth => hboth.2
  · rintro ⟨mv, hmv, rfl, rfl⟩
    exact ⟨(mem_buildPipeline_mv h).mpr (List.mem_map.mpr ⟨mv, hmv, rfl⟩), mv, hmv, rfl, rfl⟩

theorem view_source {mv : MVDef} (hmv : mv ∈ schema.materializedViews) :
    mv.source ∈ schema.tableNames ∨ mv.source ∈ schema.reducerNames :=
  checkViewSource_mem (checkView_ok.mp ((validate_ok.mp h).2.2.2.2.2 mv hmv)).1

/-- The direct views read tables. -/
theorem mem_direct_iff (view : String) : view ∈ schema.branches.1 ↔
    ∃ mv ∈ schema.materializedViews, mv.name = view ∧ mv.source ∈ schema.tableNames := by
  obtain ⟨-, -, hviews, hdisjoint⟩ := objectNames_nodup
    (checkNames_ok.mp (validate_ok.mp h).2.2.1).1
  rw [mem_direct]
  constructor
  · rintro ⟨-, source, hsource, hnot⟩
    obtain ⟨mv, hmv, hname, rfl⟩ := (mvSource_iff hviews).mp hsource
    exact ⟨mv, hmv, hname, (view_source h hmv).resolve_right hnot⟩
  · rintro ⟨mv, hmv, rfl, htable⟩
    exact ⟨(mem_buildPipeline_mv h).mpr (List.mem_map.mpr ⟨mv, hmv, rfl⟩), mv.source,
      (mvSource_iff hviews).mpr ⟨mv, hmv, rfl, rfl⟩, hdisjoint _ htable⟩

/-- The views of the branches read reducers. -/
theorem mem_branchViews_iff (view : String) : view ∈ schema.branches.2.flatMap Prod.snd ↔
    ∃ mv ∈ schema.materializedViews, mv.name = view ∧ mv.source ∈ schema.reducerNames := by
  rw [List.mem_flatMap]
  constructor
  · rintro ⟨⟨name, views⟩, hmem, hin⟩
    obtain ⟨hnode, rfl⟩ := mem_branches.mp hmem
    obtain ⟨mv, hmv, hname, rfl⟩ := (mem_viewsOf_iff h name view).mp hin
    exact ⟨mv, hmv, hname, (mem_buildPipeline_reducer h).mp hnode⟩
  · rintro ⟨mv, hmv, rfl, hreducer⟩
    exact ⟨(mv.source, schema.viewsOf mv.source),
      mem_branches.mpr ⟨(mem_buildPipeline_reducer h).mpr hreducer, rfl⟩,
      (mem_viewsOf_iff h mv.source mv.name).mpr ⟨mv, hmv, rfl, rfl⟩⟩

/-- No view stands in two branches. -/
theorem branchViews_nodup : (schema.branches.2.flatMap Prod.snd).Nodup := by
  obtain ⟨-, hreducers, hviews, -⟩ := objectNames_nodup
    (checkNames_ok.mp (validate_ok.mp h).2.2.1).1
  rw [List.nodup_flatMap]
  constructor
  · rintro ⟨name, views⟩ hmem
    obtain ⟨-, rfl⟩ := mem_branches.mp hmem
    exact viewsOf_nodup (buildPipeline_spec h).nodup name
  · have hnames : (schema.branches.2.map Prod.fst).Nodup :=
      (branches_names h).nodup_iff.mpr hreducers
    rw [List.Nodup, List.pairwise_map] at hnames
    refine List.Pairwise.imp_of_mem ?_ hnames
    rintro ⟨name, views⟩ ⟨name', views'⟩ hmem hmem' hne view hin hin'
    obtain ⟨-, rfl⟩ := mem_branches.mp hmem
    obtain ⟨-, rfl⟩ := mem_branches.mp hmem'
    obtain ⟨mv, hmv, hname, rfl⟩ := (mem_viewsOf_iff h name view).mp hin
    obtain ⟨mv', hmv', hname', rfl⟩ := (mem_viewsOf_iff h name' view).mp hin'
    apply hne
    rw [List.inj_on_of_nodup_map hviews hmv hmv' (hname.trans hname'.symm)]

/-- No view is direct and in a branch. -/
theorem allViews_nodup : (schema.branches.1 ++ schema.branches.2.flatMap Prod.snd).Nodup := by
  obtain ⟨-, -, hviews, hdisjoint⟩ := objectNames_nodup
    (checkNames_ok.mp (validate_ok.mp h).2.2.1).1
  rw [List.nodup_append]
  refine ⟨direct_nodup (buildPipeline_spec h).nodup, branchViews_nodup h, ?_⟩
  rintro a ha b hb rfl
  obtain ⟨mv, hmv, hname, htable⟩ := (mem_direct_iff h a).mp ha
  obtain ⟨mv', hmv', hname', hreducer⟩ := (mem_branchViews_iff h a).mp hb
  rw [List.inj_on_of_nodup_map hviews hmv hmv' (hname.trans hname'.symm)] at htable
  exact hdisjoint _ htable hreducer

end Accepted

/-- **The branches of an accepted schema partition its views.** -/
theorem branches_spec (h : schema.validate = .ok ()) :
    schema.IsPartition schema.branches.1 schema.branches.2 := by
  refine ⟨branches_names h, ?_, mem_direct_iff h, ?_⟩
  · intro name views hmem view
    obtain ⟨-, rfl⟩ := mem_branches.mp hmem
    exact mem_viewsOf_iff h name view
  · rw [List.perm_ext_iff_of_nodup (allViews_nodup h) (views_nodup h)]
    intro view
    rw [List.mem_append, mem_direct_iff h, mem_branchViews_iff h, List.mem_map]
    constructor
    · rintro (⟨mv, hmv, hname, -⟩ | ⟨mv, hmv, hname, -⟩)
      · exact ⟨mv, hmv, hname⟩
      · exact ⟨mv, hmv, hname⟩
    · rintro ⟨mv, hmv, hname⟩
      obtain htable | hreducer := view_source h hmv
      · exact .inl ⟨mv, hmv, hname, htable⟩
      · exact .inr ⟨mv, hmv, hname, hreducer⟩

end Schema

/-! ### The branches of the engine -/

/-- The nodes that a loop builds, by name. -/
theorem foldlM_insert {α V : Type} {key : α → String} {make : α → Except Error V} {l : List α}
    (hnodup : (l.map key).Nodup) {acc m : FxHashMap String V}
    (h : l.foldlM (fun m d => do
      let v ← make d
      .ok (m.insert (key d) v)) acc = .ok m) :
    (∀ k, k ∉ l.map key → m[k]? = acc[k]?) ∧
      ∀ d ∈ l, ∃ v, make d = .ok v ∧ m[key d]? = some v := by
  induction l generalizing acc with
  | nil =>
    cases h
    exact ⟨fun _ _ => rfl, by simp⟩
  | cons d l ih =>
    rw [List.map_cons, List.nodup_cons] at hnodup
    rw [List.foldlM_cons] at h
    cases hmake : make d with
    | error e =>
      rw [hmake] at h
      cases h
    | ok v =>
      rw [hmake] at h
      obtain ⟨hother, hin⟩ := ih hnodup.2 h
      refine ⟨fun k hk => ?_, fun d' hd' => ?_⟩
      · simp only [List.map_cons, List.mem_cons, not_or] at hk
        rw [hother k hk.2, ExtTreeMap.getElem?_insert]
        exact if_neg fun heq => hk.1 (LawfulEqCmp.eq_of_compare heq).symm
      · rcases List.mem_cons.mp hd' with rfl | hd'
        · exact ⟨v, hmake, by rw [hother _ hnodup.1]; simp⟩
        · exact hin d' hd'

/-- The reducers are built one by one, each of its source. -/
theorem SettleEngine.newReducers_eq {R V : Type} [ReducerNode R] [ViewNode V] [NodeBuild R V]
    (schema : Schema) (store : Store) :
    newReducers (R := R) (V := V) schema store (newRawTables schema)
      = schema.reducers.foldlM (fun reducers d => do
        let reducer ← (match (newRawTables schema)[d.source]? with
          | some raw => NodeBuild.newReducer V d store raw.registry
              (schema.modules.map fun (m : ModuleDef) => (m.name, m.script))
          | none => NodeBuild.newChained V d store
              (schema.modules.map fun (m : ModuleDef) => (m.name, m.script)) : Except Error R)
        .ok (reducers.insert d.name reducer)) (∅ : FxHashMap String R) := by
  rw [newReducers]
  congr 1
  funext reducers d
  cases (newRawTables schema)[d.source]? <;> rfl

/-- The engine of an accepted schema has the branches of the schema, when each view keeps the
source of its definition. -/
theorem SettleEngine.new_branches {R V : Type} [ReducerNode R] [ViewNode V] [NodeBuild R V]
    {schema : Schema} {store : Store} {rayon : Bool} {e : SettleEngine R V}
    (hsource : ∀ (d : MVDef) (types : FxHashMap String ColumnType) (v : V),
      NodeBuild.newView R d store types = .ok v → ViewNode.source v = d.source)
    (hvalid : schema.validate = .ok ()) (h : SettleEngine.new schema store rayon = .ok e) :
    e.pipeline = buildPipeline schema ∧ (e.directMvs, e.branches) = schema.branches := by
  obtain ⟨-, hreducers, hviews, -⟩ := Schema.objectNames_nodup
    (Schema.checkNames_ok.mp (Schema.validate_ok.mp hvalid).2.2.1).1
  unfold SettleEngine.new at h
  dsimp only at h
  cases hr : newReducers (R := R) (V := V) schema store (newRawTables schema) with
  | error err =>
    rw [hr] at h
    cases h
  | ok reducers =>
    cases hv : newMvs (R := R) (V := V) schema store with
    | error err =>
      rw [hr, hv] at h
      cases h
    | ok mvs =>
      rw [hr, hv] at h
      cases h
      obtain ⟨hnone, hsome⟩ := foldlM_insert hreducers ((newReducers_eq schema store).symm.trans hr)
      obtain ⟨hnone', hsome'⟩ := foldlM_insert hviews hv
      have hcontains : ∀ name, reducers.contains name = schema.reducerNames.contains name := by
        intro name
        rw [ExtTreeMap.contains_eq_isSome_getElem?]
        by_cases hname : name ∈ schema.reducerNames
        · obtain ⟨r, hrmem, rfl⟩ := List.mem_map.mp hname
          obtain ⟨node, -, hnode⟩ := hsome r hrmem
          rw [hnode]
          simpa using hname
        · rw [hnone name hname, ExtTreeMap.getElem?_empty]
          simpa using hname
      have hmvs : ∀ name, mvs[name]?.map ViewNode.source = schema.mvSource name := by
        intro name
        by_cases hname : name ∈ schema.materializedViews.map MVDef.name
        · obtain ⟨d, hd, rfl⟩ := List.mem_map.mp hname
          obtain ⟨node, hmake, hnode⟩ := hsome' d hd
          rw [hnode, Option.map_some, hsource d _ node hmake]
          exact ((Schema.mvSource_iff hviews).mpr ⟨d, hd, rfl, rfl⟩).symm
        · rw [hnone' name hname, ExtTreeMap.getElem?_empty]
          cases hsrc : schema.mvSource name with
          | none => rfl
          | some source =>
            obtain ⟨d, hd, rfl, -⟩ := (Schema.mvSource_iff hviews).mp hsrc
            exact absurd (List.mem_map.mpr ⟨d, hd, rfl⟩) hname
      have hsources : (fun name => mvs[name]?.map ViewNode.source) = schema.mvSource := funext hmvs
      refine ⟨rfl, ?_⟩
      rw [Schema.branches, ← hsources, computeBranches]
      refine Prod.ext ?_ ?_
      · show (buildPipeline schema).filterMap _ = (buildPipeline schema).filterMap _
        congr 1
        funext node
        cases node with
        | mv mv =>
          dsimp only
          cases mvs[mv]? with
          | none => rfl
          | some node =>
            dsimp only [Option.map_some]
            rw [hcontains]
        | rawTable _ => rfl
        | reducer _ => rfl
      · rfl

namespace Schema

variable {schema : Schema}

/-- **A validated schema builds a complete pipeline.**

* Validation ends, and of the schemas that pass its other checks it rejects those where the source
  of a reducer is no table and no reducer, or the sources form a cycle.
* The rounds of `build_pipeline` end, and for an accepted schema they list every table, reducer and
  view once, each after its source.
* `compute_branches` then puts every reducer in one branch, and every view in the branch of its
  source or, when that is a table, in the direct views. -/
theorem validated_pipeline (schema : Schema) :
    (schema.OtherChecks → (schema.validate = .ok () ↔
      (∀ r ∈ schema.reducers, r.source ∈ schema.tableNames ∨ r.source ∈ schema.reducerNames) ∧
        ¬ schema.Cyclic)) ∧
    (∀ more, emitReducers schema (schema.reducers.length + more) schema.reducerNames []
      = emitReducers schema schema.reducers.length schema.reducerNames []) ∧
    (schema.validate = .ok () → schema.IsPipeline (buildPipeline schema) ∧
      schema.IsPartition schema.branches.1 schema.branches.2) := by
  refine ⟨validate_iff, ?_, fun h => ⟨buildPipeline_spec h, branches_spec h⟩⟩
  exact emitReducers_fuel [] (by simp [reducerNames])

/-! ### A chained reducer declared before its source -/

def chainedSchema : Schema where
  tables := [⟨"t", [⟨"block_number", .uint64⟩, ⟨"x", .uint64⟩], false⟩]
  modules := []
  reducers := [⟨"second", "first", [], [], .external "second", []⟩,
    ⟨"first", "t", ["x"], [], .external "first", []⟩]
  materializedViews := [⟨"v", "second", [⟨.agg .count none, none⟩], [], none⟩,
    ⟨"w", "t", [⟨.agg .sum (some "x"), none⟩], [], none⟩]

theorem validated_pipeline_chained :
    chainedSchema.validate = .ok () ∧
    chainedSchema.IsPipeline (buildPipeline chainedSchema) ∧
      chainedSchema.IsPartition chainedSchema.branches.1 chainedSchema.branches.2 := by
  have hother : chainedSchema.OtherChecks := by
    refine ⟨by decide +kernel, by decide +kernel, by decide +kernel, ?_, ?_, ?_⟩
    · decide +kernel
    · decide +kernel
    · decide +kernel
  have hacyclic : ¬ chainedSchema.Cyclic :=
    (checkCycles_ok (by decide +kernel)).mp (by decide +kernel)
  have hvalid : chainedSchema.validate = .ok () :=
    ((validated_pipeline chainedSchema).1 hother).mpr ⟨by decide +kernel, hacyclic⟩
  exact ⟨hvalid, (validated_pipeline chainedSchema).2.2 hvalid⟩

/-- A reducer that reads a view. -/
def readsView : Schema where
  tables := [⟨"t", [⟨"block_number", .uint64⟩, ⟨"x", .uint64⟩], false⟩]
  modules := []
  reducers := [⟨"r", "v", [], [], .external "r", []⟩]
  materializedViews := [⟨"v", "t", [⟨.agg .count none, none⟩], [], none⟩]

/-- A view is an object of the schema and no source of a reducer: validation rejects a schema
without a cycle where every source names an object. -/
theorem view_is_no_source :
    ¬ ∀ schema : Schema, schema.OtherChecks → (schema.validate = .ok () ↔
      (∀ r ∈ schema.reducers, r.source ∈ schema.objectNames) ∧ ¬ schema.Cyclic) := by
  intro hall
  have hother : readsView.OtherChecks :=
    ⟨by decide +kernel, by decide +kernel, by decide +kernel, by decide +kernel,
      by decide +kernel, by decide +kernel⟩
  have hacyclic : ¬ readsView.Cyclic := by
    rintro ⟨name, hname⟩
    obtain ⟨next, ⟨r, hr, -, hsource, hnext⟩, -⟩ := Relation.TransGen.head'_iff.mp hname
    obtain rfl := List.mem_singleton.mp hr
    rw [← hsource] at hnext
    revert hnext
    decide +kernel
  have hvalid := (hall readsView hother).mpr ⟨by decide +kernel, hacyclic⟩
  have hsources := ((validate_iff hother).mp hvalid).1
  revert hsources
  decide +kernel

end Schema

end Settle
