import Settle.Engine.ReplayOrder
import Settle.Engine.PipelineReducers

/-!
# The replay of a chain

A reducer whose runtime changed is rebuilt from the raw rows of the unfinalized blocks, with the
reducers that feed it and what depends on it; the other nodes stay. The replay runs part of the
pipeline, and `replay_chain_agrees` compares it with a replay of all of it: the nodes of the chain
end as they would there, and no other node is touched. Both replays are folds of one step, and they
agree on what the chain can read (`Nodes.AgreeOn`).
-/

namespace Settle

open Std

/-! ## Two replays -/

namespace Nodes

variable {R V : Type} [ReducerNode R] [ViewNode V] [NodeBuild R V] {store : Store}
  {block : BlockNumber} {chain : List String} {nodes nodes' done : Nodes R V}

/-- The nodes with these names are the same. -/
def AgreeOn (P : String → Prop) (nodes nodes' : Nodes R V) : Prop :=
  ∀ name, P name → nodes'.reducers[name]? = nodes.reducers[name]? ∧
    nodes'.mvs[name]? = nodes.mvs[name]?

omit [ReducerNode R] [ViewNode V] [NodeBuild R V] in
/-- A node outside changes. -/
theorem AgreeOn.reducer_outside {P : String → Prop} (h : AgreeOn P nodes nodes') {name : String}
    (hname : ¬ P name) (r : R) :
    AgreeOn P { nodes with reducers := nodes.reducers.insert name r } nodes' := by
  intro other hother
  have hne : ¬ name = other := fun heq => hname (heq ▸ hother)
  refine ⟨?_, (h other hother).2⟩
  rw [ExtTreeMap.getElem?_insert, if_neg fun heq => hne (LawfulEqCmp.eq_of_compare heq)]
  exact (h other hother).1

omit [ReducerNode R] [ViewNode V] [NodeBuild R V] in
theorem AgreeOn.mv_outside {P : String → Prop} (h : AgreeOn P nodes nodes') {name : String}
    (hname : ¬ P name) (v : V) :
    AgreeOn P { nodes with mvs := nodes.mvs.insert name v } nodes' := by
  intro other hother
  have hne : ¬ name = other := fun heq => hname (heq ▸ hother)
  refine ⟨(h other hother).1, ?_⟩
  rw [ExtTreeMap.getElem?_insert, if_neg fun heq => hne (LawfulEqCmp.eq_of_compare heq)]
  exact (h other hother).2

omit [ReducerNode R] [ViewNode V] [NodeBuild R V] in
/-- A node changes on both sides. -/
theorem AgreeOn.reducer_both {P : String → Prop} (h : AgreeOn P nodes nodes') (name : String)
    (r : R) : AgreeOn P { nodes with reducers := nodes.reducers.insert name r }
      { nodes' with reducers := nodes'.reducers.insert name r } := by
  intro other hother
  refine ⟨?_, (h other hother).2⟩
  rw [ExtTreeMap.getElem?_insert, ExtTreeMap.getElem?_insert]
  split
  · rfl
  · exact (h other hother).1

omit [ReducerNode R] [ViewNode V] [NodeBuild R V] in
theorem AgreeOn.mv_both {P : String → Prop} (h : AgreeOn P nodes nodes') (name : String) (v : V) :
    AgreeOn P { nodes with mvs := nodes.mvs.insert name v }
      { nodes' with mvs := nodes'.mvs.insert name v } := by
  intro other hother
  refine ⟨(h other hother).1, ?_⟩
  rw [ExtTreeMap.getElem?_insert, ExtTreeMap.getElem?_insert]
  split
  · rfl
  · exact (h other hother).2

/-- What the nodes with these names read is in `seen`. -/
def ReadsOnly (chain : List String) (seen : String → Prop) (nodes : Nodes R V) : Prop :=
  ∀ name ∈ chain, ∀ source, nodes.sourceOf (.reducer name) = some source ∨
    nodes.sourceOf (.mv name) = some source → seen source

omit [NodeBuild R V] in
theorem ReadsOnly.of_sourceOf {seen : String → Prop} (h : ReadsOnly chain seen nodes)
    (heq : nodes'.sourceOf = nodes.sourceOf) : ReadsOnly chain seen nodes' := by
  intro name hname source hsource
  rw [heq] at hsource
  exact h name hname source hsource

/-- The rows are the same where the chain can read. -/
theorem insert_agree {seen : String → Prop} {rows rows' : OutputRows}
    (h : ∀ s, seen s → rows'[s]? = rows[s]?) (name : String) (emitted : List Row) :
    ∀ s, seen s → (if emitted.isEmpty then rows' else rows'.insert name emitted)[s]?
      = (if emitted.isEmpty then rows else rows.insert name emitted)[s]? := by
  intro s hs
  split
  · exact h s hs
  · rw [ExtTreeMap.getElem?_insert, ExtTreeMap.getElem?_insert, h s hs]

theorem insert_unseen {seen : String → Prop} {rows rows' : OutputRows}
    (h : ∀ s, seen s → rows'[s]? = rows[s]?) {name : String} (hname : ¬ seen name)
    (emitted : List Row) :
    ∀ s, seen s → rows'[s]? = (if emitted.isEmpty then rows else rows.insert name emitted)[s]? := by
  intro s hs
  split
  · exact h s hs
  · have hne : ¬ name = s := fun heq => hname (heq ▸ hs)
    rw [ExtTreeMap.getElem?_insert,
      if_neg fun heq => hne (LawfulEqCmp.eq_of_compare heq), h s hs]

omit [NodeBuild R V] in
/-- A reducer of the chain processes the same rows on both sides. -/
theorem processReducer_agree {seen : String → Prop} {rows rows' : OutputRows} {name : String}
    (hin : name ∈ chain) (hreads : nodes.ReadsOnly chain seen)
    (hagree : AgreeOn (· ∈ chain) nodes nodes') (hrows : ∀ s, seen s → rows'[s]? = rows[s]?)
    {emitted : List Row}
    (h : nodes.processReducer store block name rows = (done, .ok emitted)) :
    ∃ done', nodes'.processReducer store block name rows' = (done', .ok emitted) ∧
      AgreeOn (· ∈ chain) done done' := by
  rw [processReducer] at h ⊢
  rw [(hagree name hin).1]
  cases hr : nodes.reducers[name]? with
  | none =>
    rw [hr] at h
    cases h
    exact ⟨nodes', rfl, hagree⟩
  | some r =>
    rw [hr] at h
    have hseen : seen (ReducerNode.source r) := by
      apply hreads name hin
      left
      rw [sourceOf, hr]
      rfl
    dsimp only at h ⊢
    rw [hrows _ hseen]
    split at h
    · cases h
      exact ⟨nodes', rfl, hagree⟩
    · next given _ =>
      obtain ⟨hdone, hemitted⟩ := Prod.mk.inj h
      rw [hemitted, ← hdone]
      exact ⟨_, rfl, hagree.reducer_both name _⟩

omit [ViewNode V] [NodeBuild R V] in
theorem processReducer_outside {P : String → Prop} (hagree : AgreeOn P nodes nodes')
    {name : String} (hname : ¬ P name) (store : Store) (block : BlockNumber) (rows : OutputRows) :
    AgreeOn P (nodes.processReducer store block name rows).1 nodes' := by
  rw [processReducer]
  split
  · exact hagree
  · split
    · exact hagree
    · exact hagree.reducer_outside hname _

/-- **One block.** A replay of the chain does on its nodes what a replay of all nodes does there. -/
theorem replayTableBlock_agree [KeepsSource R V] (hbuild : BuildsSources R V)
    {seen : String → Prop} {pipeline : List PipelineNode}
    (hskip : ∀ name, name ∉ chain → ∀ source, nodes.sourceOf (.reducer name) = some source →
      ¬ seen name) {rows rows' : OutputRows} (hreads : nodes.ReadsOnly chain seen)
    (hagree : AgreeOn (· ∈ chain) nodes nodes') (hrows : ∀ s, seen s → rows'[s]? = rows[s]?)
    (h : replayTableBlock store block none pipeline nodes rows = .ok done) :
    ∃ done', replayTableBlock store block (some chain) pipeline nodes' rows' = .ok done' ∧
      AgreeOn (· ∈ chain) done done' := by
  induction pipeline generalizing nodes nodes' rows rows' with
  | nil =>
    cases h
    exact ⟨nodes', rfl, hagree⟩
  | cons node rest ih =>
    have hkept : ∀ {nodes₁ : Nodes R V}, nodes₁.sourceOf = nodes.sourceOf → ∀ name, name ∉ chain →
        ∀ source, nodes₁.sourceOf (.reducer name) = some source → ¬ seen name := by
      intro nodes₁ heq
      rw [heq]
      exact hskip
    cases node with
    | rawTable table => exact ih hskip hreads hagree hrows h
    | reducer name =>
      rw [replayTableBlock] at h ⊢
      simp only [Option.any_none, Bool.false_eq_true, if_false] at h
      by_cases hin : name ∈ chain
      · rw [if_neg (by simp [hin])]
        obtain ⟨hr, -⟩ := hagree name hin
        rw [hr]
        split at h
        · next hcallback =>
          rw [if_pos hcallback]
          exact ih hskip hreads hagree hrows h
        · next hcallback =>
          rw [if_neg hcallback]
          split at h
          · cases h
          · next emitted hproc =>
            obtain ⟨done₁, hproc', hagree'⟩ := processReducer_agree hin hreads hagree hrows hproc
            have hsources := processReducer_sourceOf store block nodes name rows
            rw [hproc] at hsources
            rw [hproc']
            exact ih (hkept hsources) (hreads.of_sourceOf hsources) hagree'
              (insert_agree hrows name emitted) h
      · rw [if_pos (by simp [hin])]
        split at h
        · exact ih hskip hreads hagree hrows h
        · split at h
          · cases h
          · next emitted hproc =>
            have hsources := processReducer_sourceOf store block nodes name rows
            have hagree' := processReducer_outside hagree hin store block rows
            rw [hproc] at hsources hagree'
            cases hr : nodes.reducers[name]? with
            | none =>
              rw [processReducer, hr] at hproc
              cases hproc
              exact ih hskip hreads hagree hrows h
            | some r =>
              have hunseen : ¬ seen name := by
                apply hskip name hin (ReducerNode.source r)
                rw [sourceOf, hr]
                rfl
              exact ih (hkept hsources) (hreads.of_sourceOf hsources) hagree'
                (insert_unseen hrows hunseen emitted) h
    | mv name =>
      rw [replayTableBlock] at h ⊢
      simp only [Option.any_none, Bool.false_eq_true, if_false] at h
      by_cases hin : name ∈ chain
      · rw [if_neg (by simp [hin]), (hagree name hin).2]
        cases hv : nodes.mvs[name]? with
        | none =>
          rw [hv] at h
          exact ih hskip hreads hagree hrows h
        | some v =>
          rw [hv] at h
          have hseen : seen (ViewNode.source v) := by
            apply hreads name hin
            right
            rw [sourceOf, hv]
            rfl
          dsimp only at h ⊢
          rw [hrows _ hseen]
          split at h
          · exact ih hskip hreads hagree hrows h
          · next given _ =>
            cases hreplay : NodeBuild.replayBlock R v store block given with
            | error e =>
              rw [hreplay] at h
              cases h
            | ok v' =>
              rw [hreplay] at h
              have hsources := sourceOf_insertMv hv (hbuild.replayBlock hreplay)
              exact ih (hkept hsources) (hreads.of_sourceOf hsources)
                (hagree.mv_both name v') hrows h
      · rw [if_pos (by simp [hin])]
        split at h
        · exact ih hskip hreads hagree hrows h
        · next v hv =>
          split at h
          · exact ih hskip hreads hagree hrows h
          · next given _ =>
            cases hreplay : NodeBuild.replayBlock R v store block given with
            | error e =>
              rw [hreplay] at h
              cases h
            | ok v' =>
              rw [hreplay] at h
              have hsources := sourceOf_insertMv hv (hbuild.replayBlock hreplay)
              exact ih (hkept hsources) (hreads.of_sourceOf hsources)
                (hagree.mv_outside hin v') hrows h

/-- A replay of the chain changes no other node. -/
theorem replayTableBlock_off {pipeline : List PipelineNode} {rows : OutputRows}
    (hagree : AgreeOn (· ∉ chain) nodes nodes')
    (h : replayTableBlock store block (some chain) pipeline nodes rows = .ok done) :
    AgreeOn (· ∉ chain) done nodes' := by
  induction pipeline generalizing nodes rows with
  | nil =>
    cases h
    exact hagree
  | cons node rest ih =>
    cases node with
    | rawTable table => exact ih hagree h
    | reducer name =>
      rw [replayTableBlock] at h
      split at h
      · exact ih hagree h
      · next hin =>
        have hin : name ∈ chain := by simpa using hin
        split at h
        · exact ih hagree h
        · split at h
          · cases h
          · next hproc =>
            have hagree' := processReducer_outside hagree (not_not_intro hin) store block rows
            rw [hproc] at hagree'
            exact ih hagree' h
    | mv name =>
      rw [replayTableBlock] at h
      split at h
      · exact ih hagree h
      · next hin =>
        have hin : name ∈ chain := by simpa using hin
        split at h
        · exact ih hagree h
        · next v hv =>
          split at h
          · exact ih hagree h
          · next given _ =>
            cases hreplay : NodeBuild.replayBlock R v store block given with
            | error e =>
              rw [hreplay] at h
              cases h
            | ok v' =>
              rw [hreplay] at h
              exact ih (hagree.mv_outside (not_not_intro hin) v') h

end Nodes

/-! ## Two loops -/

section Related

variable {σ τ : Type} {feed : σ → String → BlockNumber → List Row → Except Error σ}
  {feed' : τ → String → BlockNumber → List Row → Except Error τ} {Rel : σ → τ → Prop}
  {read : RawReader} {readBlocks : Nat} {toBlock : BlockNumber}

/-- One block of two loops whose steps are related. -/
theorem feedBlock_related
    (hfeed : ∀ s s' table block rows t, Rel s s' → feed s table block rows = .ok t →
      ∃ t', feed' s' table block rows = .ok t' ∧ Rel t t')
    {block : BlockNumber} {cursors cursors' : List ReplayCursor} {s t : σ} {s' : τ}
    (hrel : Rel s s') (h : feedBlock feed block cursors s = .ok (cursors', t)) :
    ∃ t', feedBlock feed' block cursors s' = .ok (cursors', t') ∧ Rel t t' := by
  induction cursors generalizing s s' cursors' with
  | nil =>
    cases h
    exact ⟨s', rfl, hrel⟩
  | cons c rest ih =>
    have hrest : ∀ {c' : ReplayCursor} {s : σ} {s' : τ}, Rel s s' →
        (do let r ← feedBlock feed block rest s; .ok (c' :: r.1, r.2) : Except Error _)
          = .ok (cursors', t) →
        ∃ t', (do let r ← feedBlock feed' block rest s'; .ok (c' :: r.1, r.2) : Except Error _)
          = .ok (cursors', t') ∧ Rel t t' := by
      intro c' s s' hrel h
      cases hfed : feedBlock feed block rest s with
      | error err =>
        rw [hfed] at h
        cases h
      | ok r =>
        rw [hfed] at h
        cases h
        obtain ⟨t', hfed', hrel'⟩ := ih hrel hfed
        refine ⟨t', ?_, hrel'⟩
        rw [hfed']
        rfl
    rw [feedBlock] at h ⊢
    cases hrows : c.rows with
    | nil =>
      rw [hrows] at h
      exact hrest hrel h
    | cons entry more =>
      rw [hrows] at h
      dsimp only at h ⊢
      split at h
      · next hblock =>
        rw [if_pos hblock]
        cases hone : feed s c.table block entry.2 with
        | error err =>
          rw [hone] at h
          cases h
        | ok s₁ =>
          rw [hone] at h
          obtain ⟨s₁', hone', hrel'⟩ := hfeed s s' c.table block entry.2 s₁ hrel hone
          rw [hone']
          exact hrest hrel' h
      · next hblock =>
        rw [if_neg hblock]
        exact hrest hrel h

/-- **Two loops over the same rows.** Where the first goes through, the second does, and they end
related. -/
theorem replayTables_related
    (hfeed : ∀ s s' table block rows t, Rel s s' → feed s table block rows = .ok t →
      ∃ t', feed' s' table block rows = .ok t' ∧ Rel t t')
    {fuel : Nat} {tables : List String} {fromBlock : BlockNumber} {s t : σ} {s' : τ}
    (hrel : Rel s s')
    (h : (replayTables feed read readBlocks fuel tables fromBlock toBlock s).getD (.ok s)
      = .ok t) :
    ∃ t', (replayTables feed' read readBlocks fuel tables fromBlock toBlock s').getD (.ok s')
      = .ok t' ∧ Rel t t' := by
  have hloop : ∀ (fuel : Nat) (cursors : List ReplayCursor) (s : σ) (s' : τ), Rel s s' →
      (replayLoop feed read readBlocks toBlock fuel cursors s = none →
        replayLoop feed' read readBlocks toBlock fuel cursors s' = none) ∧
      ∀ t, replayLoop feed read readBlocks toBlock fuel cursors s = some (.ok t) →
        ∃ t', replayLoop feed' read readBlocks toBlock fuel cursors s' = some (.ok t') ∧
          Rel t t' := by
    intro fuel
    induction fuel with
    | zero => exact fun _ _ _ _ => ⟨fun _ => rfl, fun _ h => (by cases h)⟩
    | succ fuel ih =>
      intro cursors s s' hrel
      rw [replayLoop, replayLoop]
      split
      · exact ⟨fun h => (by cases h), fun _ h => (by cases h)⟩
      · split
        · refine ⟨fun h => (by cases h), fun t ht => ?_⟩
          cases ht
          exact ⟨s', rfl, hrel⟩
        · next block _ =>
          split
          · exact ⟨fun h => (by cases h), fun _ h => (by cases h)⟩
          · next cursors₁ s₁ hfed =>
            obtain ⟨s₁', hfed', hrel'⟩ := feedBlock_related hfeed hrel hfed
            rw [hfed']
            exact ih cursors₁ s₁ s₁' hrel'
  rw [replayTables] at h ⊢
  split at h
  · next hrange =>
    rw [if_pos hrange]
    cases h
    exact ⟨s', rfl, hrel⟩
  · next hrange =>
    rw [if_neg hrange]
    obtain ⟨hnone, hsome⟩ := hloop fuel _ s s' hrel
    cases hl : replayLoop feed read readBlocks toBlock fuel _ s with
    | none =>
      rw [hl] at h
      cases h
      exact ⟨s', by rw [hnone hl]; rfl, hrel⟩
    | some result =>
      rw [hl] at h
      cases result with
      | error err => cases h
      | ok t₁ =>
        cases h
        obtain ⟨t', ht', hrel'⟩ := hsome t hl
        exact ⟨t', by rw [ht']; rfl, hrel'⟩

end Related

/-! ## The chain -/

namespace SettleEngine

variable {R V : Type} [ReducerNode R] [ViewNode V] {e : SettleEngine R V} {schema : Schema}
  {name : String}

/-- A reducer reads another one. -/
def Feeds (e : SettleEngine R V) (a b : String) : Prop :=
  e.nodes.sourceOf (.reducer b) = some a ∧ (e.nodes.sourceOf (.reducer a)).isSome

/-- A reducer feeds another one, or is fed by it, or is it. -/
def InChain (e : SettleEngine R V) (name other : String) : Prop :=
  Relation.ReflTransGen e.Feeds other name ∨ Relation.ReflTransGen e.Feeds name other

/-- The place of a reducer in the pipeline. -/
def place (e : SettleEngine R V) (name : String) : Nat := e.pipeline.idxOf (.reducer name)

theorem contains_sourceOf (e : SettleEngine R V) (name : String) :
    e.nodes.reducers.contains name = (e.nodes.sourceOf (.reducer name)).isSome := by
  rw [Nodes.sourceOf, Option.isSome_map, ExtTreeMap.contains_eq_isSome_getElem?]

/-- A node that reads is in the pipeline. -/
theorem Wired.mem_of_sourceOf (h : e.Wired schema) {node : PipelineNode} {source : String}
    (hsource : e.nodes.sourceOf node = some source) : node ∈ e.pipeline :=
  h.pipeline.perm.mem_iff.mpr (Schema.nodeSource_mem (h.sources node source hsource))

theorem Feeds.mem (h : e.Wired schema) {a b : String} (hfeeds : e.Feeds a b) :
    .reducer a ∈ e.pipeline ∧ .reducer b ∈ e.pipeline := by
  obtain ⟨source, hsource⟩ := Option.isSome_iff_exists.mp hfeeds.2
  exact ⟨h.mem_of_sourceOf hsource, h.mem_of_sourceOf hfeeds.1⟩

/-- What a reducer reads stands before it. -/
theorem Feeds.before (h : e.Wired schema) (hvalid : schema.validate = .ok ()) {a b : String}
    (hfeeds : e.Feeds a b) {pre post : List PipelineNode}
    (hpipe : e.pipeline = pre ++ .reducer b :: post) : .reducer a ∈ pre := by
  have hmem := (hfeeds.mem h).1
  rw [hpipe, List.mem_append] at hmem
  refine hmem.resolve_right ?_
  exact (h.inOrder hvalid).sorted pre _ post hpipe a hfeeds.1

theorem Feeds.place_lt (h : e.Wired schema) (hvalid : schema.validate = .ok ()) {a b : String}
    (hfeeds : e.Feeds a b) : e.place a < e.place b := by
  obtain ⟨pre, post, hpipe⟩ := List.append_of_mem (hfeeds.mem h).2
  have hbefore := hfeeds.before h hvalid hpipe
  have hnot : PipelineNode.reducer b ∉ pre := by
    have hnodup := h.pipeline.nodup
    rw [hpipe] at hnodup
    exact fun hin => (List.nodup_append.mp hnodup).2.2 _ hin _ List.mem_cons_self rfl
  rw [place, place, hpipe, List.idxOf_append_of_mem hbefore, List.idxOf_append_of_notMem hnot,
    List.idxOf_cons_self]
  exact List.idxOf_lt_length_of_mem hbefore

theorem feeds_place_le (h : e.Wired schema) (hvalid : schema.validate = .ok ()) {a b : String}
    (hfeeds : Relation.ReflTransGen e.Feeds a b) : e.place a ≤ e.place b := by
  induction hfeeds with
  | refl => exact Nat.le_refl _
  | tail _ hlast ih => exact Nat.le_trans ih (Nat.le_of_lt (hlast.place_lt h hvalid))

theorem feeds_place_lt (h : e.Wired schema) (hvalid : schema.validate = .ok ()) {a b : String}
    (hfeeds : Relation.TransGen e.Feeds a b) : e.place a < e.place b := by
  obtain ⟨c, hfirst, hlast⟩ := Relation.TransGen.tail'_iff.mp hfeeds
  exact Nat.lt_of_le_of_lt (feeds_place_le h hvalid hfirst) (hlast.place_lt h hvalid)

/-- **What feeds a reducer.** -/
theorem mem_upstream (h : e.Wired schema) (hvalid : schema.validate = .ok ()) {fuel : Nat}
    (hfuel : e.place name < fuel) (other : String) :
    other ∈ e.upstream fuel name ↔ Relation.TransGen e.Feeds other name := by
  induction fuel generalizing name with
  | zero => exact absurd hfuel (Nat.not_lt_zero _)
  | succ fuel ih =>
    rw [Relation.TransGen.tail'_iff, upstream]
    cases hsource : e.nodes.sourceOf (.reducer name) with
    | none =>
      refine ⟨fun hin => (by cases hin), ?_⟩
      rintro ⟨c, -, hlast⟩
      rw [Feeds, hsource] at hlast
      cases hlast.1
    | some source =>
      have hunique : ∀ c, e.Feeds c name → c = source := by
        intro c hlast
        rw [Feeds, hsource] at hlast
        exact (Option.some.inj hlast.1).symm
      dsimp only
      by_cases hreducer : (e.nodes.sourceOf (.reducer source)).isSome = true
      · have hfeeds : e.Feeds source name := ⟨hsource, hreducer⟩
        have hplace := hfeeds.place_lt h hvalid
        rw [contains_sourceOf, if_pos hreducer, List.mem_cons, ih (by omega)]
        constructor
        · rintro (rfl | hin)
          · exact ⟨other, .refl, hfeeds⟩
          · exact ⟨source, hin.to_reflTransGen, hfeeds⟩
        · rintro ⟨c, hfirst, hlast⟩
          obtain rfl := hunique c hlast
          exact (Relation.reflTransGen_iff_eq_or_transGen.mp hfirst).imp Eq.symm id
      · rw [contains_sourceOf, if_neg hreducer]
        refine ⟨fun hin => (by cases hin), ?_⟩
        rintro ⟨c, -, hlast⟩
        obtain rfl := hunique c hlast
        exact absurd hlast.2 hreducer

theorem upstream_nodup (h : e.Wired schema) (hvalid : schema.validate = .ok ()) {fuel : Nat}
    (hfuel : e.place name < fuel) : (e.upstream fuel name).Nodup := by
  induction fuel generalizing name with
  | zero => exact .nil
  | succ fuel ih =>
    rw [upstream]
    split
    · next source hsource =>
      split
      · next hreducer =>
        rw [contains_sourceOf] at hreducer
        have hfeeds : e.Feeds source name := ⟨hsource, hreducer⟩
        have hplace := hfeeds.place_lt h hvalid
        have hfuel' : e.place source < fuel := by omega
        refine List.nodup_cons.mpr ⟨fun hin => ?_, ih hfuel'⟩
        have hcycle := feeds_place_lt h hvalid ((mem_upstream h hvalid hfuel' source).mp hin)
        omega
      · exact .nil
    · exact .nil

/-- The reducers of a part of the pipeline that a reducer feeds, and the reducer. -/
structure Below (e : SettleEngine R V) (name : String) (pre : List PipelineNode)
    (below : List String) : Prop where
  nodup : below.Nodup
  self : name ∈ below
  sound : ∀ r ∈ below, Relation.ReflTransGen e.Feeds name r ∧ (r = name ∨ .reducer r ∈ pre)
  complete : ∀ r, .reducer r ∈ pre → Relation.ReflTransGen e.Feeds name r → r ∈ below

/-- The next node of the pipeline. -/
theorem Below.step (h : e.Wired schema) (hvalid : schema.validate = .ok ())
    (hname : (e.nodes.sourceOf (.reducer name)).isSome) {pre post : List PipelineNode}
    {node : PipelineNode} {below : List String} (hpipe : e.pipeline = pre ++ node :: post)
    (hb : e.Below name pre below) : e.Below name (pre ++ [node]) (e.addBelow below node) := by
  have hother : ∀ (hnot : ∀ r, node = .reducer r → Relation.ReflTransGen e.Feeds name r →
      r ∈ below), e.Below name (pre ++ [node]) below := by
    intro hnot
    refine ⟨hb.nodup, hb.self, fun r hr => ⟨(hb.sound r hr).1, ?_⟩, ?_⟩
    · exact (hb.sound r hr).2.imp_right (List.mem_append_left _)
    · intro r hr hfeeds
      rcases List.mem_append.mp hr with hr | hr
      · exact hb.complete r hr hfeeds
      · exact hnot r (List.mem_singleton.mp hr).symm hfeeds
  cases node with
  | rawTable _ => exact hother fun r heq => (by cases heq)
  | mv _ => exact hother fun r heq => (by cases heq)
  | reducer r =>
    rw [addBelow]
    split
    · next hsource =>
      rw [Option.any_eq_true] at hsource
      obtain ⟨source, hread, hin⟩ := hsource
      have hin : source ∈ below := by simpa using hin
      obtain ⟨hreached, -⟩ := hb.sound source hin
      -- a reducer that is reached reads something, or is the first
      have hfeeds : e.Feeds source r := by
        refine ⟨hread, ?_⟩
        rcases Relation.reflTransGen_iff_eq_or_transGen.mp hreached with rfl | hlonger
        · exact hname
        · obtain ⟨c, -, hlast⟩ := Relation.TransGen.tail'_iff.mp hlonger
          rw [hlast.1]
          rfl
      have hnew : r ∉ below := by
        intro hold
        rcases (hb.sound r hold).2 with rfl | hpre
        · have hplace := hfeeds.place_lt h hvalid
          have hback := feeds_place_le h hvalid hreached
          omega
        · have hnodup := h.pipeline.nodup
          rw [hpipe] at hnodup
          exact (List.nodup_append.mp hnodup).2.2 _ hpre _ List.mem_cons_self rfl
      refine ⟨?_, List.mem_append_left _ hb.self, ?_, ?_⟩
      · exact List.nodup_append.mpr ⟨hb.nodup, List.nodup_singleton r, fun a ha b hb' heq =>
          hnew (List.mem_singleton.mp hb' ▸ heq ▸ ha)⟩
      · intro r' hr'
        rcases List.mem_append.mp hr' with hr' | hr'
        · obtain ⟨hreached', hwhere⟩ := hb.sound r' hr'
          exact ⟨hreached', hwhere.imp_right (List.mem_append_left _)⟩
        · obtain rfl := List.mem_singleton.mp hr'
          exact ⟨hreached.tail hfeeds, .inr (by simp)⟩
      · intro r' hr' hreached'
        rcases List.mem_append.mp hr' with hr' | hr'
        · exact List.mem_append_left _ (hb.complete r' hr' hreached')
        · cases List.mem_singleton.mp hr'
          simp
    · next hsource =>
      apply hother
      intro r' heq hfeeds
      cases heq
      rcases Relation.reflTransGen_iff_eq_or_transGen.mp hfeeds with rfl | hfeeds
      · exact hb.self
      · obtain ⟨c, hfirst, hlast⟩ := Relation.TransGen.tail'_iff.mp hfeeds
        have hin := hb.complete c (hlast.before h hvalid hpipe) hfirst
        rw [hlast.1] at hsource
        exact absurd (by simpa using hin) hsource

/-- **What a reducer feeds.** -/
theorem downstream_below (h : e.Wired schema) (hvalid : schema.validate = .ok ())
    (hname : (e.nodes.sourceOf (.reducer name)).isSome) :
    e.Below name e.pipeline (e.downstream name) := by
  have hrun : ∀ (post pre : List PipelineNode) (below : List String), e.pipeline = pre ++ post →
      e.Below name pre below → e.Below name e.pipeline (post.foldl e.addBelow below) := by
    intro post
    induction post with
    | nil =>
      intro pre below hpipe hb
      rw [List.append_nil] at hpipe
      rw [hpipe]
      exact hb
    | cons node post ih =>
      intro pre below hpipe hb
      apply ih (pre ++ [node])
      · rw [hpipe, List.append_assoc]
        rfl
      · exact hb.step h hvalid hname hpipe
  refine hrun e.pipeline [] [name] rfl ⟨List.nodup_singleton name, List.mem_singleton_self name,
    ?_, fun r hr => (by cases hr)⟩
  intro r hr
  obtain rfl := List.mem_singleton.mp hr
  exact ⟨.refl, .inl rfl⟩

theorem mem_downstream (h : e.Wired schema) (hvalid : schema.validate = .ok ())
    (hname : (e.nodes.sourceOf (.reducer name)).isSome) (other : String) :
    other ∈ e.downstream name ↔ Relation.ReflTransGen e.Feeds name other := by
  have hbelow := downstream_below h hvalid hname
  refine ⟨fun hin => (hbelow.sound other hin).1, fun hfeeds => ?_⟩
  rcases Relation.reflTransGen_iff_eq_or_transGen.mp hfeeds with rfl | hlonger
  · exact hbelow.self
  · obtain ⟨c, -, hlast⟩ := Relation.TransGen.tail'_iff.mp hlonger
    exact hbelow.complete other (hlast.mem h).2 hfeeds

theorem mem_viewsOf (h : e.Wired schema) (reducers : List String) (view : String) :
    view ∈ e.viewsOf reducers ↔ ∃ source, e.nodes.sourceOf (.mv view) = some source ∧
      source ∈ reducers := by
  rw [viewsOf, List.mem_filterMap]
  constructor
  · rintro ⟨node, -, hnode⟩
    cases node with
    | rawTable _ => cases hnode
    | reducer _ => cases hnode
    | mv v =>
      dsimp only at hnode
      split at hnode
      · next hsource =>
        cases hnode
        rw [Option.any_eq_true] at hsource
        obtain ⟨source, hread, hin⟩ := hsource
        exact ⟨source, hread, by simpa using hin⟩
      · cases hnode
  · rintro ⟨source, hread, hin⟩
    refine ⟨.mv view, h.mem_of_sourceOf hread, ?_⟩
    dsimp only
    rw [hread, if_pos (by simpa using hin)]

theorem viewsOf_nodup (h : e.Wired schema) (reducers : List String) :
    (e.viewsOf reducers).Nodup := by
  refine h.pipeline.nodup.filterMap ?_
  intro a b v ha hb
  cases a with
  | rawTable _ => cases ha
  | reducer _ => cases ha
  | mv v₁ =>
    cases b with
    | rawTable _ => cases hb
    | reducer _ => cases hb
    | mv v₂ =>
      dsimp only at ha hb
      split at ha
      · split at hb
        · cases ha
          cases hb
          rfl
        · cases hb
      · cases ha

/-- The chain has each of its nodes once. -/
theorem chainOrder_nodup (h : e.Wired schema) (hvalid : schema.validate = .ok ())
    (hname : (e.nodes.sourceOf (.reducer name)).isSome) : (e.chainOrder name).Nodup := by
  obtain ⟨source, hsource⟩ := Option.isSome_iff_exists.mp hname
  have hfuel : e.place name < e.pipeline.length :=
    List.idxOf_lt_length_of_mem (h.mem_of_sourceOf hsource)
  have hreducers : (e.upstream e.pipeline.length name ++ e.downstream name).Nodup := by
    refine List.nodup_append.mpr ⟨upstream_nodup h hvalid hfuel,
      (downstream_below h hvalid hname).nodup, ?_⟩
    intro a ha b hb heq
    subst heq
    have hup := feeds_place_lt h hvalid ((mem_upstream h hvalid hfuel a).mp ha)
    have hdown := feeds_place_le h hvalid ((mem_downstream h hvalid hname a).mp hb)
    omega
  refine List.nodup_append.mpr ⟨hreducers.map fun a b heq => by injection heq,
    (viewsOf_nodup h _).map fun a b heq => by injection heq, ?_⟩
  intro a ha b hb heq
  obtain ⟨r, -, rfl⟩ := List.mem_map.mp ha
  obtain ⟨v, -, rfl⟩ := List.mem_map.mp hb
  cases heq

/-- Names of reducers and of views. -/
theorem Wired.reducer_or_view (h : e.Wired schema) (hvalid : schema.validate = .ok ())
    {other source source' : String} (hreducer : e.nodes.sourceOf (.reducer other) = some source) :
    e.nodes.sourceOf (.mv other) ≠ some source' := by
  intro hview
  have hr := Schema.nodeSource_mem (h.sources _ _ hreducer)
  have hv := Schema.nodeSource_mem (h.sources _ _ hview)
  obtain ⟨-, -, hnames, -⟩ := Schema.validate_ok.mp hvalid
  have hnodup := (Schema.checkNames_ok.mp hnames).1
  rw [Schema.objectNames, List.nodup_append] at hnodup
  have hr : other ∈ schema.reducerNames := by simpa [Schema.nodes] using hr
  have hv : other ∈ schema.materializedViews.map MVDef.name := by simpa [Schema.nodes] using hv
  exact hnodup.2.2 other (List.mem_append_right _ hr) other hv rfl

/-- A view below a reducer of the chain. -/
def ViewBelow (e : SettleEngine R V) (name view : String) : Prop :=
  ∃ source, e.nodes.sourceOf (.mv view) = some source ∧ Relation.ReflTransGen e.Feeds name source

theorem mem_chainNames (h : e.Wired schema) (hvalid : schema.validate = .ok ())
    (hname : (e.nodes.sourceOf (.reducer name)).isSome) (other : String) :
    other ∈ e.chainNames name ↔ e.InChain name other ∨ e.ViewBelow name other := by
  obtain ⟨source, hsource⟩ := Option.isSome_iff_exists.mp hname
  have hfuel : e.place name < e.pipeline.length :=
    List.idxOf_lt_length_of_mem (h.mem_of_sourceOf hsource)
  rw [chainNames, List.mem_append, List.mem_append, mem_upstream h hvalid hfuel,
    mem_downstream h hvalid hname, mem_viewsOf h]
  refine or_congr ?_ (exists_congr fun s => and_congr_right fun _ =>
    mem_downstream h hvalid hname s)
  constructor
  · rintro (hup | hdown)
    · exact .inl hup.to_reflTransGen
    · exact .inr hdown
  · rintro (hup | hdown)
    · rcases Relation.reflTransGen_iff_eq_or_transGen.mp hup with rfl | hup
      · exact .inr .refl
      · exact .inl hup
    · exact .inr hdown

/-- The reducers of the chain are there. -/
theorem InChain.reads (hname : (e.nodes.sourceOf (.reducer name)).isSome) {other : String}
    (hchain : e.InChain name other) : (e.nodes.sourceOf (.reducer other)).isSome := by
  rcases hchain with hup | hdown
  · rcases Relation.ReflTransGen.cases_head hup with rfl | ⟨c, hfirst, -⟩
    · exact hname
    · exact hfirst.2
  · rcases Relation.ReflTransGen.cases_tail hdown with rfl | ⟨c, -, hlast⟩
    · exact hname
    · rw [hlast.1]
      rfl

/-- **What the chain reads** is in the chain, or no reducer. -/
theorem chain_closed (h : e.Wired schema) (hvalid : schema.validate = .ok ())
    (hname : (e.nodes.sourceOf (.reducer name)).isSome) :
    e.nodes.ReadsOnly (e.chainNames name)
      fun s => s ∈ e.chainNames name ∨ e.nodes.sourceOf (.reducer s) = none := by
  intro other hother source hsource
  rw [or_iff_not_imp_right]
  intro hreducer
  have hreducer : (e.nodes.sourceOf (.reducer source)).isSome :=
    Option.isSome_iff_ne_none.mpr hreducer
  rw [mem_chainNames h hvalid hname] at hother ⊢
  rcases hsource with hsource | hsource
  · -- a reducer of the chain reads one above it or the one before it
    have hfeeds : e.Feeds source other := ⟨hsource, hreducer⟩
    rcases hother with (hup | hdown) | ⟨source', hview, -⟩
    · exact .inl (.inl (.head hfeeds hup))
    · rcases Relation.reflTransGen_iff_eq_or_transGen.mp hdown with rfl | hlonger
      · exact .inl (.inl (.single hfeeds))
      · obtain ⟨c, hfirst, hlast⟩ := Relation.TransGen.tail'_iff.mp hlonger
        obtain rfl : c = source := Option.some.inj (hlast.1.symm.trans hsource)
        exact .inl (.inr hfirst)
    · exact absurd hview (h.reducer_or_view hvalid hsource)
  · rcases hother with hchain | ⟨source', hview, hdown⟩
    · obtain ⟨source', hreads⟩ := Option.isSome_iff_exists.mp (hchain.reads hname)
      exact absurd hsource (h.reducer_or_view hvalid hreads)
    · obtain rfl : source' = source := Option.some.inj (hview.symm.trans hsource)
      exact .inl (.inr hdown)

/-- The chain goes back as in a rollback of all nodes. -/
theorem rolledBackChain_agree (h : e.Wired schema) (hvalid : schema.validate = .ok ())
    (hname : (e.nodes.sourceOf (.reducer name)).isSome) (p : BlockNumber) :
    Nodes.AgreeOn (· ∈ e.chainNames name) (e.rolledBackNodes p) (e.rolledBackChain name p) := by
  intro other hother
  have hnodup := chainOrder_nodup h hvalid hname
  have hpipeline := List.nodup_reverse.mpr h.pipeline.nodup
  rw [chainNames, List.mem_append] at hother
  refine ⟨?_, ?_⟩
  · rw [rolledBackNodes, rolledBackChain, Nodes.stepNodes_reducers, Nodes.stepNodes_reducers]
    cases hr : e.nodes.reducers[other]? with
    | none => rfl
    | some r =>
      have hsource : e.nodes.sourceOf (.reducer other) = some (ReducerNode.source r) := by
        rw [Nodes.sourceOf, hr]
        rfl
      have hin : PipelineNode.reducer other ∈ e.chainOrder name := by
        refine List.mem_append_left _ (List.mem_map_of_mem (hother.resolve_right fun hview => ?_))
        obtain ⟨source, hview, -⟩ := (mem_viewsOf h _ other).mp hview
        exact h.reducer_or_view hvalid hsource hview
      rw [List.count_eq_one_of_mem hnodup hin, List.count_eq_one_of_mem hpipeline
        (List.mem_reverse.mpr (h.mem_of_sourceOf hsource))]
  · rw [rolledBackNodes, rolledBackChain, Nodes.stepNodes_mvs, Nodes.stepNodes_mvs]
    cases hv : e.nodes.mvs[other]? with
    | none => rfl
    | some v =>
      have hsource : e.nodes.sourceOf (.mv other) = some (ViewNode.source v) := by
        rw [Nodes.sourceOf, hv]
        rfl
      have hview : other ∈ e.viewsOf (e.downstream name) := by
        have hchain : other ∈ e.chainNames name := by
          rw [chainNames, List.mem_append]
          exact hother
        rcases (mem_chainNames h hvalid hname other).mp hchain with hchain | ⟨source, hview, hdown⟩
        · obtain ⟨source', hreads⟩ := Option.isSome_iff_exists.mp (hchain.reads hname)
          exact absurd hsource (h.reducer_or_view hvalid hreads)
        · exact (mem_viewsOf h _ other).mpr
            ⟨source, hview, (mem_downstream h hvalid hname source).mpr hdown⟩
      have hin : PipelineNode.mv other ∈ e.chainOrder name :=
        List.mem_append_right _ (List.mem_map_of_mem hview)
      rw [List.count_eq_one_of_mem hnodup hin, List.count_eq_one_of_mem hpipeline
        (List.mem_reverse.mpr (h.mem_of_sourceOf hsource))]

/-- The others stay. -/
theorem rolledBackChain_off (e : SettleEngine R V) (name : String) (p : BlockNumber) :
    Nodes.AgreeOn (· ∉ e.chainNames name) (e.rolledBackChain name p) e.nodes := by
  intro other hother
  rw [chainNames, List.mem_append, not_or] at hother
  have hreducer : PipelineNode.reducer other ∉ e.chainOrder name := by
    simpa [chainOrder] using hother.1
  have hmv : PipelineNode.mv other ∉ e.chainOrder name := by
    simpa [chainOrder] using hother.2
  rw [rolledBackChain, Nodes.stepNodes_reducers, Nodes.stepNodes_mvs,
    List.count_eq_zero_of_not_mem hreducer, List.count_eq_zero_of_not_mem hmv]
  simp

variable [NodeBuild R V]

/-- What holds of the nodes of the two replays after each block. -/
structure Replays (e : SettleEngine R V) (name : String) (nodes nodes' : Nodes R V) : Prop where
  sources : nodes.sourceOf = e.nodes.sourceOf
  sources' : nodes'.sourceOf = e.nodes.sourceOf
  chain : Nodes.AgreeOn (· ∈ e.chainNames name) nodes nodes'
  off : Nodes.AgreeOn (· ∉ e.chainNames name) nodes' e.nodes

theorem Replays.step [KeepsSource R V] (hbuild : BuildsSources R V) (h : e.Wired schema)
    (hvalid : schema.validate = .ok ()) (hname : (e.nodes.sourceOf (.reducer name)).isSome)
    {nodes nodes' done : Nodes R V} (hr : e.Replays name nodes nodes') {store : Store}
    {block : BlockNumber} {table : String} {rows : List Row}
    (hfed : Nodes.replayTableBlock store block none e.pipeline nodes
      ((∅ : Nodes.OutputRows).insert table rows) = .ok done) :
    ∃ done', Nodes.replayTableBlock store block (some (e.chainNames name)) e.pipeline nodes'
      ((∅ : Nodes.OutputRows).insert table rows) = .ok done' ∧ e.Replays name done done' := by
  have hskip : ∀ other, other ∉ e.chainNames name → ∀ source,
      nodes.sourceOf (.reducer other) = some source →
      ¬ (other ∈ e.chainNames name ∨ e.nodes.sourceOf (.reducer other) = none) := by
    intro other hother source hsource hseen
    rw [hr.sources] at hsource
    rw [hseen.resolve_left hother] at hsource
    cases hsource
  obtain ⟨done', hfed', hagree⟩ := Nodes.replayTableBlock_agree hbuild hskip
    ((chain_closed h hvalid hname).of_sourceOf hr.sources) hr.chain (fun _ _ => rfl) hfed
  refine ⟨done', hfed', ?_, ?_, hagree, Nodes.replayTableBlock_off hr.off hfed'⟩
  · exact (Nodes.replayTableBlock_sourceOf hbuild none _ hfed).trans hr.sources
  · exact (Nodes.replayTableBlock_sourceOf hbuild (some _) _ hfed').trans hr.sources'

/-- **The replay of a chain.** -/
theorem replayReducerChain_spec [KeepsSource R V] (hbuild : BuildsSources R V)
    (h : e.Wired schema) (hvalid : schema.validate = .ok ())
    (hname : (e.nodes.sourceOf (.reducer name)).isSome) {store : Store}
    {finalized latest : BlockNumber} (hlt : finalized < latest) {full : SettleEngine R V}
    (hfull : { e with nodes := e.rolledBackNodes finalized }.replayUnfinalized store
      (finalized + 1) latest = .ok full) :
    ∃ e', e.replayReducerChain store name finalized latest = .ok e' ∧
      e' = { e with nodes := e'.nodes } ∧ e.Replays name full.nodes e'.nodes := by
  have hstart : e.Replays name (e.rolledBackNodes finalized)
      (e.rolledBackChain name finalized) := by
    refine ⟨?_, ?_, rolledBackChain_agree h hvalid hname finalized,
      e.rolledBackChain_off name finalized⟩
    · exact Nodes.stepNodes_sourceOf (fun r => KeepsSource.rollback V r finalized)
        (fun v => KeepsSource.rollbackView R v finalized) _ _
    · exact Nodes.stepNodes_sourceOf (fun r => KeepsSource.rollback V r finalized)
        (fun v => KeepsSource.rollbackView R v finalized) _ _
  rw [replayUnfinalized_inner, replayUnfinalizedInner] at hfull
  rw [replayReducerChain, contains_sourceOf, hname, if_neg (by simp),
    if_neg (UInt64.not_le.mpr hlt), replayUnfinalizedInner]
  cases hloop : (replayTables (fun nodes table block rows =>
      Nodes.replayTableBlock store block none e.pipeline nodes
        ((∅ : Nodes.OutputRows).insert table rows)) (e.readRows store) replayReadBlocks
      (store.raw.size + 1) (e.rawTables.toList.map Prod.fst) (finalized + 1) latest
      (e.rolledBackNodes finalized)).getD (.ok (e.rolledBackNodes finalized)) with
  | error err =>
    have hfull := (congrArg (· >>= _) hloop).symm.trans hfull
    cases hfull
  | ok nodes =>
    have hfull := (congrArg (· >>= _) hloop).symm.trans hfull
    cases hfull
    obtain ⟨nodes', hloop', hrel⟩ := replayTables_related
      (fun _ _ _ _ _ _ hr hfed => hr.step hbuild h hvalid hname hfed) hstart hloop
    exact ⟨{ e with nodes := nodes' }, congrArg (· >>= _) hloop', rfl, hrel⟩

end SettleEngine

/-- **The replay of a chain rebuilds the chain, and nothing else.** In every state that calls reach
from a new engine of an accepted schema, where a replay of the unfinalized blocks through all nodes,
each rolled back to finality, goes through, the replay for one reducer does. The reducers that feed
it or are fed by it, and the views below, end as in the replay of all; every other reducer and view
stays as it was. -/
theorem replay_chain_agrees [ViewStorage] [NodeBuild PipelineReducer PipelineView]
    (hbuild : BuildsSources PipelineReducer PipelineView) {schema : Schema} {opened : Store}
    {rayon : Bool} {e₀ : PipelineEngine} (hvalid : schema.validate = .ok ())
    (hnew : SettleEngine.new schema opened rayon = .ok e₀) (calls : List EngineCall)
    {name : String} (store : Store) {finalized latest : BlockNumber} {full : PipelineEngine}
    (hname : (e₀.afterCalls calls).nodes.reducers.contains name = true)
    (hlt : finalized < latest)
    (hfull : { e₀.afterCalls calls with
      nodes := (e₀.afterCalls calls).rolledBackNodes finalized }.replayUnfinalized store
        (finalized + 1) latest = .ok full) :
    let e := e₀.afterCalls calls
    ∃ e', e.replayReducerChain store name finalized latest = .ok e' ∧
      e' = { e with nodes := e'.nodes } ∧
      (∀ r, (e.InChain name r → e'.nodes.reducers[r]? = full.nodes.reducers[r]?) ∧
        (¬ e.InChain name r → e'.nodes.reducers[r]? = e.nodes.reducers[r]?)) ∧
      ∀ view, (e.ViewBelow name view → e'.nodes.mvs[view]? = full.nodes.mvs[view]?) ∧
        (¬ e.ViewBelow name view → e'.nodes.mvs[view]? = e.nodes.mvs[view]?) := by
  intro e
  have h : e.Wired schema :=
    (SettleEngine.new_wired hbuild hvalid hnew).of_same (SettleEngine.afterCalls_wiring hbuild _ _)
  rw [SettleEngine.contains_sourceOf] at hname
  have hname : (e.nodes.sourceOf (.reducer name)).isSome := hname
  obtain ⟨e', hcall, hsame, hreplays⟩ := SettleEngine.replayReducerChain_spec hbuild h hvalid hname
    hlt hfull
  have hnames := SettleEngine.mem_chainNames h hvalid hname
  refine ⟨e', hcall, hsame, fun r => ⟨fun hin => ?_, fun hout => ?_⟩,
    fun view => ⟨fun hin => ?_, fun hout => ?_⟩⟩
  · exact (hreplays.chain r ((hnames r).mpr (.inl hin))).1
  · by_cases hmem : r ∈ e.chainNames name
    · -- the name of a view: no reducer has it
      obtain ⟨source, hview, -⟩ := ((hnames r).mp hmem).resolve_left hout
      have hnone : e.nodes.sourceOf (.reducer r) = none := by
        by_contra hne
        obtain ⟨source', hreads⟩ := Option.ne_none_iff_exists'.mp hne
        exact h.reducer_or_view hvalid hreads hview
      have hnone' := congrFun hreplays.sources' (.reducer r)
      rw [hnone] at hnone'
      rw [Option.map_eq_none_iff.mp hnone, Option.map_eq_none_iff.mp hnone']
    · exact (hreplays.off r hmem).1.symm
  · exact (hreplays.chain view ((hnames view).mpr (.inr hin))).2
  · by_cases hmem : view ∈ e.chainNames name
    · -- the name of a reducer: no view has it
      have hchain := ((hnames view).mp hmem).resolve_right hout
      obtain ⟨source, hreads⟩ := Option.isSome_iff_exists.mp (hchain.reads hname)
      have hnone : e.nodes.sourceOf (.mv view) = none := by
        by_contra hne
        obtain ⟨source', hview⟩ := Option.ne_none_iff_exists'.mp hne
        exact h.reducer_or_view hvalid hreads hview
      have hnone' := congrFun hreplays.sources' (.mv view)
      rw [hnone] at hnone'
      rw [Option.map_eq_none_iff.mp hnone, Option.map_eq_none_iff.mp hnone']
    · exact (hreplays.off view hmem).2.symm

/-- A store with a row of `t` in block 1. -/
def oneRowOfT : Store where
  raw := (∅ : BTreeMap (String × BlockNumber) Datum).insert ("t", 1)
    (.rows [{ registry := ⟨["block_number", "x"]⟩, values := [.uint64 1, .uint64 5] }])

/-- Block 1 again through branch `a`: branch `b` stays. -/
theorem replay_chain_agrees_twoBranches :
    letI := noViewStorage
    letI := countingNodes
    ∃ (e₀ e' : PipelineEngine), SettleEngine.new twoBranches {} true = .ok e₀ ∧
      (e₀.afterCalls [.processBatch {} "t" 1 [userRow "bob"]]).replayReducerChain oneRowOfT "a" 0 1
        = .ok e' ∧
      e'.nodes.reducers["b"]?
        = (e₀.afterCalls [.processBatch {} "t" 1 [userRow "bob"]]).nodes.reducers["b"]? := by
  let := noViewStorage
  let := countingNodes
  have hok : ((SettleEngine.new (R := PipelineReducer) (V := PipelineView) twoBranches {}
      true).toOption.map fun e₀ =>
        let e := e₀.afterCalls [.processBatch {} "t" 1 [userRow "bob"]]
        e.nodes.reducers.contains "a" &&
          ({ e with nodes := e.rolledBackNodes 0 }.replayUnfinalized oneRowOfT (0 + 1) 1).toBool &&
          e.nodes.sourceOf (.reducer "a") == some "t" &&
          e.nodes.sourceOf (.reducer "b") == some "t" &&
          e.nodes.sourceOf (.reducer "t") == none) = some true := by
    decide +kernel
  cases hnew : SettleEngine.new (R := PipelineReducer) (V := PipelineView) twoBranches {} true with
  | error err =>
    rw [hnew] at hok
    cases hok
  | ok e₀ =>
    rw [hnew] at hok
    have hcalls := Option.some.inj hok
    simp only [Bool.and_eq_true, beq_iff_eq] at hcalls
    obtain ⟨⟨⟨⟨hname, hfull⟩, ha⟩, hb⟩, ht⟩ := hcalls
    obtain ⟨full, hfull⟩ := ok_of_toBool hfull
    obtain ⟨e', hcall, -, hreducers, -⟩ := replay_chain_agrees countingNodes_sources
      twoBranches_valid hnew [.processBatch {} "t" 1 [userRow "bob"]] oneRowOfT hname (by decide)
      hfull
    refine ⟨e₀, e', rfl, hcall, (hreducers "b").2 ?_⟩
    -- both branches read the table
    have hcut : ∀ a b, (e₀.afterCalls [.processBatch {} "t" 1 [userRow "bob"]]).nodes.sourceOf
        (.reducer b) = some "t" →
        Relation.ReflTransGen (SettleEngine.Feeds (e₀.afterCalls
          [.processBatch {} "t" 1 [userRow "bob"]])) a b → a = b := by
      intro a b hsource hfeeds
      rcases Relation.ReflTransGen.cases_tail hfeeds with rfl | ⟨c, -, hlast⟩
      · rfl
      · obtain rfl : c = "t" := Option.some.inj (hlast.1.symm.trans hsource)
        rw [SettleEngine.Feeds, ht] at hlast
        cases hlast.2
    rintro (hup | hdown)
    · exact absurd (hcut "b" "a" ha hup) (by decide)
    · exact absurd (hcut "a" "b" hb hdown) (by decide)

end Settle
