import Settle.Db.Open
import Settle.Db.Retention

/-!
# Instances that are opened again

What an open restores of the watermarks: on a store that holds those of an engine (`Stored`), it
starts with the same latest block, durable block and finality, and with the tables of the schema.
So a crash after any number of commits and the next open continue the run: `Lives` chains the runs
of a database over any number of crashes.
-/

namespace Settle

open Std

variable {R V : Type} [ReducerNode R] [ViewNode V] [NodeBuild R V]

/-! ## The engine of an open -/

namespace SettleEngine

omit [ReducerNode R] in
/-- `SettleEngine::new`: the tables of the schema, and no block. -/
theorem new_fields {schema : Schema} {store : Store} {rayon : Bool} {e : SettleEngine R V}
    (h : SettleEngine.new schema store rayon = .ok e) :
    e.rawTables = newRawTables schema ∧ e.pipeline = buildPipeline schema ∧
      e.latestBlock = none ∧ e.durableBlock = none ∧ e.hasFinalized = false ∧
      e.hashChanges = ∅ := by
  unfold SettleEngine.new at h
  simp only [bind, Except.bind] at h
  split at h
  · cases h
  · split at h
    · cases h
    · cases h
      exact ⟨rfl, rfl, rfl, rfl, rfl, rfl⟩

/-- An entry of a map made from a list is an entry of the list. -/
theorem getElem?_insertMany {β : Type} {l : List (String × β)} {m : FxHashMap String β} {k : String}
    {v : β} (h : (m.insertMany l)[k]? = some v) : (k, v) ∈ l ∨ m[k]? = some v := by
  induction l generalizing m with
  | nil =>
    rw [ExtTreeMap.insertMany_nil] at h
    exact Or.inr h
  | cons entry l ih =>
    rw [ExtTreeMap.insertMany_cons] at h
    rcases ih h with hmem | hins
    · exact Or.inl (List.mem_cons_of_mem entry hmem)
    · rw [ExtTreeMap.getElem?_insert] at hins
      split at hins
      · next heq =>
        cases hins
        left
        rw [← LawfulEqCmp.eq_of_compare heq]
        exact List.mem_cons_self
      · exact Or.inr hins

theorem getElem?_newRawTables {schema : Schema} {table : String} {raw : RawTableEngine}
    (h : (newRawTables schema)[table]? = some raw) :
    raw.name = table ∧ table ∈ schema.tables.map TableDef.name := by
  rw [newRawTables, ExtTreeMap.ofList_eq_insertMany_empty] at h
  obtain hmem | hnone := getElem?_insertMany h
  · obtain ⟨t, ht, heq⟩ := List.mem_map.mp hmem
    cases heq
    exact ⟨rfl, List.mem_map_of_mem ht⟩
  · rw [ExtTreeMap.getElem?_empty] at hnone
    cases hnone

omit [ReducerNode R] [ViewNode V] [NodeBuild R V] in
/-- An engine with the tables and the pipeline of a schema. -/
theorem built_of_schema {schema : Schema} {e : SettleEngine R V}
    (ht : e.rawTables = newRawTables schema) (hp : e.pipeline = buildPipeline schema) :
    e.Built := by
  refine ⟨?_, ?_⟩
  · intro table raw hraw
    rw [ht] at hraw
    exact (getElem?_newRawTables hraw).1
  · intro table hcontains
    rw [ht, ExtTreeMap.contains_eq_isSome_getElem?] at hcontains
    obtain ⟨raw, hraw⟩ := Option.isSome_iff_exists.mp hcontains
    rw [hp, buildPipeline]
    have hmem : PipelineNode.rawTable table ∈ (schema.tables.map TableDef.name).map .rawTable :=
      List.mem_map_of_mem (getElem?_newRawTables hraw).2
    simp only [List.mem_append]
    exact Or.inl (Or.inl (Or.inl hmem))

/-- The replay of an open changes the nodes only. -/
theorem replayUnfinalized_fields {e e' : SettleEngine R V} {store : Store}
    {fromBlock toBlock : BlockNumber} (h : e.replayUnfinalized store fromBlock toBlock = .ok e') :
    ∃ nodes, e' = { e with nodes := nodes } := by
  unfold replayUnfinalized at h
  simp only [bind, Except.bind] at h
  split at h
  · cases h
  · cases h
    exact ⟨_, rfl⟩

omit [NodeBuild R V] in
/-- The finality that an open restores. -/
theorem restoreFinality_fields (e : SettleEngine R V) (block : BlockNumber)
    (hd : e.durableBlock.isSome → e.hasFinalized = true) :
    (e.restoreFinality block).rawTables = e.rawTables ∧
      (e.restoreFinality block).pipeline = e.pipeline ∧
      (e.restoreFinality block).latestBlock = e.latestBlock ∧
      (e.restoreFinality block).durableBlock = e.durableBlock ∧
      (e.restoreFinality block).finalizedBlock = block ∧
      (e.restoreFinality block).hasFinalized = true := by
  have hcases : e.restoreFinality block = e.advanceFinality block ∨
      e.durableBlock.isSome ∧ e.restoreFinality block = pruneBlockHashes
        { e with nodesFinalAt := e.durableBlock, finalizedBlock := block } := by
    unfold restoreFinality
    cases hd : e.durableBlock with
    | none => exact Or.inl rfl
    | some d =>
      cases e.latestBlock with
      | none => exact Or.inl rfl
      | some latest =>
        dsimp only
        split
        · exact Or.inl rfl
        · exact Or.inr ⟨rfl, rfl⟩
  rcases hcases with h | ⟨hsome, h⟩
  · rw [h]
    rcases e.advanceFinality_marks block with ⟨hfin, hblock, -, hsame⟩ | ⟨nodes, hmoved⟩
    · rw [hsame]
      exact ⟨rfl, rfl, rfl, rfl, hblock.symm, hfin⟩
    · rw [hmoved]
      exact ⟨rfl, rfl, rfl, rfl, rfl, rfl⟩
  · rw [h]
    exact ⟨rfl, rfl, rfl, rfl, rfl, hd hsome⟩

end SettleEngine

/-! ## The watermarks of an open -/

omit [ReducerNode R] [ViewNode V] [NodeBuild R V] in
/-- A stored watermark is read as it was. -/
theorem metaBlock_stored {e : SettleEngine R V} {s : Store} (h : Stored e s) {key : String}
    (hkey : key = metaLatestBlock ∨ key = metaDurableBlock ∨ key = metaFinalityBlock) :
    Db.metaBlock s key = .ok (markMeta e key) := by
  unfold Db.metaBlock metaU64
  rw [h key hkey]
  cases markMeta e key with
  | none => rfl
  | some b =>
    show Except.ok (some (UInt64.ofNat b.toNat)) = _
    rw [UInt64.ofNat_toNat]

/-- The engine that an open restores has the watermarks of the one that wrote the store. -/
structure Restored (e₀ e : SettleEngine R V) : Prop where
  latest : e.latestBlock = e₀.latestBlock
  durable : e.durableBlock = e₀.durableBlock
  hasFinalized : e.hasFinalized = e₀.hasFinalized
  finalized : e₀.hasFinalized = true → e.finalizedBlock = e₀.finalizedBlock

theorem restoreEngine_restored {e₀ e e' : SettleEngine R V} {s : Store} (hs : Stored e₀ s)
    (hfinal : e₀.durableBlock.isSome → e₀.hasFinalized = true) (hl : e.latestBlock = none)
    (hd : e.durableBlock = none) (hf : e.hasFinalized = false)
    (h : Db.restoreEngine e s = .ok e') :
    Restored e₀ e' ∧ e'.rawTables = e.rawTables ∧ e'.pipeline = e.pipeline := by
  unfold Db.restoreEngine at h
  rw [metaBlock_stored hs (Or.inl rfl), metaBlock_stored hs (Or.inr (Or.inl rfl)),
    metaBlock_stored hs (Or.inr (Or.inr rfl))] at h
  simp only [bind, Except.bind] at h
  -- the engine before the replay
  obtain ⟨e₁, hlatest, hdurable, hhas, htables, hpipe, hrest⟩ : ∃ e₁ : SettleEngine R V,
      e₁.latestBlock = e₀.latestBlock ∧ e₁.durableBlock = e₀.durableBlock ∧
      e₁.hasFinalized = e₀.durableBlock.isSome ∧ e₁.rawTables = e.rawTables ∧
      e₁.pipeline = e.pipeline ∧
      ∃ nodes, e' = ((markMeta e₀ metaFinalityBlock).map
        (SettleEngine.restoreFinality { e₁ with nodes := nodes })).getD
          { e₁ with nodes := nodes } := by
    have hl₀ : markMeta e₀ metaLatestBlock = e₀.latestBlock := rfl
    have hd₀ : markMeta e₀ metaDurableBlock = e₀.durableBlock := rfl
    rw [hl₀, hd₀] at h
    refine ⟨OpenEngine.restoreBlockHashes ((e₀.durableBlock.map (OpenEngine.restoreDurableBlock
      ((e₀.latestBlock.map (OpenEngine.setLatestBlock e)).getD e))).getD
        ((e₀.latestBlock.map (OpenEngine.setLatestBlock e)).getD e)) s.blockHashes, ?_⟩
    have hfields : ∀ (latest durable : Option BlockNumber), ∃ e₁ : SettleEngine R V,
        OpenEngine.restoreBlockHashes ((durable.map (OpenEngine.restoreDurableBlock
          ((latest.map (OpenEngine.setLatestBlock e)).getD e))).getD
            ((latest.map (OpenEngine.setLatestBlock e)).getD e)) s.blockHashes = e₁ ∧
        e₁.latestBlock = latest ∧ e₁.durableBlock = durable ∧
        e₁.hasFinalized = durable.isSome ∧ e₁.rawTables = e.rawTables ∧
        e₁.pipeline = e.pipeline := by
      intro latest durable
      refine ⟨_, rfl, ?_⟩
      cases latest with
      | none =>
        cases durable with
        | none => exact ⟨hl, hd, hf, rfl, rfl⟩
        | some d => exact ⟨hl, rfl, rfl, rfl, rfl⟩
      | some l =>
        cases durable with
        | none => exact ⟨rfl, hd, hf, rfl, rfl⟩
        | some d => exact ⟨rfl, rfl, rfl, rfl, rfl⟩
    obtain ⟨e₁, he₁, hf₁, hf₂, hf₃, hf₄, hf₅⟩ := hfields e₀.latestBlock e₀.durableBlock
    rw [he₁] at h ⊢
    refine ⟨hf₁, hf₂, hf₃, hf₄, hf₅, ?_⟩
    split at h
    · split at h
      · cases h
      · next e₂ hreplay =>
        obtain ⟨nodes, rfl⟩ := SettleEngine.replayUnfinalized_fields hreplay
        cases h
        exact ⟨nodes, rfl⟩
    · cases h
      exact ⟨e₁.nodes, rfl⟩
  obtain ⟨nodes, rfl⟩ := hrest
  have hf₀ : markMeta e₀ metaFinalityBlock
      = if e₀.hasFinalized then some e₀.finalizedBlock else none := rfl
  rw [hf₀]
  cases hfin : e₀.hasFinalized with
  | false =>
    have hnone : e₀.durableBlock.isSome = false := by
      rw [Bool.eq_false_iff]
      intro hsome
      rw [hfinal hsome] at hfin
      cases hfin
    refine ⟨⟨hlatest, hdurable, ?_, ?_⟩, htables, hpipe⟩
    · rw [hfin]
      exact hhas.trans hnone
    · intro htrue
      rw [hfin] at htrue
      cases htrue
  | true =>
    obtain ⟨h₁, h₂, h₃, h₄, h₅, h₆⟩ := SettleEngine.restoreFinality_fields
      { e₁ with nodes := nodes } e₀.finalizedBlock (fun hsome => by
        show e₁.hasFinalized = true
        rw [hhas, ← hdurable]
        exact hsome)
    exact ⟨⟨h₃.trans hlatest, h₄.trans hdurable, h₆.trans hfin.symm, fun _ => h₅⟩,
      h₁.trans htables, h₂.trans hpipe⟩

section Opening

variable [SerdeJson]

/-- The steps of a successful open, after the recovery of the journal. -/
theorem start_steps {config : Config} {schema : Schema} {s : Store} {db : Db (SettleEngine R V)}
    (h : Db.start config schema s = .ok db) :
    ∃ e, SettleEngine.new schema s true = .ok e ∧ Db.restoreEngine e s = .ok db.engine ∧
      formatCheck s schema (hasData s) = .ok db.stamp := by
  unfold Db.start at h
  simp only [bind, Except.bind] at h
  split at h
  · cases h
  · next stamp hformat =>
    split at h
    · cases h
    · next e hnew =>
      split at h
      · cases h
      · next e' hrestore =>
        split at h
        · cases h
        · cases h
          exact ⟨e, hnew, hrestore, hformat⟩

/-- **An open keeps the rows:** on a store that an engine with the tables of the schema had, it
starts with its image. -/
theorem Kept.reopened {e₀ : SettleEngine R V} {s : Store} {image : RowImage}
    (h : Kept e₀ s image) {config : Config} {schema : Schema} {db : Db (SettleEngine R V)}
    (ht : e₀.rawTables = SettleEngine.newRawTables schema)
    (hstart : Db.start config schema s = .ok db) :
    Kept { db.engine with rawRetentionBlocks := e₀.rawRetentionBlocks } s image := by
  obtain ⟨e, hnew, hrestore, -⟩ := start_steps hstart
  obtain ⟨htables, hpipe, hl, hd, hf, -⟩ := SettleEngine.new_fields hnew
  obtain ⟨hr, htables', hpipe'⟩ := restoreEngine_restored h.stored h.final hl hd hf hrestore
  have hbuilt := SettleEngine.built_of_schema (htables'.trans htables) (hpipe'.trans hpipe)
  refine ⟨⟨hbuilt.named, hbuilt.piped⟩, ?_, ?_, ?_, ?_⟩
  · intro d hdur
    have hdur : db.engine.durableBlock = some d := hdur
    rw [hr.durable] at hdur
    obtain ⟨hle, hlat⟩ := h.levels d hdur
    refine ⟨?_, ?_⟩
    · show d ≤ db.engine.finalizedBlock
      rw [hr.finalized (h.final (by rw [hdur]; rfl))]
      exact hle
    · show ∃ latest, db.engine.latestBlock = some latest ∧ d ≤ latest
      rw [hr.latest]
      exact hlat
  · show db.engine.durableBlock.isSome → db.engine.hasFinalized = true
    rw [hr.durable, hr.hasFinalized]
    exact h.final
  · intro key hkey
    rw [h.stored key hkey]
    have hmark : markMeta { db.engine with rawRetentionBlocks := e₀.rawRetentionBlocks } key
        = markMeta e₀ key := by
      unfold markMeta
      dsimp only
      rw [hr.latest, hr.durable, hr.hasFinalized]
      cases hfin : e₀.hasFinalized with
      | false => rfl
      | true => rw [hr.finalized hfin]
    rw [hmark]
  · show Retains (db.engine.rawTables.contains ·) _ _ _ _
    rw [htables', htables, ← ht]
    exact h.rows

/-! ## The stamp of an open -/

omit [SerdeJson] in
/-- No layout is stored under the key of a watermark. -/
theorem Layout.metaKey_ne (l : Layout) {key : String}
    (hkey : key = metaLatestBlock ∨ key = metaDurableBlock ∨ key = metaFinalityBlock) :
    l.metaKey ≠ key := by
  intro heq
  have hfront : l.metaKey.toList.take 3 = ['l', 'a', 'y'] := by
    simp [Layout.metaKey, String.toList_append]
  rw [heq] at hfront
  rcases hkey with rfl | rfl | rfl <;> exact absurd hfront (by decide)

theorem checkLayouts_keys {s : Store} {layouts : List Layout} {stamp : Stamp}
    (h : checkLayouts s layouts = .ok stamp) : ∀ entry ∈ stamp, ∃ l : Layout, entry.1 = l.metaKey := by
  induction layouts generalizing stamp with
  | nil =>
    cases h
    simp
  | cons l layouts ih =>
    rw [checkLayouts] at h
    cases hl : l.check s with
    | error e => simp [hl, bind, Except.bind] at h
    | ok first =>
      cases hrest : checkLayouts s layouts with
      | error e => simp [hl, hrest, bind, Except.bind] at h
      | ok rest =>
        simp only [hl, hrest, bind, Except.bind, Except.ok.injEq] at h
        subst h
        intro entry hmem
        rcases List.mem_append.mp hmem with hmem | hmem
        · refine ⟨l, ?_⟩
          unfold Layout.check at hl
          split at hl
          · cases hl
            rw [List.mem_singleton.mp hmem]
          · split at hl
            · cases hl
              cases hmem
            · cases hl
          · cases hl
        · exact ih hrest entry hmem

/-- What an open stamps are the format version and layouts. -/
theorem stampOk_of_formatCheck {s : Store} {schema : Schema} {hasData : Bool} {stamp : Stamp}
    (h : formatCheck s schema hasData = .ok stamp) : StampOk stamp := by
  have hkeys : ∀ entry ∈ stamp, entry.1 = metaFormatVersion ∨ ∃ l : Layout, entry.1 = l.metaKey := by
    have hcases : ∃ version stamps, checkLayouts s schema.layouts = .ok stamps ∧
        stamp = version ++ stamps ∧ ∀ entry ∈ version, entry.1 = metaFormatVersion := by
      unfold formatCheck at h
      simp only [bind, Except.bind] at h
      split at h
      · split at h
        · cases h
        · split at h
          · cases h
          · next stamps hstamps =>
            cases h
            exact ⟨[], stamps, hstamps, rfl, by simp⟩
      · split at h
        · cases h
        · split at h
          · cases h
          · next stamps hstamps =>
            cases h
            exact ⟨[(metaFormatVersion, .number formatVersion)], stamps, hstamps, rfl, by simp⟩
    obtain ⟨version, stamps, hstamps, rfl, hversion⟩ := hcases
    intro entry hmem
    rcases List.mem_append.mp hmem with hmem | hmem
    · exact Or.inl (hversion entry hmem)
    · exact Or.inr (checkLayouts_keys hstamps entry hmem)
  intro entry hmem
  rcases hkeys entry hmem with hv | ⟨l, hl⟩
  · rw [hv]
    decide
  · rw [hl]
    exact ⟨l.metaKey_ne (Or.inr (Or.inl rfl)), l.metaKey_ne (Or.inl rfl),
      l.metaKey_ne (Or.inr (Or.inr rfl))⟩

/-! ## The life of a database -/

/-- An instance right after the open of its store, with the retention margin `margin`. -/
structure OpenedOn (schema : Schema) (margin : UInt64) (x : World (SettleEngine R V)) : Prop where
  opened : x.Opened
  start : ∃ (config : Config) (db : Db (SettleEngine R V)),
    Db.start config schema x.store = .ok db ∧
    x.db = { db with engine := { db.engine with rawRetentionBlocks := margin } }

/-- The runs of a database with one schema and one margin: the first on an empty store, and each
later one on the store that a crash left, after some of the write sets of the run before. -/
inductive Lives (schema : Schema) (margin : UInt64) : World (SettleEngine R V) →
    World (SettleEngine R V) → List RowImage → RowImage → Prop
  | first {x₀ x : World (SettleEngine R V)} {past : List RowImage} {image : RowImage}
      (opened : OpenedOn schema margin x₀) (empty : x₀.store = {})
      (run : RowRun x₀ (fun _ _ => []) x past image) : Lives schema margin x₀ x past image
  | again {x₀ x x₁ x' : World (SettleEngine R V)} {past past' : List RowImage}
      {image image' image'' : RowImage} (before : Lives schema margin x₀ x past image) (k : Nat)
      (crashed : (past ++ [image])[k]? = some image') (opened : OpenedOn schema margin x₁)
      (store : x₁.store.content = (x₀.store.commit (x.ledger.calls.take k).flatten).content)
      (run : RowRun x₁ image' x' past' image'') : Lives schema margin x₁ x' past' image''

omit [ReducerNode R] [ViewNode V] [NodeBuild R V] [SerdeJson] in
/-- What an engine has of a store is content. -/
theorem Kept.of_content {e : SettleEngine R V} {s s' : Store} {image : RowImage}
    (h : Kept e s image) (hc : s'.content = s.content) : Kept e s' image := by
  refine ⟨h.built, h.levels, h.final, ?_, h.rows.of_content hc⟩
  intro key hkey
  have hmetas : s'.metas = s.metas := by
    show s'.content.metas = s.content.metas
    rw [hc]
  rw [hmetas]
  exact h.stored key hkey

/-- An open on a store that an engine had starts a run. -/
theorem OpenedOn.start_of_kept {schema : Schema} {margin : UInt64} {x : World (SettleEngine R V)}
    (h : OpenedOn schema margin x) {e₀ : SettleEngine R V} {image : RowImage}
    (hk : Kept e₀ x.store image) (ht : e₀.rawTables = SettleEngine.newRawTables schema)
    (hm : e₀.rawRetentionBlocks = margin) :
    RetentionStart x image ∧ x.db.engine.rawTables = SettleEngine.newRawTables schema ∧
      x.db.engine.rawRetentionBlocks = margin := by
  obtain ⟨config, db, hstart, hdb⟩ := h.start
  have hkept := hk.reopened ht hstart
  obtain ⟨e, hnew, hrestore, hformat⟩ := start_steps hstart
  obtain ⟨htables, hpipe, hl, hd, hf, -⟩ := SettleEngine.new_fields hnew
  obtain ⟨-, htables', -⟩ := restoreEngine_restored hk.stored hk.final hl hd hf hrestore
  rw [hm] at hkept
  refine ⟨⟨h.opened, ?_, ?_⟩, ?_, ?_⟩
  · rw [hdb]
    exact stampOk_of_formatCheck hformat
  · rw [hdb]
    exact hkept
  · rw [hdb]
    exact htables'.trans htables
  · rw [hdb]

/-- The engine of an open on an empty store has it. -/
theorem OpenedOn.kept_empty {schema : Schema} {margin : UInt64} {x : World (SettleEngine R V)}
    (h : OpenedOn schema margin x) (hempty : x.store = {}) :
    ∃ e₀ : SettleEngine R V, e₀.rawTables = SettleEngine.newRawTables schema ∧
      e₀.rawRetentionBlocks = margin ∧ Kept e₀ x.store fun _ _ => [] := by
  obtain ⟨config, db, hstart, -⟩ := h.start
  obtain ⟨e, hnew, -, -⟩ := start_steps hstart
  obtain ⟨htables, hpipe, hl, hd, hf, -⟩ := SettleEngine.new_fields hnew
  have hbuilt := SettleEngine.built_of_schema htables hpipe
  refine ⟨{ e with rawRetentionBlocks := margin }, htables, rfl, ⟨hbuilt.named, hbuilt.piped⟩,
    ?_, ?_, ?_, ?_, ?_⟩
  · intro d hdur
    have hdur : e.durableBlock = some d := hdur
    rw [hd] at hdur
    cases hdur
  · intro hdur
    have hdur : e.durableBlock.isSome = true := hdur
    rw [hd] at hdur
    cases hdur
  · intro key hkey
    have hnone : markMeta { e with rawRetentionBlocks := margin } key = none := by
      unfold markMeta
      dsimp only
      rw [hl, hd, hf]
      split
      · rfl
      · split <;> rfl
    rw [hempty, hnone]
    exact ExtTreeMap.getElem?_empty
  · intro table block d _ hd'
    rw [hempty] at hd'
    have hnone : ({} : Store).raw[(table, block)]? = none := ExtTreeMap.getElem?_empty
    rw [hnone] at hd'
    cases hd'
  · intro table block _ hne
    exact absurd rfl hne

/-- **Raw rows survive every crash:** along the runs of a database with one schema and one margin,
the store after any number of write sets has exactly the rows of the accepted blocks that were not
rolled back, as far as the margin below the durable block. -/
theorem raw_rows_survive {schema : Schema} {margin : UInt64} {x₀ x : World (SettleEngine R V)}
    {past : List RowImage} {image : RowImage} (h : Lives schema margin x₀ x past image) :
    RawRetention x₀ x past image := by
  have hall : RawRetention x₀ x past image ∧
      x₀.db.engine.rawTables = SettleEngine.newRawTables schema ∧
      x₀.db.engine.rawRetentionBlocks = margin := by
    induction h with
    | first opened empty run =>
      obtain ⟨e₀, ht, hm, hk⟩ := opened.kept_empty empty
      obtain ⟨hs, ht', hm'⟩ := opened.start_of_kept hk ht hm
      exact ⟨raw_rows_retained hs run, ht', hm'⟩
    | again _ k crashed opened store run ih =>
      obtain ⟨hret, ht, hm⟩ := ih
      obtain ⟨e₀, ht₀, hm₀, hk⟩ := hret.reopens k _ crashed
      obtain ⟨hs, ht', hm'⟩ := opened.start_of_kept (hk.of_content store) (ht₀.trans ht)
        (hm₀.trans hm)
      exact ⟨raw_rows_retained hs run, ht', hm'⟩
  exact hall.1

omit [SerdeJson] in
/-- The buffer of a start continues the stored sequence. -/
theorem nextSequence_of_metaU64 {s : Store} {next : Option Nat}
    (h : metaU64 s metaNextSequence = .ok next) :
    (match next with
      | some next => ({ nextSequence := next } : ChangeBuffer)
      | none => {}).nextSequence = s.nextSequence := by
  unfold metaU64 at h
  unfold Store.nextSequence
  split at h
  · next hm =>
    cases h
    rw [hm]
  · next hm =>
    cases h
    rw [hm]
  · cases h

/-- An instance right after its open, on a store without a journal. -/
theorem opened_of_start {config : Config} {schema : Schema} {s : Store}
    {db : Db (SettleEngine R V)} (h : Db.start config schema s = .ok db) (hj : s.journal = ∅)
    (hstored : ∀ d, s.metas[metaNextSequence]? = some d → ∃ n, d = .number (n + 1))
    (e : SettleEngine R V) : World.Opened { db := { db with engine := e }, store := s } := by
  unfold Db.start at h
  simp only [bind, Except.bind] at h
  split at h
  · cases h
  · split at h
    · cases h
    · split at h
      · cases h
      · split at h
        · cases h
        · next next hnext =>
          cases h
          refine ⟨rfl, rfl, rfl, Nat.le_max_right _ _, ?_, hstored, fun _ => hj, rfl⟩
          exact nextSequence_of_metaU64 hnext

end Opening

/-! ### A database of trades -/

/-- The trades database, opened on an empty store. -/
def tradesStart : Except Error (Db (SettleEngine Empty Empty)) :=
  letI := tablesJson
  Db.start { tradesConfig "UInt64" 0 with appliedSequence := none } (tradesSchema .uint64) {}

/-- The trades database with a margin of one block, right after its open. -/
def tradesLife : World (SettleEngine Empty Empty) where
  db := match tradesStart with
    | .ok db => { db with engine := { db.engine with rawRetentionBlocks := 1 } }
    | .error _ => tradesDb false
  store := {}

/-- One trade in block 1, and block 1 is final. -/
def tradeCall : Call := .ingest none none (tradeIn 1 5) [] ⟨1, "a"⟩

theorem raw_rows_survive_one_trade :
    letI := tablesJson
    ∃ image, Lives (tradesSchema .uint64) 1 tradesLife (tradesLife.call tradeCall)
      [fun _ _ => []] image ∧
      RawRetention tradesLife (tradesLife.call tradeCall) [fun _ _ => []] image := by
  let _ := tablesJson
  have hsome : (tradesLife.accepts (fun _ _ => []) tradeCall).isSome = true := by decide +kernel
  have hstart : (match tradesStart with
    | .ok _ => true
    | .error _ => false) = true := by decide +kernel
  obtain ⟨image, himage⟩ := Option.isSome_iff_exists.mp hsome
  have hopened : OpenedOn (tradesSchema .uint64) 1 tradesLife := by
    unfold tradesLife
    split at hstart
    · next db hdb =>
      refine ⟨opened_of_start hdb rfl ?_ _, _, db, hdb, rfl⟩
      intro d hd
      have hnone : ({} : Store).metas[metaNextSequence]? = none := ExtTreeMap.getElem?_empty
      rw [hnone] at hd
      cases hd
    · cases hstart
  have hlives : Lives (tradesSchema .uint64) 1 tradesLife (tradesLife.call tradeCall)
      [fun _ _ => []] image := .first hopened rfl (.accepted tradeCall .start himage)
  exact ⟨image, hlives, raw_rows_survive hlives⟩

end Settle
