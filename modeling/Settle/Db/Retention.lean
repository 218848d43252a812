import Settle.Db.History

/-!
# Which raw rows are kept

The rows that the calls of a run put in, as they would be had nothing been purged (`RowImage`): an
accepted ingest adds its rows and a rollback takes those above its target out. A store *retains*
an image when each of its rows is one of the image, and each row of the image above the durable
block less the margin is there (`Retains`).

**Along every run, the store after any number of write sets retains the image after as many
accepted calls** (`raw_rows_retained`). The rows, the rollback and the purge of a call are in one
write set with the durable block that the purge goes by, so a crash between two commits loses no
row that a replay reads.
-/

namespace Settle

open Std

variable {R V : Type} [ReducerNode R] [ViewNode V]

/-! ## Images -/

/-- The rows of the accepted blocks by table and block, none for a block without rows. -/
abbrev RowImage := String → BlockNumber → List Row

namespace RowImage

/-- The blocks above the target of a rollback are gone. -/
def rollback (image : RowImage) : Option BlockNumber → RowImage
  | none => image
  | some p => fun table block => if p < block then [] else image table block

/-- The rows of an ingest. -/
def ingest (image rows : RowImage) : RowImage := fun table block =>
  if (rows table block).isEmpty then image table block else rows table block

theorem rollback_some (image : RowImage) (p : BlockNumber) (table : String) (block : BlockNumber) :
    image.rollback (some p) table block = if p < block then [] else image table block := rfl

theorem ingest_apply (image rows : RowImage) (table : String) (block : BlockNumber) :
    image.ingest rows table block
      = if (rows table block).isEmpty then image table block else rows table block := rfl

end RowImage

/-- The rows `raw` of a store against an image: the tables are those with `tables`, the durable
block is `durable`. -/
structure Retains (tables : String → Bool) (margin : Nat) (durable : Option Nat)
    (raw : BTreeMap (String × BlockNumber) Datum) (image : RowImage) : Prop where
  /-- no row but those of accepted blocks, as they were ingested -/
  accepted : ∀ (table : String) (block : BlockNumber) d, tables table → raw[(table, block)]? = some d →
    d = .rows (image table block) ∧ image table block ≠ []
  /-- every row of a block above the durable block less the margin -/
  present : ∀ (table : String) (block : BlockNumber), tables table → image table block ≠ [] →
    (∀ d, durable = some d → d < block.toNat + margin) →
    raw[(table, block)]? = some (.rows (image table block))

namespace Retains

variable {tables : String → Bool} {margin : Nat} {durable : Option Nat}
  {raw : BTreeMap (String × BlockNumber) Datum} {image : RowImage}

/-- A rollback that takes the rows above `p` out. -/
theorem rollback (h : Retains tables margin durable raw image) {p : BlockNumber}
    {raw' : BTreeMap (String × BlockNumber) Datum}
    (hraw : ∀ (table : String) (block : BlockNumber), tables table →
      raw'[(table, block)]? = if p < block then none else raw[(table, block)]?) :
    Retains tables margin durable raw' (image.rollback (some p)) where
  accepted table block d ht hd := by
    rw [hraw table block ht] at hd
    rw [RowImage.rollback_some]
    split at hd
    · cases hd
    · next hle =>
      rw [if_neg hle]
      exact h.accepted table block d ht hd
  present table block ht hne habove := by
    rw [RowImage.rollback_some] at hne ⊢
    rw [hraw table block ht]
    split
    · next hlt =>
      rw [if_pos hlt] at hne
      exact absurd rfl hne
    · next hle =>
      rw [if_neg hle] at hne
      exact h.present table block ht hne habove

/-- An ingest that puts its rows in. -/
theorem ingest (h : Retains tables margin durable raw image) {rows : RowImage}
    {raw' : BTreeMap (String × BlockNumber) Datum}
    (hraw : ∀ (table : String) (block : BlockNumber), tables table → raw'[(table, block)]?
      = if (rows table block).isEmpty then raw[(table, block)]?
        else some (.rows (rows table block))) :
    Retains tables margin durable raw' (image.ingest rows) where
  accepted table block d ht hd := by
    rw [hraw table block ht] at hd
    rw [RowImage.ingest_apply]
    split at hd
    · next hempty =>
      rw [if_pos hempty]
      exact h.accepted table block d ht hd
    · next hne =>
      cases hd
      rw [if_neg hne]
      exact ⟨rfl, by simpa using hne⟩
  present table block ht hne habove := by
    rw [RowImage.ingest_apply] at hne ⊢
    rw [hraw table block ht]
    split
    · next hempty =>
      rw [if_pos hempty] at hne
      exact h.present table block ht hne habove
    · rfl

/-- A purge of rows at or below the durable block less the margin, where the durable block does
not go down. -/
theorem purge (h : Retains tables margin durable raw image) {durable' : Option Nat}
    (hmono : ∀ d, durable = some d → ∃ d', durable' = some d' ∧ d ≤ d')
    {raw' : BTreeMap (String × BlockNumber) Datum}
    (hraw : ∀ (table : String) (block : BlockNumber), raw'[(table, block)]? = raw[(table, block)]? ∨
      raw'[(table, block)]? = none ∧ ∃ d', durable' = some d' ∧ block.toNat + margin ≤ d') :
    Retains tables margin durable' raw' image where
  accepted table block d ht hd := by
    rcases hraw table block with hsame | ⟨hnone, -⟩
    · exact h.accepted table block d ht (hsame.symm.trans hd)
    · rw [hnone] at hd
      cases hd
  present table block ht hne habove := by
    rcases hraw table block with hsame | ⟨-, d', hd', hle⟩
    · rw [hsame]
      refine h.present table block ht hne ?_
      intro d hd
      obtain ⟨d', hd', hdd'⟩ := hmono d hd
      exact Nat.lt_of_le_of_lt hdd' (habove d' hd')
    · have := habove d' hd'
      omega

end Retains

/-! ## The writes of a call -/

namespace SettleEngine

/-- What `SettleEngine::new` makes of the tables: each under its own name, and each in the
pipeline. -/
structure Built (e : SettleEngine R V) : Prop where
  named : ∀ (table : String) (raw : RawTableEngine), e.rawTables[table]? = some raw → raw.name = table
  piped : ∀ table : String, e.rawTables.contains table → .rawTable table ∈ e.pipeline

omit [ReducerNode R] [ViewNode V] in
theorem Built.stored {e : SettleEngine R V} (h : e.Built) {table : String}
    (ht : e.rawTables.contains table) : table ∈ e.pipeline.filterMap e.storedTable := by
  rw [List.mem_filterMap]
  refine ⟨.rawTable table, h.piped table ht, ?_⟩
  rw [ExtTreeMap.contains_eq_isSome_getElem?] at ht
  obtain ⟨raw, hraw⟩ := Option.isSome_iff_exists.mp ht
  rw [storedTable, hraw, Option.map_some, h.named table raw hraw]

end SettleEngine

omit [ReducerNode R] [ViewNode V] in
/-- The commit of the rows of an ingest. -/
theorem Store.raw_commit_putRows {e : SettleEngine R V} (hb : e.Built) (rows : RowImage)
    {blocks : List (String × BlockNumber × List Row)}
    (hblocks : ∀ t ∈ blocks, e.rawTables.contains t.1 ∧ t.2.2 ≠ [] ∧ rows t.1 t.2.1 = t.2.2)
    (s : Store) (table : String) (block : BlockNumber) :
    (s.commit (blocks.flatMap e.putRows)).raw[(table, block)]?
      = if ∃ t ∈ blocks, t.1 = table ∧ t.2.1 = block then some (.rows (rows table block))
        else s.raw[(table, block)]? := by
  induction blocks generalizing s with
  | nil => simp
  | cons t blocks ih =>
    obtain ⟨table', block', rows'⟩ := t
    obtain ⟨ht, hne, hrows⟩ := hblocks (table', block', rows') (by simp)
    rw [ExtTreeMap.contains_eq_isSome_getElem?] at ht
    obtain ⟨raw, hraw⟩ := Option.isSome_iff_exists.mp ht
    have hput : e.putRows (table', block', rows')
        = [.putRawRows table' block' (.rows rows')] := by
      rw [SettleEngine.putRows, hraw]
      dsimp only
      rw [if_neg (by simpa using hne), hb.named table' raw hraw]
    rw [List.flatMap_cons, hput, List.singleton_append, Store.commit_cons,
      ih fun t ht => hblocks t (List.mem_cons_of_mem _ ht)]
    by_cases hin : ∃ t ∈ blocks, t.1 = table ∧ t.2.1 = block
    · obtain ⟨t, hmem, heq⟩ := hin
      rw [if_pos ⟨t, hmem, heq⟩, if_pos ⟨t, List.mem_cons_of_mem _ hmem, heq⟩]
    · rw [if_neg hin]
      show (s.raw.insert (table', block') (.rows rows'))[(table, block)]? = _
      rw [ExtTreeMap.getElem?_insert]
      by_cases hkey : table' = table ∧ block' = block
      · obtain ⟨rfl, rfl⟩ := hkey
        rw [if_pos (by simp), if_pos ⟨_, List.mem_cons_self, rfl, rfl⟩, hrows]
      · have hne' : ¬ compare (table', block') (table, block) = .eq := by
          intro heq
          have hpair := LawfulEqCmp.eq_of_compare heq
          exact hkey ⟨congrArg Prod.fst hpair, congrArg Prod.snd hpair⟩
        rw [if_neg hne', if_neg]
        rintro ⟨t, hmem, heq⟩
        rcases List.mem_cons.mp hmem with rfl | hmem
        · exact hkey heq
        · exact hin ⟨t, hmem, heq⟩

/-- The commit of the end of an ingest: rows stay, or are at or below the durable block less the
margin. -/
theorem Store.raw_commit_purge {writes : WriteBatch} {durable : Option BlockNumber} {margin : Nat}
    (hw : ∀ op ∈ writes, op.isNodeState = true ∨
      ∃ table fromBlock toBlock d, op = .deleteRawRows table fromBlock toBlock ∧
        durable = some d ∧ toBlock.toNat + margin = d.toNat)
    (s : Store) (table : String) (block : BlockNumber) :
    (s.commit writes).raw[(table, block)]? = s.raw[(table, block)]? ∨
      (s.commit writes).raw[(table, block)]? = none ∧
        ∃ d, durable = some d ∧ block.toNat + margin ≤ d.toNat := by
  induction writes generalizing s with
  | nil => exact Or.inl rfl
  | cons op writes ih =>
    rw [Store.commit_cons]
    have hrest := ih (fun op' hop' => hw op' (List.mem_cons_of_mem op hop')) (s.apply op)
    rcases hw op (by simp) with hnode | ⟨table', fromBlock, toBlock, d, rfl, hd, hsum⟩
    · have hraw : (s.apply op).raw = s.raw := by
        cases op <;> first | rfl | cases hnode
      rw [hraw] at hrest
      exact hrest
    · rcases hrest with hsame | hgone
      · rw [hsame]
        show (OrdMap.keep s.raw _)[(table, block)]? = _ ∨ (OrdMap.keep s.raw _)[(table, block)]? = _ ∧ _
        rw [OrdMap.getElem?_keep]
        split
        · exact Or.inl rfl
        · next hkey =>
          right
          refine ⟨rfl, d, hd, ?_⟩
          simp only [Bool.not_eq_true', Bool.not_eq_false, Bool.and_eq_true, beq_iff_eq,
            decide_eq_true_eq] at hkey
          have hle := UInt64.le_iff_toNat_le.mp hkey.2.2
          omega
      · exact Or.inr hgone

/-! ## The watermarks in storage -/

/-- The durable block that a store holds. -/
def Store.durable (s : Store) : Option Nat :=
  match s.metas[metaDurableBlock]? with
  | some (.number n) => some n
  | _ => none

/-- The store holds the watermarks of the engine. -/
def Stored (e : SettleEngine R V) (s : Store) : Prop :=
  ∀ key, key = metaLatestBlock ∨ key = metaDurableBlock ∨ key = metaFinalityBlock →
    s.metas[key]? = blockMeta (markMeta e key)

omit [ReducerNode R] [ViewNode V] in
theorem Stored.durable {e : SettleEngine R V} {s : Store} (h : Stored e s) :
    s.durable = e.durableBlock.map UInt64.toNat := by
  rw [Store.durable, h metaDurableBlock (Or.inr (Or.inl rfl)), markMeta, if_neg (by decide),
    if_pos rfl]
  cases e.durableBlock <;> rfl

omit [ReducerNode R] [ViewNode V] in
/-- The write set of a call stores the watermarks after it. -/
theorem Stored.commit {e e' : SettleEngine R V} {stamp : List (String × Datum)}
    (hstamp : StampOk stamp) (hadv : e.Advanced e') {w : WriteBatch} {n : Nat}
    (hw : ∀ op ∈ w, ∀ k v, op ≠ .putMeta k v) {s : Store} (hs : Stored e s) :
    Stored e' (s.commit (w ++ metaTail e' stamp ++
      [.putMeta metaNextSequence (.number n)])) := by
  intro key hkey
  have hnext : ∀ s : Store, (s.commit [.putMeta metaNextSequence (.number n)]).metas[key]?
      = s.metas[key]? := by
    intro s
    refine Store.metas_commit_of_ne ?_ s
    intro op hop k v heq
    rw [List.mem_singleton.mp hop] at heq
    cases heq
    rcases hkey with rfl | rfl | rfl <;> decide
  have hbefore : (s.commit w).metas[key]? = s.metas[key]? :=
    Store.metas_commit_of_ne (fun op hop k v heq => absurd heq (hw op hop k v)) s
  rw [Store.commit_append, hnext, Store.commit_append, metaTail_metas e' (s.commit w) hstamp hkey,
    hbefore, hs key hkey]
  cases hmark : markMeta e' key with
  | some b => rfl
  | none =>
    -- a watermark that is not set was not set before
    have hnone : markMeta e key = none := by
      rcases hkey with rfl | rfl | rfl
      · exact hadv.latest hmark
      · cases hd : e.durableBlock with
        | none => exact hd
        | some d =>
          obtain ⟨d', hd', -⟩ := hadv.durable d hd
          have hmark : e'.durableBlock = none := hmark
          rw [hd'] at hmark
          cases hmark
      · cases hf : e.hasFinalized with
        | false =>
          show (if e.hasFinalized then some e.finalizedBlock else none) = none
          rw [hf]
          rfl
        | true =>
          have hmark : (if e'.hasFinalized then some e'.finalizedBlock else none) = none := hmark
          rw [hadv.hasFinalized hf] at hmark
          cases hmark
    rw [hnone]
    rfl

/-! ## One call -/

/-- The purges of a write set are at or below the durable block that it stores, less the margin. -/
def PurgesBelow (margin : Nat) (w : WriteBatch) : Prop :=
  ∀ table fromBlock toBlock, .deleteRawRows table fromBlock toBlock ∈ w →
    ∃ d : BlockNumber, .putMeta metaDurableBlock (.number d.toNat) ∈ w ∧
      toBlock.toNat + margin = d.toNat

/-- What holds between an engine and the store that its write sets make. -/
structure Kept (e : SettleEngine R V) (s : Store) (image : RowImage) : Prop where
  built : e.Built
  levels : e.Levels
  final : e.durableBlock.isSome → e.hasFinalized = true
  stored : Stored e s
  rows : Retains (e.rawTables.contains ·) e.rawRetentionBlocks.toNat s.durable s.raw image

section Call

variable {e e₁ e₂ : SettleEngine R V} {s : Store} {image : RowImage} {w₁ w₂ : WriteBatch}
  {fork : Option BlockNumber}

omit [ReducerNode R] [ViewNode V] in
/-- The rows after the rollback of a call. -/
theorem Kept.rolledTo (h : Kept e s image) (hr : e.RolledTo e₁ w₁ fork) :
    Retains (e.rawTables.contains ·) e.rawRetentionBlocks.toNat s.durable (s.commit w₁).raw
      (image.rollback fork) ∧ ∀ op ∈ w₁, ∃ table p, op = .deleteRawRowsAfter table p := by
  cases fork with
  | none =>
    obtain ⟨rfl, rfl⟩ := hr
    exact ⟨h.rows, by simp⟩
  | some p =>
    obtain ⟨-, -, hdeletes, hops⟩ := hr
    refine ⟨h.rows.rollback ?_, ?_⟩
    · intro table block ht
      rw [hdeletes s table block, if_congr (and_iff_right (h.built.stored ht)) rfl rfl]
    · intro op hop
      obtain ⟨table, rfl⟩ := hops op hop
      exact ⟨table, p, rfl⟩

omit [ReducerNode R] [ViewNode V] in
theorem putRows_mem {e : SettleEngine R V} {blocks : List (String × BlockNumber × List Row)}
    {op : BatchOp Datum} (h : op ∈ blocks.flatMap e.putRows) :
    ∃ table block d, op = .putRawRows table block d := by
  obtain ⟨⟨table, block, rows⟩, -, hop⟩ := List.mem_flatMap.mp h
  rw [SettleEngine.putRows] at hop
  split at hop
  · split at hop
    · cases hop
    · rw [List.mem_singleton.mp hop]
      exact ⟨_, _, _, rfl⟩
  · cases hop

omit [ReducerNode R] [ViewNode V] in
/-- The metadata at the end of a write set leaves the rows. -/
theorem Store.raw_commit_tail (e : SettleEngine R V) (stamp : List (String × Datum)) (n : Nat)
    (s : Store) : (s.commit (metaTail e stamp ++
      [.putMeta metaNextSequence (.number n)])).raw = s.raw := by
  refine Store.raw_commit_of_not ?_ s
  intro op hop
  rcases List.mem_append.mp hop with hop | hop
  · exact metaTail_raw e op hop
  · rw [List.mem_singleton.mp hop]
    rfl

omit [ReducerNode R] [ViewNode V] in
theorem SettleEngine.Built.advanced {e' : SettleEngine R V} (h : e.Built) (ha : e.Advanced e') :
    e'.Built :=
  ⟨by rw [ha.rawTables]; exact h.named, by rw [ha.rawTables, ha.pipeline]; exact h.piped⟩

/-- **An accepted ingest** keeps the rows that its image says. -/
theorem Kept.ingest (h : Kept e s image) {stamp : List (String × Datum)} (hstamp : StampOk stamp)
    {data : Db.InputData} {tables : List (String × BTreeMap BlockNumber (List Row))}
    {nodes : Nodes R V} {chain : List (BlockNumber × String)} {head : BlockNumber} {n m : Nat}
    {db : Db (SettleEngine R V)} (hdb : db.engine = e) {latest : Option BlockNumber}
    (hhead : e.finalizedBlock ≤ head) (hr : e.RolledTo e₁ w₁ fork)
    (htables : db.groupInputRows data latest = .ok tables)
    (hcontains : ∀ t ∈ Db.inputBlocks tables, e₁.rawTables.contains t.1)
    (hclosed : SettleEngine.Closed { e₁ with
      nodes := nodes
      latestBlock := (Db.inputBlocks tables).foldl
        (fun l t => SettleEngine.bumpLatest l t.2.1) e₁.latestBlock } e₂ chain head w₂)
    {w : WriteBatch}
    (hw : w = w₁ ++ (Db.inputBlocks tables).flatMap e₁.putRows ++ w₂ ++ metaTail e₂ stamp ++
      [.putMeta metaNextSequence (.number n)]) :
    Kept { e₂ with hashChanges := ∅, committedCheckpoint := m } (s.commit w)
      ((image.rollback fork).ingest
        fun table block => data.rowsAt (Engine.tableRegistry e) table block) ∧
    PurgesBelow e.rawRetentionBlocks.toNat w := by
  have hadv := SettleEngine.advanced_ingest h.levels hhead hr hclosed
  obtain ⟨htab, hpipe, hret, -, -, -, -⟩ := hr.fields
  obtain ⟨hrows₁, hops₁⟩ := h.rolledTo hr
  have hbuilt₁ : e₁.Built := ⟨by rw [htab]; exact h.built.named, by
    rw [htab, hpipe]
    exact h.built.piped⟩
  -- the rows of the input
  have hrows₂ : Retains (e.rawTables.contains ·) e.rawRetentionBlocks.toNat s.durable
      ((s.commit w₁).commit ((Db.inputBlocks tables).flatMap e₁.putRows)).raw
      ((image.rollback fork).ingest
        fun table block => data.rowsAt (Engine.tableRegistry e) table block) := by
    refine hrows₁.ingest ?_
    intro table block ht
    have hblocks : ∀ t ∈ Db.inputBlocks tables, e₁.rawTables.contains t.1 ∧ t.2.2 ≠ [] ∧
        data.rowsAt (Engine.tableRegistry e) t.1 t.2.1 = t.2.2 := by
      intro t hmem
      have hat := (Db.groupInputRows_rows htables t.1 t.2.1 t.2.2).mp hmem
      rw [hdb] at hat
      exact ⟨hcontains t hmem, hat⟩
    rw [Store.raw_commit_putRows hbuilt₁
      (fun table block => data.rowsAt (Engine.tableRegistry e) table block) hblocks]
    by_cases hempty : (data.rowsAt (Engine.tableRegistry e) table block).isEmpty
    · rw [if_pos hempty, if_neg]
      rintro ⟨t, hmem, rfl, rfl⟩
      obtain ⟨-, hne, hrow⟩ := hblocks t hmem
      rw [hrow] at hempty
      exact hne (by simpa using hempty)
    · rw [if_neg hempty, if_pos]
      refine ⟨(table, block, data.rowsAt (Engine.tableRegistry e) table block), ?_, rfl, rfl⟩
      refine (Db.groupInputRows_rows htables table block _).mpr ⟨by simpa using hempty, ?_⟩
      rw [hdb]
  have hstored : Stored e₂ (s.commit w) := by
    rw [hw]
    refine Stored.commit hstamp hadv ?_ h.stored
    intro op hop k v heq
    subst heq
    simp only [List.mem_append] at hop
    rcases hop with (hop | hop) | hop
    · obtain ⟨_, _, hop⟩ := hops₁ _ hop
      cases hop
    · obtain ⟨_, _, _, hop⟩ := putRows_mem hop
      cases hop
    · rcases hclosed.writes _ hop with hnode | ⟨_, _, _, _, hop, -⟩
      · cases hnode
      · cases hop
  have hraw : (s.commit w).raw
      = (((s.commit w₁).commit ((Db.inputBlocks tables).flatMap e₁.putRows)).commit w₂).raw := by
    rw [hw, List.append_assoc, Store.commit_append, Store.raw_commit_tail, Store.commit_append,
      Store.commit_append]
  have hret' : (e₁.rawRetentionBlocks).toNat = e.rawRetentionBlocks.toNat := by rw [hret]
  have hbuilt₂ := h.built.advanced hadv
  refine ⟨⟨⟨hbuilt₂.named, hbuilt₂.piped⟩, hadv.levels, fun _ => hclosed.hasFinalized, hstored, ?_⟩,
    ?_⟩
  · show Retains (e₂.rawTables.contains ·) e₂.rawRetentionBlocks.toNat _ _ _
    rw [hadv.rawTables, hadv.retention, hraw, hstored.durable]
    refine hrows₂.purge ?_ ?_
    · intro d hd
      rw [h.stored.durable, Option.map_eq_some_iff] at hd
      obtain ⟨b, hb, rfl⟩ := hd
      obtain ⟨b', hb', hle⟩ := hadv.durable b hb
      exact ⟨b'.toNat, by rw [hb']; rfl, UInt64.le_iff_toNat_le.mp hle⟩
    · intro table block
      rcases Store.raw_commit_purge hclosed.writes
        ((s.commit w₁).commit ((Db.inputBlocks tables).flatMap e₁.putRows)) table block with
        hsame | ⟨hnone, d, hd, hle⟩
      · exact Or.inl hsame
      · refine Or.inr ⟨hnone, d.toNat, by rw [hd]; rfl, ?_⟩
        rw [← hret']
        exact hle
  · intro table fromBlock toBlock hop
    rw [hw] at hop ⊢
    simp only [List.mem_append, List.mem_singleton] at hop
    rcases hop with (((hop | hop) | hop) | hop) | hop
    · obtain ⟨_, _, hop⟩ := hops₁ _ hop
      cases hop
    · obtain ⟨_, _, _, hop⟩ := putRows_mem hop
      cases hop
    · rcases hclosed.writes _ hop with hnode | ⟨_, _, _, d, hop, hd, hsum⟩
      · cases hnode
      · cases hop
        refine ⟨d, ?_, hret'.symm ▸ hsum⟩
        have hmem : .putMeta metaDurableBlock (.number d.toNat) ∈ metaTail e₂ stamp := by
          rw [metaTail, hd]
          simp
        simp [hmem]
    · exact absurd (metaTail_raw e₂ _ hop) (by simp [BatchOp.isRaw])
    · cases hop

omit [ReducerNode R] [ViewNode V] in
/-- **An accepted fork call** keeps the rows up to its fork point. -/
theorem Kept.handleFork (h : Kept e s image) {stamp : List (String × Datum)} (hstamp : StampOk stamp)
    {chain : List (BlockNumber × String)} {p : BlockNumber} {n m : Nat}
    (hr : e.RolledTo e₁ w₁ (some p)) {w : WriteBatch}
    (hw : w = w₁ ++ metaTail (e₁.setRollbackChain chain) stamp ++
      [.putMeta metaNextSequence (.number n)]) :
    Kept { e₁.setRollbackChain chain with hashChanges := ∅, committedCheckpoint := m } (s.commit w)
      (image.rollback (some p)) ∧
    PurgesBelow e.rawRetentionBlocks.toNat w := by
  have hadv : e.Advanced (e₁.setRollbackChain chain) := SettleEngine.advanced_fork h.levels hr
  obtain ⟨hrows₁, hops₁⟩ := h.rolledTo hr
  have hstored : Stored (e₁.setRollbackChain chain) (s.commit w) := by
    rw [hw]
    refine Stored.commit hstamp hadv ?_ h.stored
    intro op hop k v heq
    subst heq
    obtain ⟨_, _, hop⟩ := hops₁ _ hop
    cases hop
  have hraw : (s.commit w).raw = (s.commit w₁).raw := by
    rw [hw, List.append_assoc, Store.commit_append, Store.raw_commit_tail]
  have hbuilt := h.built.advanced hadv
  have hfinal : (e₁.setRollbackChain chain).durableBlock.isSome →
      (e₁.setRollbackChain chain).hasFinalized = true := by
    obtain ⟨-, -, -, hdur, -, -, -⟩ := hr.fields
    obtain ⟨hashes, changes, hset⟩ := e₁.setRollbackChain_marks chain
    intro hd
    refine hadv.hasFinalized (h.final ?_)
    rw [hset] at hd
    rw [← hdur]
    exact hd
  refine ⟨⟨⟨hbuilt.named, hbuilt.piped⟩, hadv.levels, hfinal, hstored, ?_⟩, ?_⟩
  · show Retains ((e₁.setRollbackChain chain).rawTables.contains ·)
      (e₁.setRollbackChain chain).rawRetentionBlocks.toNat _ _ _
    rw [hadv.rawTables, hadv.retention, hraw, hstored.durable]
    refine hrows₁.purge ?_ fun _ _ => Or.inl rfl
    intro d hd
    rw [h.stored.durable, Option.map_eq_some_iff] at hd
    obtain ⟨b, hb, rfl⟩ := hd
    obtain ⟨b', hb', hle⟩ := hadv.durable b hb
    exact ⟨b'.toNat, by rw [hb']; rfl, UInt64.le_iff_toNat_le.mp hle⟩
  · intro table fromBlock toBlock hop
    rw [hw] at hop
    simp only [List.mem_append, List.mem_singleton] at hop
    rcases hop with (hop | hop) | hop
    · obtain ⟨_, _, hop⟩ := hops₁ _ hop
      cases hop
    · exact absurd (metaTail_raw _ _ hop) (by simp [BatchOp.isRaw])
    · cases hop

end Call

/-! ## Runs -/

/-- The image after a call; none for an ack, and for a call that is refused. -/
def World.accepts (x : World (SettleEngine R V)) (image : RowImage) : Call → Option RowImage
  | .ingest commitFault syncFault data chain head =>
    match (x.db.ingest x.store commitFault syncFault data chain head).2.2,
        x.db.detectFork chain head with
    | .ok _, .ok fork => some ((image.rollback fork).ingest fun table block =>
        data.rowsAt (Engine.tableRegistry x.db.engine) table block)
    | _, _ => none
  | .handleFork commitFault syncFault chain =>
    match (x.db.handleFork x.store commitFault syncFault chain).2.2 with
    | .ok (cursor, _) => some (image.rollback (some cursor.number))
    | .error _ => none
  | .ack .. => none

/-- A run with its images: those before each write set of the ledger, oldest first, and the one
after the last. -/
inductive RowRun (x₀ : World (SettleEngine R V)) (image₀ : RowImage) :
    World (SettleEngine R V) → List RowImage → RowImage → Prop
  | start : RowRun x₀ image₀ x₀ [] image₀
  | refused {x : World (SettleEngine R V)} {past : List RowImage} {image : RowImage} (c : Call)
      (run : RowRun x₀ image₀ x past image) (refused : x.accepts image c = none) :
      RowRun x₀ image₀ (x.call c) past image
  | accepted {x : World (SettleEngine R V)} {past : List RowImage} {image image' : RowImage}
      (c : Call) (run : RowRun x₀ image₀ x past image)
      (accepted : x.accepts image c = some image') :
      RowRun x₀ image₀ (x.call c) (past ++ [image]) image'

theorem RowRun.steps {x₀ x : World (SettleEngine R V)} {image₀ image : RowImage}
    {past : List RowImage} (h : RowRun x₀ image₀ x past image) :
    Relation.ReflTransGen DbStep x₀ x := by
  induction h with
  | start => exact .refl
  | refused c _ _ ih => exact ih.tail (World.call_step _ c)
  | accepted c _ _ ih => exact ih.tail (World.call_step _ c)

/-- An engine with the tables and the margin of `e₀` had the store, with the image. -/
def KeptLike (e₀ : SettleEngine R V) (s : Store) (image : RowImage) : Prop :=
  ∃ e : SettleEngine R V, e.rawTables = e₀.rawTables ∧
    e.rawRetentionBlocks = e₀.rawRetentionBlocks ∧ Kept e s image

omit [ReducerNode R] [ViewNode V] in
theorem KeptLike.rows {e₀ : SettleEngine R V} {s : Store} {image : RowImage}
    (h : KeptLike e₀ s image) :
    Retains (e₀.rawTables.contains ·) e₀.rawRetentionBlocks.toNat s.durable s.raw image := by
  obtain ⟨e, htables, hmargin, hk⟩ := h
  rw [← htables, ← hmargin]
  exact hk.rows

/-- What holds along a run: the store after any number of write sets retains the image at that
point, and a healthy engine is the one of the last. -/
structure RetentionInv (x₀ : World (SettleEngine R V)) (x : World (SettleEngine R V))
    (past : List RowImage) (image : RowImage) : Prop where
  length : past.length = x.ledger.calls.length
  rows : ∀ k image', (past ++ [image])[k]? = some image' →
    KeptLike x₀.db.engine (x₀.store.commit (x.ledger.calls.take k).flatten) image'
  purges : ∀ w ∈ x.ledger.calls, PurgesBelow x₀.db.engine.rawRetentionBlocks.toNat w
  stamp : StampOk x.db.stamp
  tables : x.db.poisoned = none → x.db.engine.rawTables = x₀.db.engine.rawTables
  margin : x.db.poisoned = none →
    x.db.engine.rawRetentionBlocks = x₀.db.engine.rawRetentionBlocks
  kept : x.db.poisoned = none → Kept x.db.engine (x₀.store.commit x.ledger.calls.flatten) image

namespace RetentionInv

variable {x₀ x x' : World (SettleEngine R V)} {past : List RowImage} {image image' : RowImage}

omit [ReducerNode R] [ViewNode V] in
theorem stampOk_of (h : StampOk x.db.stamp) (hs : x'.db.stamp = x.db.stamp ∨ x'.db.stamp = []) :
    StampOk x'.db.stamp := by
  rcases hs with hs | hs
  · rw [hs]
    exact h
  · rw [hs]
    exact fun entry hmem => absurd hmem (by simp)

omit [ReducerNode R] [ViewNode V] in
theorem refused (hi : RetentionInv x₀ x past image) (hr : x.Refused x') :
    RetentionInv x₀ x' past image := by
  refine ⟨?_, ?_, ?_, stampOk_of hi.stamp hr.stamp, ?_, ?_, ?_⟩
  · rw [hr.ledger]
    exact hi.length
  · rw [hr.ledger]
    exact hi.rows
  · rw [hr.ledger]
    exact hi.purges
  · intro hp
    obtain ⟨hp₀, nodes, n, he⟩ := hr.engine hp
    rw [he]
    exact hi.tables hp₀
  · intro hp
    obtain ⟨hp₀, nodes, n, he⟩ := hr.engine hp
    rw [he]
    exact hi.margin hp₀
  · intro hp
    obtain ⟨hp₀, nodes, n, he⟩ := hr.engine hp
    have hk := hi.kept hp₀
    rw [he, hr.ledger]
    exact ⟨⟨hk.built.named, hk.built.piped⟩, hk.levels, hk.final, hk.stored, hk.rows⟩

omit [ReducerNode R] [ViewNode V] in
theorem accepted (hi : RetentionInv x₀ x past image) {db₁ : Db (SettleEngine R V)} {w : WriteBatch}
    (ha : x.Accepted x' db₁ w) (hstamp : db₁.stamp = x.db.stamp)
    (htables : x'.db.engine.rawTables = x.db.engine.rawTables)
    (hmargin : x'.db.engine.rawRetentionBlocks = x.db.engine.rawRetentionBlocks)
    (hkept : Kept x'.db.engine ((x₀.store.commit x.ledger.calls.flatten).commit w) image')
    (hpurge : PurgesBelow x.db.engine.rawRetentionBlocks.toNat w) :
    RetentionInv x₀ x' (past ++ [image]) image' := by
  have hstore : x₀.store.commit x'.ledger.calls.flatten
      = (x₀.store.commit x.ledger.calls.flatten).commit w := by
    rw [ha.ledger, List.flatten_append, Store.commit_append, List.flatten_singleton]
  have htables' := htables.trans (hi.tables ha.poisoned)
  have hmargin' := hmargin.trans (hi.margin ha.poisoned)
  refine ⟨?_, ?_, ?_, ?_, fun _ => htables', fun _ => hmargin', ?_⟩
  · rw [List.length_append, ha.ledger, List.length_append, hi.length]
    rfl
  · intro k image'' hk
    by_cases hlt : k < (past ++ [image]).length
    · rw [List.getElem?_append_left hlt] at hk
      have hle : k ≤ x.ledger.calls.length := by
        rw [← hi.length]
        simpa [Nat.lt_succ_iff] using hlt
      rw [ha.ledger, List.take_append_of_le_length hle]
      exact hi.rows k image'' hk
    · have hlen : (past ++ [image]).length = x'.ledger.calls.length := by
        rw [ha.ledger, List.length_append, List.length_append, hi.length]
        rfl
      rw [List.getElem?_append_right (Nat.not_lt.mp hlt)] at hk
      obtain ⟨hk0, rfl⟩ : k - (past ++ [image]).length = 0 ∧ image' = image'' := by
        cases hz : k - (past ++ [image]).length with
        | zero =>
          rw [hz] at hk
          exact ⟨rfl, Option.some.inj hk⟩
        | succ j =>
          rw [hz] at hk
          cases hk
      rw [List.take_of_length_le (by omega), hstore]
      exact ⟨x'.db.engine, htables', hmargin', hkept⟩
  · intro w' hw'
    rw [ha.ledger, List.mem_append, List.mem_singleton] at hw'
    rcases hw' with hw' | rfl
    · exact hi.purges w' hw'
    · rw [← hi.margin ha.poisoned]
      exact hpurge
  · refine stampOk_of (x := x) hi.stamp ?_
    rw [← hstamp]
    exact ha.stamp
  · intro _
    rw [hstore]
    exact hkept

/-- **One call**, with the image that it leaves. -/
theorem call (hi : RetentionInv x₀ x past image) (c : Call) :
    (x.accepts image c = none ∧ RetentionInv x₀ (x.call c) past image) ∨
    ∃ image', x.accepts image c = some image' ∧
      RetentionInv x₀ (x.call c) (past ++ [image]) image' := by
  cases c with
  | ack faults syncFault sequence =>
    exact Or.inl ⟨rfl, hi.refused (x.ack_refused faults syncFault sequence)⟩
  | ingest commitFault syncFault data chain head =>
    rcases x.ingest_cases (fun hp => (hi.kept hp).levels) commitFault syncFault data chain head with
      ⟨⟨err, herr⟩, hr⟩ | ⟨db₁, w, batch, hprep, hok, ha⟩
    · left
      refine ⟨?_, hi.refused hr⟩
      rw [World.accepts, herr]
    · right
      have hk := hi.kept ha.poisoned
      obtain ⟨fork, tables, e₁, w₁, nodes, e₂, w₂, n, hhead, hfork, htables, hrolled, hcontains,
        hclosed, he, hst, hw⟩ := Db.prepareIngest_steps hk.levels hprep
      obtain ⟨m, hm⟩ := ha.engine
      rw [he] at hm
      have hadv := SettleEngine.advanced_ingest hk.levels hhead hrolled hclosed
      obtain ⟨hkept, hpurge⟩ := hk.ingest (m := m) hi.stamp rfl hhead hrolled htables hcontains
        hclosed hw
      refine ⟨(image.rollback fork).ingest fun table block =>
        data.rowsAt (Engine.tableRegistry x.db.engine) table block, ?_, ?_⟩
      · rw [World.accepts, hok, hfork]
      · refine hi.accepted ha hst ?_ ?_ ?_ hpurge
        · show (x.ingest _ _ _ _ _).db.engine.rawTables = _
          rw [hm]
          exact hadv.rawTables
        · show (x.ingest _ _ _ _ _).db.engine.rawRetentionBlocks = _
          rw [hm]
          exact hadv.retention
        · show Kept (x.ingest _ _ _ _ _).db.engine _ _
          rw [hm]
          exact hkept
  | handleFork commitFault syncFault chain =>
    rcases x.handleFork_cases commitFault syncFault chain with
      ⟨⟨err, herr⟩, hr⟩ | ⟨db₁, cursor, w, batch, hprep, hok, ha⟩
    · left
      refine ⟨?_, hi.refused hr⟩
      rw [World.accepts, herr]
    · right
      have hk := hi.kept ha.poisoned
      obtain ⟨e₁, w₁, n, -, hrolled, he, hst, hw⟩ := Db.prepareFork_steps hprep
      obtain ⟨m, hm⟩ := ha.engine
      rw [he] at hm
      have hadv : x.db.engine.Advanced (e₁.setRollbackChain (Db.sortDesc (Db.cursors chain))) :=
        SettleEngine.advanced_fork hk.levels hrolled
      obtain ⟨hkept, hpurge⟩ := hk.handleFork (m := m) hi.stamp hrolled hw
      refine ⟨image.rollback (some cursor.number), ?_, ?_⟩
      · rw [World.accepts, hok]
      · refine hi.accepted ha hst ?_ ?_ ?_ hpurge
        · show (x.handleFork _ _ _).db.engine.rawTables = _
          rw [hm]
          exact hadv.rawTables
        · show (x.handleFork _ _ _).db.engine.rawRetentionBlocks = _
          rw [hm]
          exact hadv.retention
        · show Kept (x.handleFork _ _ _).db.engine _ _
          rw [hm]
          exact hkept

end RetentionInv

/-- An opened instance whose engine is the one of its store, and whose store retains an image. -/
structure RetentionStart (x₀ : World (SettleEngine R V)) (image₀ : RowImage) : Prop where
  opened : x₀.Opened
  stamp : StampOk x₀.db.stamp
  kept : Kept x₀.db.engine x₀.store image₀

theorem RetentionInv.of_run {x₀ x : World (SettleEngine R V)} {image₀ image : RowImage}
    {past : List RowImage} (hs : RetentionStart x₀ image₀) (hr : RowRun x₀ image₀ x past image) :
    RetentionInv x₀ x past image := by
  induction hr with
  | start =>
    have hcalls : x₀.ledger.calls = [] := by rw [hs.opened.ledger]; rfl
    refine ⟨?_, ?_, ?_, hs.stamp, fun _ => rfl, fun _ => rfl, ?_⟩
    · rw [hcalls]
      rfl
    · intro k image' hk
      rw [hcalls, List.take_nil]
      cases k with
      | zero =>
        obtain rfl : image₀ = image' := Option.some.inj hk
        exact ⟨x₀.db.engine, rfl, rfl, hs.kept⟩
      | succ k => cases hk
    · rw [hcalls]
      simp
    · intro _
      rw [hcalls]
      exact hs.kept
  | refused c _ hnone ih =>
    rcases ih.call c with ⟨-, hi⟩ | ⟨image', hsome, -⟩
    · exact hi
    · rw [hnone] at hsome
      cases hsome
  | accepted c _ hsome ih =>
    rcases ih.call c with ⟨hnone, -⟩ | ⟨image', hsome', hi⟩
    · rw [hnone] at hsome
      cases hsome
    · rw [hsome] at hsome'
      cases hsome'
      exact hi

/-- **What is kept of the raw rows** of the tables, in a run of `x₀` that is at `x`. -/
structure RawRetention (x₀ x : World (SettleEngine R V)) (past : List RowImage)
    (image : RowImage) : Prop where
  /-- with every queued write set applied -/
  settled : Retains (x₀.db.engine.rawTables.contains ·) x₀.db.engine.rawRetentionBlocks.toNat
    (x.db.settled x.store).durable (x.db.settled x.store).raw image
  /-- on disk, as far as the commits went -/
  disk : ∃ image', (past ++ [image])[x.ledger.committed.length]? = some image' ∧
    Retains (x₀.db.engine.rawTables.contains ·) x₀.db.engine.rawRetentionBlocks.toNat
      x.store.durable x.store.raw image'
  /-- after each number of write sets there is an image, and the store retains it -/
  prefixes : (past ++ [image]).length = x.ledger.calls.length + 1 ∧
    ∀ k image', (past ++ [image])[k]? = some image' →
      Retains (x₀.db.engine.rawTables.contains ·) x₀.db.engine.rawRetentionBlocks.toNat
        (x₀.store.commit (x.ledger.calls.take k).flatten).durable
        (x₀.store.commit (x.ledger.calls.take k).flatten).raw image'
  /-- an instance that is opened on such a store starts with the image -/
  reopens : ∀ k image', (past ++ [image])[k]? = some image' →
    KeptLike x₀.db.engine (x₀.store.commit (x.ledger.calls.take k).flatten) image'
  purges : ∀ w ∈ x.ledger.calls, PurgesBelow x₀.db.engine.rawRetentionBlocks.toNat w

/-- The rows and the durable block of a store are content. -/
theorem Retains.of_content {tables : String → Bool} {margin : Nat} {s s' : Store} {image : RowImage}
    (h : Retains tables margin s.durable s.raw image) (hc : s'.content = s.content) :
    Retains tables margin s'.durable s'.raw image := by
  have hraw : s'.raw = s.raw := by
    show s'.content.raw = s.content.raw
    rw [hc]
  have hmetas : s'.metas = s.metas := by
    show s'.content.metas = s.content.metas
    rw [hc]
  rw [hraw, Store.durable, hmetas]
  exact h

/-- **Raw rows are retained:** along every run, with every outcome of its commits and every ack
schedule. -/
theorem raw_rows_retained {x₀ x : World (SettleEngine R V)} {image₀ image : RowImage}
    {past : List RowImage} (hs : RetentionStart x₀ image₀) (hr : RowRun x₀ image₀ x past image) :
    RawRetention x₀ x past image := by
  have hi := RetentionInv.of_run hs hr
  have hw := WorldInv.of_run ⟨hs.opened, hr.steps⟩
  have hdata : ∀ k, Db.DataOnly (x.ledger.calls.take k).flatten := by
    intro k op hop
    obtain ⟨w, hmem, hop⟩ := List.mem_flatten.mp hop
    exact hw.data w (List.mem_of_mem_take hmem) op hop
  have hcontent : ∀ k, (x₀.store.commit (x.ledger.calls.take k).flatten).content
      = x₀.store.content.commit (x.ledger.calls.take k).flatten := fun k =>
    Store.content_commit_of_not (hdata k) x₀.store
  have hlast : (past ++ [image])[x.ledger.calls.length]? = some image := by
    rw [← hi.length, List.getElem?_append_right (Nat.le_refl _), Nat.sub_self]
    rfl
  refine ⟨?_, ?_, ⟨?_, fun k image' hk => (hi.rows k image' hk).rows⟩, hi.rows, hi.purges⟩
  · refine (hi.rows _ image hlast).rows.of_content ?_
    rw [hcontent, List.take_of_length_le (Nat.le_refl _), Db.settled, ← List.flatMap_def,
      Queued.content_all hw.queue, hw.content, ← Store.commit_append, ← List.flatten_append,
      Ledger.calls]
  · have htake : x.ledger.calls.take x.ledger.committed.length = x.ledger.committed := by
      rw [Ledger.calls, List.take_left]
    have hlt : x.ledger.committed.length < (past ++ [image]).length := by
      rw [List.length_append, hi.length, Ledger.calls, List.length_append]
      simp only [List.length_singleton]
      omega
    refine ⟨(past ++ [image])[x.ledger.committed.length], List.getElem?_eq_getElem hlt, ?_⟩
    refine (hi.rows _ _ (List.getElem?_eq_getElem hlt)).rows.of_content ?_
    rw [hcontent, htake]
    exact hw.content
  · rw [List.length_append, hi.length]
    rfl

end Settle
