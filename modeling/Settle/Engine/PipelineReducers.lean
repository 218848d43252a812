import Settle.Engine.PipelineRuns
import Settle.Engine.EmitReopen

/-!
# The reducers of a pipeline

The reducers of tables along the runs of a pipeline. Each is the fold of the rows of its table, and
what it gives to the views below it is what that fold emits
(`pipeline_is_a_function_of_its_tables`).
-/

namespace Settle

open Std

/-! ## A reducer that reads no storage -/

namespace ReducerEngine

variable {v : ReducerShape} {r : ReducerEngine} {block : BlockNumber}

theorem groupId_unread (h : r.readsStorage = false) (st st' : Store) (k : List UInt8) :
    r.groupId v st k = r.groupId v st' k := by
  rw [groupId, groupId, loadState, loadState, h]
  rfl

theorem groupId_reads {st : Store} {k : List UInt8} {r₁ : ReducerEngine} {id : Nat}
    (h : r.groupId v st k = .ok (r₁, id)) : r₁.readsStorage = r.readsStorage := by
  rw [groupId] at h
  split at h
  · cases h
    rfl
  · split at h
    · cases h
    · cases h
      rfl

theorem change_reads (r : ReducerEngine) (block : BlockNumber) (id : Nat) :
    (r.change block id).readsStorage = r.readsStorage := by
  rw [change]
  split
  · rfl
  · split <;> rfl

theorem processRow_reads (r : ReducerEngine) (emits : Emits) (id index : Nat) (row : Row) :
    (r.processRow v emits id index row).1.readsStorage = r.readsStorage := by
  rw [processRow]
  split
  · rfl
  · dsimp only
    split <;> rfl

theorem processPerRow_unread (st st' : Store) (ids : List (Option Nat)) (rows : List (Row × Nat))
    (h : r.readsStorage = false) (emits : Emits) :
    processPerRow v st block ids rows r emits = processPerRow v st' block ids rows r emits ∧
    (processPerRow v st block ids rows r emits).1.readsStorage = false := by
  induction rows generalizing r emits with
  | nil => exact ⟨rfl, h⟩
  | cons entry rest ih =>
    rw [processPerRow, processPerRow, groupId_unread h st st']
    cases hid : r.groupId v st' (groupKey ids entry.1) with
    | error e => exact ⟨rfl, h⟩
    | ok found =>
      dsimp only
      have h₁ : ((found.1.change block found.2).processRow v emits found.2 entry.2
          entry.1).1.readsStorage = false := by
        rw [processRow_reads, change_reads, groupId_reads hid, h]
      cases hrow : (found.1.change block found.2).processRow v emits found.2 entry.2 entry.1 with
      | mk r₂ out =>
        rw [hrow] at h₁
        obtain ⟨emits₂, result⟩ := out
        cases result with
        | error e => exact ⟨rfl, h₁⟩
        | ok u => exact ih h₁ emits₂

theorem loadGroups_unread (st st' : Store) (ids : List (Option Nat)) (rows : List Row)
    (h : r.readsStorage = false) :
    loadGroups v st ids rows r = loadGroups v st' ids rows r ∧
    (loadGroups v st ids rows r).1.readsStorage = false := by
  induction rows generalizing r with
  | nil => exact ⟨rfl, h⟩
  | cons row rest ih =>
    rw [loadGroups, loadGroups, groupId_unread h st st']
    cases hid : r.groupId v st' (groupKey ids row) with
    | error e => exact ⟨rfl, h⟩
    | ok found =>
      dsimp only
      obtain ⟨heq, hreads⟩ := ih ((groupId_reads hid).trans h)
      rw [← heq]
      cases hrest : loadGroups v st ids rest found.1 with
      | mk r₂ result =>
        rw [hrest] at hreads
        cases result with
        | error e => exact ⟨rfl, hreads⟩
        | ok groups => exact ⟨rfl, hreads⟩

theorem processGroup_reads (id : Nat) (rows : List (Row × Nat)) (r : ReducerEngine)
    (emits : Emits) : (processGroup v id rows r emits).1.readsStorage = r.readsStorage := by
  induction rows generalizing r emits with
  | nil => rfl
  | cons entry rest ih =>
    rw [processGroup]
    have hrow := processRow_reads (v := v) r emits id entry.2 entry.1
    split
    · next hr =>
      rw [hr] at hrow
      exact hrow
    · next hr =>
      rw [hr] at hrow
      exact (ih _ _).trans hrow

theorem processGrouped_reads (rows : List ((Row × Nat) × Nat)) (groups : List Nat)
    (r : ReducerEngine) (emits : Emits) :
    (processGrouped v rows groups r emits).1.readsStorage = r.readsStorage := by
  induction groups generalizing r emits with
  | nil => rfl
  | cons id rest ih =>
    rw [processGrouped]
    have hgroup := processGroup_reads (v := v) id
      ((rows.filter fun e => e.2 == id).map Prod.fst) r emits
    split
    · next hr =>
      rw [hr] at hgroup
      exact hgroup
    · next hr =>
      rw [hr] at hgroup
      exact (ih _ _).trans hgroup

theorem foldl_change_reads (groups : List Nat) (r : ReducerEngine) :
    (groups.foldl (fun r id => r.change block id) r).readsStorage = r.readsStorage := by
  induction groups generalizing r with
  | nil => rfl
  | cons id groups ih => exact (ih _).trans (change_reads r block id)

/-- **A reducer that reads no storage** does the same on any store, and still reads none. -/
theorem processBlock_unread (h : r.readsStorage = false) (st st' : Store) (block : BlockNumber)
    (rows : List Row) :
    r.processBlock v st block rows = r.processBlock v st' block rows ∧
    (r.processBlock v st block rows).1.readsStorage = false := by
  have hpaths : ∀ st : Store,
      (if v.runtime.batched then processBatched v st block rows (groupByIds v rows) r
          { columns := r.columns }
        else processPerRow v st block (groupByIds v rows) rows.zipIdx
          { r with blockGroups := r.blockGroups.insertIfNew block [] } { columns := r.columns })
      = (if v.runtime.batched then processBatched v st' block rows (groupByIds v rows) r
          { columns := r.columns }
        else processPerRow v st' block (groupByIds v rows) rows.zipIdx
          { r with blockGroups := r.blockGroups.insertIfNew block [] } { columns := r.columns }) ∧
      (if v.runtime.batched then processBatched v st block rows (groupByIds v rows) r
          { columns := r.columns }
        else processPerRow v st block (groupByIds v rows) rows.zipIdx
          { r with blockGroups := r.blockGroups.insertIfNew block [] }
          { columns := r.columns }).1.readsStorage = false := by
    intro st
    split
    · obtain ⟨heq, hreads⟩ := loadGroups_unread (v := v) st st' (groupByIds v rows) rows h
      rw [processBatched, processBatched, ← heq]
      refine ⟨rfl, ?_⟩
      split
      · next hr =>
        rw [hr] at hreads
        exact hreads
      · next hr =>
        rw [hr] at hreads
        dsimp only
        rw [processGrouped_reads, foldl_change_reads]
        exact hreads
    · exact processPerRow_unread (r := { r with blockGroups := r.blockGroups.insertIfNew block [] })
        st st' (groupByIds v rows) rows.zipIdx h { columns := r.columns }
  obtain ⟨heq, hreads⟩ := hpaths st
  rw [processBlock, processBlock]
  rw [heq] at hreads ⊢
  refine ⟨rfl, ?_⟩
  split
  · next hr =>
    rw [hr] at hreads
    exact hreads
  · next hr =>
    rw [hr] at hreads
    exact hreads

end ReducerEngine

/-! ## What a reducer emits along a chain -/

/-- A row as what it has in each column. -/
instance : SourceRow (String → Value) where
  column row := row

/-- The rows of a chain, by column. -/
def Chain.byColumn (chain : Chain Row) : Chain (String → Value) :=
  OrdMap.mapEntries chain fun _ rows => some (rows.map SourceRow.column)

theorem Chain.getElem?_byColumn (chain : Chain Row) (b : BlockNumber) :
    chain.byColumn[b]? = chain[b]?.map (·.map SourceRow.column) := by
  rw [byColumn, OrdMap.getElem?_mapEntries]
  cases chain[b]? <;> rfl

/-- A view reads its rows by column. -/
theorem MVShape.columnList_byColumn (v : MVShape) (key : GroupKey) (f : AggFeed)
    (chain : Chain Row) : v.columnList key f chain.byColumn = v.columnList key f chain := by
  have hvalues : ∀ rows : List Row,
      v.valuesOf key f (rows.map fun row => (SourceRow.column row : String → Value))
        = v.valuesOf key f rows := by
    intro rows
    rw [valuesOf, valuesOf, List.filter_map, List.map_map]
    rfl
  rw [columnList, columnList, Chain.byColumn, OrdMap.toList_mapEntries]
  induction chain.toList with
  | nil => rfl
  | cons e entries ih =>
    rw [List.filterMap_cons_some (by rfl), List.map_cons, List.map_cons, ih, hvalues]

namespace ReducerShape

variable {v : ReducerShape} {blocks : Chain Row} {b p : BlockNumber} {rows : List Row}

/-- What a block above a chain emits, by column. -/
def emittedRows (v : ReducerShape) (blocks : Chain Row) (rows : List Row) :
    List (String → Value) :=
  (v.foldEmits blocks rows).map (emittedRow v rows)

/-- What each block of a chain emits above the blocks below it, where there are any rows. -/
def emits (v : ReducerShape) (blocks : Chain Row) : Chain (String → Value) :=
  OrdMap.mapEntries blocks fun b rows =>
    (some (v.emittedRows (OrdMap.keep blocks (· < b)) rows)).filter (!·.isEmpty)

theorem emits_empty (v : ReducerShape) : v.emits ∅ = ∅ := OrdMap.mapEntries_empty _

theorem emits_keep :
    v.emits (OrdMap.keep blocks (· ≤ p)) = OrdMap.keep (v.emits blocks) (· ≤ p) := by
  refine ExtTreeMap.ext_getElem? ?_
  intro b
  rw [emits, OrdMap.getElem?_mapEntries, OrdMap.getElem?_keep, OrdMap.getElem?_keep, emits,
    OrdMap.getElem?_mapEntries]
  by_cases hb : b ≤ p
  · simp only [hb, decide_true, if_true, keep_keep_lt hb]
  · simp [hb]

/-- A new block emits above the whole chain. -/
theorem getElem?_emits_insert_self (hnew : ∀ b' ∈ blocks, b' < b) :
    (v.emits (blocks.insert b rows))[b]?
      = (some (v.emittedRows blocks rows)).filter (!·.isEmpty) := by
  rw [emits, OrdMap.getElem?_mapEntries, ExtTreeMap.getElem?_insert_self, Option.bind_some,
    keep_insert_lt hnew]

theorem getElem?_emits_insert_of_ne (hnew : ∀ b' ∈ blocks, b' < b) {b' : BlockNumber}
    (hne : b ≠ b') : (v.emits (blocks.insert b rows))[b']? = (v.emits blocks)[b']? := by
  have hget : (blocks.insert b rows)[b']? = blocks[b']? := by
    rw [ExtTreeMap.getElem?_insert, if_neg (by simpa using hne)]
  rw [emits, emits, OrdMap.getElem?_mapEntries, OrdMap.getElem?_mapEntries, hget]
  cases hrows : blocks[b']? with
  | none => rfl
  | some rows' =>
    rw [Option.bind_some, Option.bind_some,
      keep_insert_of_mem hnew (OrdMap.mem_of_getElem?_eq hrows)]

/-- A view was given what the reducer emits: on the blocks of its table, and on the final ones. -/
structure Gives (v : ReducerShape) (blocks final : Chain Row) (h : ViewHistory Row) : Prop where
  blocks : h.blocks.byColumn = v.emits blocks
  final : h.final.byColumn = v.emits final

variable {final : Chain Row} {h : ViewHistory Row}

theorem Gives.empty (v : ReducerShape) : v.Gives ∅ ∅ {} := by
  have hempty : (∅ : Chain Row).byColumn = v.emits ∅ := by
    rw [emits_empty]
    exact OrdMap.mapEntries_empty _
  exact ⟨hempty, hempty⟩

theorem Gives.cut (hg : v.Gives blocks final h) (p : BlockNumber) :
    v.Gives (OrdMap.keep blocks (· ≤ p)) final (h.cut p) := by
  refine ⟨?_, hg.final⟩
  rw [emits_keep, ← hg.blocks]
  exact OrdMap.mapEntries_keep ..

theorem Gives.finalTo (hg : v.Gives blocks final h) (block : BlockNumber) :
    v.Gives blocks (OrdMap.keep blocks (· ≤ block)) (h.finalTo block) := by
  refine ⟨hg.blocks, ?_⟩
  rw [emits_keep, ← hg.blocks]
  exact OrdMap.mapEntries_keep ..

/-- **A block** gives the view what it emits. -/
theorem Gives.apply (hg : v.Gives blocks final h) (hnew : ∀ b' ∈ blocks, b' < b)
    {given : Option (List Row)} (hgiven : given.map (·.map SourceRow.column)
      = (some (v.emittedRows blocks rows)).filter (!·.isEmpty)) :
    v.Gives (blocks.insert b rows) final (h.apply b given) := by
  refine ⟨ExtTreeMap.ext_getElem? fun b' => ?_, ?_⟩
  · have hold := congrArg (·[b']?) hg.blocks
    rw [Chain.getElem?_byColumn] at hold ⊢
    by_cases hne : b = b'
    · subst hne
      rw [getElem?_emits_insert_self hnew, ← hgiven]
      cases given with
      | some out => rw [ViewHistory.apply, ExtTreeMap.getElem?_insert_self]
      | none =>
        rw [ViewHistory.apply, hold, emits, OrdMap.getElem?_mapEntries]
        have hnone : blocks[b]? = none :=
          ExtTreeMap.getElem?_eq_none fun hb => UInt64.lt_irrefl b (hnew b hb)
        rw [hnone]
        rfl
    · rw [getElem?_emits_insert_of_ne hnew hne, ← hold]
      cases given with
      | some out =>
        rw [ViewHistory.apply, ExtTreeMap.getElem?_insert, if_neg (by simpa using hne)]
      | none => rw [ViewHistory.apply]
  · rw [(ViewHistory.apply_final ..).1]
    exact hg.final

end ReducerShape

/-! ## The steps of one reducer -/

namespace ReducerEngine

variable {v : ReducerShape}

theorem rollback_reads (r : ReducerEngine) (p : BlockNumber) :
    (r.rollback p).readsStorage = r.readsStorage := by
  rw [rollback]
  split <;> rfl

end ReducerEngine

namespace ReducerWorld.Inv

variable {v : ReducerShape} {w : ReducerWorld} {block p : BlockNumber} {rows : List Row}

/-- A block emits what the fold of the chain below it emits. -/
theorem emits (h : w.Inv v) (hnew : ∀ b ∈ w.blocks, b < block) {r : ReducerEngine}
    {out : List Row} (hok : w.engine.processBlock v w.store block rows = (r, .ok out)) :
    out.map SourceRow.column = v.emittedRows w.blocks rows := by
  obtain ⟨r', result, done, heq, -, -, hout⟩ := (h.start hnew).processBlock rows
  have heq : w.engine.processBlock v w.store block rows = (r', result) := heq
  rw [hok] at heq
  obtain ⟨rfl, rfl⟩ := Prod.mk.inj heq
  obtain ⟨-, order, emits, hkeeps, hemits, hover, rfl, -, -⟩ := hout out rfl
  have hempty : EmitsRep { columns := w.engine.columns } [] := .nil
  have hrep := Emits.pushAll_rep hempty _ (by rw [← hemits]; exact hover)
  rw [← hemits, List.nil_append] at hrep
  refine takeOutput_spec hrep.1 (h.columns.trans hrep.2.1) ?_ ?_
  · intro entry hentry
    obtain ⟨e, he, heq⟩ := emissions_mem hentry
    have hmem := hkeeps.mem e he
    rw [List.mem_zipIdx_iff_getElem?] at hmem
    rw [← heq]
    exact (List.getElem?_eq_some_iff.mp hmem).1
  · rw [mergeSort_emissions hkeeps, ReducerShape.foldEmits]
    congr 1
    funext k
    exact ReducerShape.value_works _ _

/-- A rollback that keeps the final blocks, above finality or not. -/
theorem rollbackTo (h : w.Inv v) (hfinal : ∀ b ∈ w.final, b ≤ p) :
    ReducerWorld.Inv v
      { w with engine := w.engine.rollback p, blocks := OrdMap.keep w.blocks (· ≤ p) } := by
  have hcols := rollback_columns w.engine p h.columns h.growth
  refine ⟨?_, Chain.below_keep h.below hfinal, h.finality, hcols.1, hcols.2⟩
  have hinv := h.engine.rollback (p := p) fun k b hb =>
    hfinal b (ReducerShape.mem_of_mem_works hb)
  rw [← ReducerShape.works_keep] at hinv
  exact hinv

/-- A block, also one that fails, is undone by a rollback below it. -/
theorem undone (h : w.Inv v) (hnew : ∀ b ∈ w.blocks, b < block) (hp : p < block)
    (hfinal : ∀ b ∈ w.final, b ≤ p) (rows : List Row) :
    ReducerWorld.Inv v
      { w with
        engine := (w.engine.processBlock v w.store block rows).1.rollback p
        blocks := OrdMap.keep w.blocks (· ≤ p) } := by
  obtain ⟨r', result, done, heq, hmid, hfailed, -⟩ := (h.start hnew).processBlock rows
  have heq : w.engine.processBlock v w.store block rows = (r', result) := heq
  have hwidths : v.groupBy <+: r'.columns ∧ ∀ (b : BlockNumber) (width : Nat),
      r'.emitGrowth[b]? = some width → v.groupBy.length ≤ width := by
    cases result with
    | error e =>
      obtain ⟨hcolumns, hgrowth⟩ := hfailed e rfl
      rw [hcolumns, hgrowth]
      exact ⟨h.columns, h.growth⟩
    | ok out =>
      have hstep := h.step (.processBlock block rows r' out hnew heq)
      exact ⟨hstep.columns, hstep.growth⟩
  rw [heq]
  have hcols := rollback_columns r' p hwidths.1 hwidths.2
  refine ⟨?_, Chain.below_keep h.below hfinal, h.finality, hcols.1, hcols.2⟩
  have hinv := hmid.inv.rollback (p := p) fun k b hb =>
    hfinal b (ReducerShape.mem_of_mem_works hb)
  rw [ReducerShape.keep_addBlock _ hp, ← ReducerShape.works_keep] at hinv
  exact hinv

end ReducerWorld.Inv

/-- A reducer that reads no storage, in a world whose checkpoints are committed. -/
structure PipelineReducer.InWorld (r : PipelineReducer) (checkpoints : Nat) (w : ReducerWorld) :
    Prop where
  inv : w.Inv r.shape
  engine : w.engine = r.engine
  unread : r.engine.readsStorage = false
  queue : w.queue = []
  number : w.number ≤ checkpoints

/-- A reducer is what the rows of its table say. -/
def PipelineReducer.Holds (r : PipelineReducer) (blocks final : Chain Row)
    (finality : Option BlockNumber) (checkpoints : Nat) : Prop :=
  ∃ w : ReducerWorld, r.InWorld checkpoints w ∧ w.blocks = blocks ∧ w.final = final ∧
    w.finality = finality

namespace PipelineReducer.Holds

variable {r : PipelineReducer} {blocks final : Chain Row} {finality : Option BlockNumber}
  {checkpoints : Nat} {block p : BlockNumber} {rows : List Row}

/-- **A block** adds its rows, and emits what the fold of the earlier ones emits. -/
theorem processBlock (h : r.Holds blocks final finality checkpoints) (store : Store)
    (hnew : ∀ b ∈ blocks, b < block) {out : List Row}
    (hok : (ReducerNode.processBlock r store block rows).2 = .ok out) :
    (ReducerNode.processBlock r store block rows).1.Holds (blocks.insert block rows) final finality
      checkpoints ∧
    out.map SourceRow.column = r.shape.emittedRows blocks rows := by
  obtain ⟨w, hw, rfl, rfl, rfl⟩ := h
  obtain ⟨heq, hreads⟩ :=
    ReducerEngine.processBlock_unread (v := r.shape) hw.unread store w.store block rows
  have hstep : w.engine.processBlock r.shape w.store block rows
      = ((r.engine.processBlock r.shape store block rows).1, .ok out) := by
    rw [hw.engine, ← heq]
    exact Prod.ext rfl hok
  exact ⟨⟨_, ⟨hw.inv.step (.processBlock block rows _ out hnew hstep), rfl, hreads, hw.queue,
    hw.number⟩, rfl, rfl, rfl⟩, hw.inv.emits hnew hstep⟩

/-- A block that is undone. -/
theorem undone (h : r.Holds blocks final finality checkpoints) (store : Store)
    (hnew : ∀ b ∈ blocks, b < block) (hp : p < block) (hfinal : ∀ b ∈ final, b ≤ p)
    (rows : List Row) :
    (ReducerNode.rollback (ReducerNode.processBlock r store block rows).1 p).Holds
      (OrdMap.keep blocks (· ≤ p)) final finality checkpoints := by
  obtain ⟨w, hw, rfl, rfl, rfl⟩ := h
  obtain ⟨heq, hreads⟩ :=
    ReducerEngine.processBlock_unread (v := r.shape) hw.unread store w.store block rows
  refine ⟨_, ⟨hw.inv.undone hnew hp hfinal rows, ?_, ?_, hw.queue, hw.number⟩, rfl, rfl, rfl⟩
  · show (w.engine.processBlock r.shape w.store block rows).1.rollback p
      = (r.engine.processBlock r.shape store block rows).1.rollback p
    rw [hw.engine, heq]
  · exact (ReducerEngine.rollback_reads ..).trans hreads

theorem rollback (h : r.Holds blocks final finality checkpoints) (hfinal : ∀ b ∈ final, b ≤ p) :
    (ReducerNode.rollback r p).Holds (OrdMap.keep blocks (· ≤ p)) final finality checkpoints := by
  obtain ⟨w, hw, rfl, rfl, rfl⟩ := h
  refine ⟨_, ⟨hw.inv.rollbackTo hfinal, ?_, ?_, hw.queue, hw.number⟩, rfl, rfl, rfl⟩
  · show w.engine.rollback p = r.engine.rollback p
    rw [hw.engine]
  · exact (ReducerEngine.rollback_reads ..).trans hw.unread

/-- A second rollback to the same block. -/
theorem rollback_keep (h : r.Holds (OrdMap.keep blocks (· ≤ p)) final finality checkpoints)
    (hfinal : ∀ b ∈ final, b ≤ p) :
    (ReducerNode.rollback r p).Holds (OrdMap.keep blocks (· ≤ p)) final finality
      checkpoints := by
  have hagain := h.rollback hfinal
  simpa [OrdMap.keep_keep] using hagain

theorem advanceFinality (h : r.Holds blocks final finality checkpoints)
    (hmono : ∀ f, finality = some f → f ≤ block) (hmax : block ≠ BlockNumber.max) :
    (ReducerNode.advanceFinality r block).Holds blocks (OrdMap.keep blocks (· ≤ block))
      (some block) checkpoints := by
  obtain ⟨w, hw, rfl, rfl, rfl⟩ := h
  refine ⟨_, ⟨hw.inv.step (.advanceFinality block hmono hmax), ?_, ?_, hw.queue, hw.number⟩, rfl,
    rfl, rfl⟩
  · show w.engine.advanceFinality block = r.engine.advanceFinality block
    rw [hw.engine]
  · have hreads : (w.engine.advanceFinality block).readsStorage = w.engine.readsStorage :=
      (ReducerEngine.foldl_finalizeId block _ (r := { w.engine with
        blockGroups := OrdMap.keep w.engine.blockGroups (block + 1 ≤ ·) })
        ⟨hw.inv.engine.nodup, hw.inv.engine.pending⟩).2.2.2.1
    rw [hw.engine] at hreads
    exact hreads.trans hw.unread

/-- **A checkpoint** of a timely run, and its commit. -/
theorem writeCheckpoint (h : r.Holds blocks final finality checkpoints) {f : BlockNumber}
    (hf : finality = some f) (htimely : ∀ b ∈ blocks, b ≤ f → b ∈ final) :
    (ReducerNode.writeCheckpoint r f (checkpoints + 1)).1.Holds blocks final finality
      (checkpoints + 1) := by
  obtain ⟨w, hw, rfl, rfl, rfl⟩ := h
  have hwritten := hw.inv.step (.writeCheckpoint (checkpoints + 1) f hf
    (Nat.lt_succ_of_le hw.number) (by simp [hw.queue]) fun _ => htimely)
  rw [hw.queue, List.nil_append] at hwritten
  refine ⟨_, ⟨hwritten.step (.commit _ [] rfl), ?_, ?_, rfl, Nat.le_refl _⟩, rfl, rfl, rfl⟩
  · show (w.engine.writeCheckpoint r.shape f (checkpoints + 1)).1
      = (r.engine.writeCheckpoint r.shape f (checkpoints + 1)).1
    rw [hw.engine]
  · have hnodup := hw.inv.engine.nodup
    rw [hw.engine] at hnodup
    exact (ReducerEngine.foldl_writeCheckpoint (v := r.shape) f (checkpoints + 1)
      r.engine.pendingDurable hnodup { r.engine with pendingDurable := [] } []).2.2.1.trans
        hw.unread

end PipelineReducer.Holds

/-! ## The nodes of a wired engine -/

/-- A step of some nodes, among them every reducer, takes a reducer to what it comes to. -/
theorem Nodes.stepNodes_reducer {R V : Type} [ReducerNode R] [ViewNode V]
    {reducer : R → R × WriteBatch} {mv : V → V × WriteBatch} {order : List PipelineNode}
    {nodes : Nodes R V} {name : String} {Q : R → R → Prop}
    (hmem : ∀ r, nodes.reducers[name]? = some r → .reducer name ∈ order)
    (hstep : ∀ r, nodes.reducers[name]? = some r → Q r (reducer r).1)
    (hkeep : ∀ r r', nodes.reducers[name]? = some r → Q r r' → Q r (reducer r').1) {r' : R}
    (h : (stepNodes reducer mv order nodes).1.reducers[name]? = some r') :
    ∃ r, nodes.reducers[name]? = some r ∧ Q r r' := by
  rw [stepNodes_reducers] at h
  obtain ⟨r, hr, rfl⟩ := Option.map_eq_some_iff.mp h
  refine ⟨r, hr, ?_⟩
  obtain ⟨k, hk⟩ := Nat.exists_eq_succ_of_ne_zero
    (Nat.pos_iff_ne_zero.mp (List.count_pos_iff.mpr (hmem r hr)))
  rw [hk, Function.iterate_succ_apply]
  exact Function.Iterate.rec (Q r) (hstep r hr) (fun r' => hkeep r r' hr) k

/-- A step of the views only. -/
theorem Nodes.stepNodes_views {R V : Type} [ReducerNode R] [ViewNode V]
    (mv : V → V × WriteBatch) (order : List PipelineNode) (nodes : Nodes R V) :
    (stepNodes (fun r => (r, [])) mv order nodes).1.reducers = nodes.reducers := by
  refine ExtTreeMap.ext_getElem? ?_
  intro name
  rw [stepNodes_reducers]
  cases hr : nodes.reducers[name]? with
  | none => rfl
  | some r => exact congrArg some (Function.iterate_fixed rfl _)

namespace SettleEngine

variable {R V : Type} [ReducerNode R] [ViewNode V] {e : SettleEngine R V} {schema : Schema}
  {name : String} {r : R}

/-- The last finality, if there was one. -/
def finality (e : SettleEngine R V) : Option BlockNumber :=
  if e.hasFinalized then some e.finalizedBlock else none

omit [ReducerNode R] [ViewNode V] in
theorem finality_le {f : BlockNumber} (h : e.finality = some f) : f = e.finalizedBlock := by
  rw [finality] at h
  split at h
  · exact (Option.some.inj h).symm
  · cases h

theorem Wired.mem_nodes (h : e.Wired schema) (hr : e.nodes.reducers[name]? = some r) :
    .reducer name ∈ schema.nodes := by
  refine Schema.nodeSource_mem (h.sources (.reducer name) (ReducerNode.source r) ?_)
  rw [Nodes.sourceOf, hr]
  rfl

theorem Wired.mem_pipeline_reducer (h : e.Wired schema) (hr : e.nodes.reducers[name]? = some r) :
    .reducer name ∈ e.pipeline :=
  h.pipeline.perm.mem_iff.mpr (h.mem_nodes hr)

/-- The engine visits each reducer once. -/
theorem Wired.count_nodeOrder (h : e.Wired schema) (hvalid : schema.validate = .ok ())
    (hr : e.nodes.reducers[name]? = some r) : e.nodeOrder.count (.reducer name) = 1 := by
  have hnodup := (List.nodup_append.mp (h.nodup_branches hvalid)).2.1
  have hmem : PipelineNode.reducer name ∈ Nodes.branchNodes e.branches := by
    have hin := h.mem_nodes hr
    rw [Schema.nodes, List.append_assoc, List.mem_append] at hin
    have hin := (branchNodes_perm h.branches).mem_iff.mpr (hin.resolve_left (by simp))
    exact (List.mem_append.mp hin).resolve_left (by simp)
  have hbranch : name ∈ e.branches.map Prod.fst := by
    obtain ⟨branch, hb, hin⟩ := List.mem_flatMap.mp hmem
    rcases List.mem_cons.mp hin with heq | hin
    · cases heq
      exact List.mem_map_of_mem hb
    · simp at hin
  rw [nodeOrder, List.count_append, List.count_append,
    show e.branches.flatMap (fun branch => .reducer branch.1 :: branch.2.map .mv)
      = Nodes.branchNodes e.branches from rfl, List.count_eq_one_of_mem hnodup hmem,
    List.count_eq_zero.mpr, List.count_eq_zero.mpr]
  · simp
  · intro hin
    obtain ⟨other, hother, heq⟩ := List.mem_map.mp hin
    cases heq
    have hfree := (List.mem_filter.mp hother).2
    rw [List.contains_iff_mem.mpr hbranch] at hfree
    cases hfree

end SettleEngine

/-! ## The invariant -/

/-- A reducer is what the rows of its table say, if it has one. -/
def PipelineReducer.HoldsIn (r : PipelineReducer) (schema : Schema) (w : PipelineWorld) : Prop :=
  r.shape.source ∈ schema.tableNames →
    r.Holds (w.tables r.shape.source) (w.final r.shape.source) w.engine.finality
      w.engine.checkpoints

/-- A reducer is what the reducer of that name was, without the blocks above `p`. -/
def PipelineReducer.CutIn (r' : PipelineReducer) (schema : Schema) (w : PipelineWorld)
    (name : String) (p : BlockNumber) : Prop :=
  ∃ r : PipelineReducer, w.engine.nodes.reducers[name]? = some r ∧ r'.shape = r.shape ∧
    (r.shape.source ∈ schema.tableNames →
      r'.Holds (OrdMap.keep (w.tables r.shape.source) (· ≤ p)) (w.final r.shape.source)
        w.engine.finality w.engine.checkpoints)

/-- What holds along every timely run. -/
structure PipelineFold [ViewStorage] (schema : Schema) (w : PipelineWorld) : Prop where
  base : PipelineInv schema w
  reducers : ∀ (name : String) (r : PipelineReducer), w.engine.nodes.reducers[name]? = some r →
    r.HoldsIn schema w
  /-- a view below a reducer of a table was given what the reducer emits -/
  gives : ∀ (name source : String), w.engine.nodes.sourceOf (.mv name) = some source →
    ∀ r : PipelineReducer, w.engine.nodes.reducers[source]? = some r →
      r.shape.source ∈ schema.tableNames →
        r.shape.Gives (w.tables r.shape.source) (w.final r.shape.source) (w.views name)

namespace PipelineFold

variable [ViewStorage] {schema : Schema} {w w' : PipelineWorld} {e' : PipelineEngine}

/-- A call that leaves each reducer its shape. -/
theorem of_step (h : PipelineFold schema w) (hbase : PipelineInv schema w')
    (hsources : w'.engine.nodes.sourceOf = w.engine.nodes.sourceOf)
    (hreducers : ∀ (name : String) (r' : PipelineReducer),
      w'.engine.nodes.reducers[name]? = some r' →
      ∃ r : PipelineReducer, w.engine.nodes.reducers[name]? = some r ∧ r'.shape = r.shape ∧
        r'.HoldsIn schema w')
    (hgives : ∀ (name source : String), w.engine.nodes.sourceOf (.mv name) = some source →
      ∀ r : PipelineReducer, w.engine.nodes.reducers[source]? = some r →
        r.shape.source ∈ schema.tableNames →
        r.shape.Gives (w.tables r.shape.source) (w.final r.shape.source) (w.views name) →
        r.shape.Gives (w'.tables r.shape.source) (w'.final r.shape.source) (w'.views name)) :
    PipelineFold schema w' where
  base := hbase
  reducers name r' hr' := by
    obtain ⟨r, -, -, hholds⟩ := hreducers name r' hr'
    exact hholds
  gives name source hsource r' hr' htable := by
    rw [hsources] at hsource
    obtain ⟨r, hr, hshape, -⟩ := hreducers source r' hr'
    rw [hshape] at htable ⊢
    exact hgives name source hsource r hr htable (h.gives name source hsource r hr htable)

/-- A call that leaves the reducers alone. -/
theorem quiet (h : PipelineFold schema w) (hbase : PipelineInv schema { w with engine := e' })
    (hsources : e'.nodes.sourceOf = w.engine.nodes.sourceOf)
    (hreducers : e'.nodes.reducers = w.engine.nodes.reducers)
    (hfinality : e'.finality = w.engine.finality)
    (hcheckpoints : e'.checkpoints = w.engine.checkpoints) :
    PipelineFold schema { w with engine := e' } := by
  refine h.of_step hbase hsources ?_ fun _ _ _ _ _ _ hgives => hgives
  intro name r hr
  rw [show ({ w with engine := e' } : PipelineWorld).engine.nodes.reducers = _ from hreducers] at hr
  refine ⟨r, hr, rfl, ?_⟩
  rw [PipelineReducer.HoldsIn, show ({ w with engine := e' } : PipelineWorld).engine.finality = _
    from hfinality, show ({ w with engine := e' } : PipelineWorld).engine.checkpoints = _ from
    hcheckpoints]
  exact h.reducers name r hr

/-- A call that takes the blocks above `p`. -/
theorem cut (h : PipelineFold schema w) {p : BlockNumber}
    (hbase : PipelineInv schema (w.cut e' p))
    (hsources : e'.nodes.sourceOf = w.engine.nodes.sourceOf)
    (hfinality : e'.finality = w.engine.finality)
    (hcheckpoints : e'.checkpoints = w.engine.checkpoints)
    (hreducers : ∀ (name : String) (r' : PipelineReducer), e'.nodes.reducers[name]? = some r' →
      r'.CutIn schema w name p) :
    PipelineFold schema (w.cut e' p) := by
  refine h.of_step hbase hsources ?_ fun _ _ _ _ _ _ hgives => hgives.cut p
  intro name r' hr'
  obtain ⟨r, hr, hshape, hholds⟩ := hreducers name r' hr'
  refine ⟨r, hr, hshape, ?_⟩
  rw [PipelineReducer.HoldsIn, hshape, show (w.cut e' p).engine.finality = _ from hfinality,
    show (w.cut e' p).engine.checkpoints = _ from hcheckpoints]
  exact hholds

/-- A rollback of the reducers. -/
theorem rolledBack {p : BlockNumber}
    {nodes₁ : Nodes PipelineReducer PipelineView} {order : List PipelineNode}
    (horder : ∀ (name : String) (r₁ : PipelineReducer), nodes₁.reducers[name]? = some r₁ →
      .reducer name ∈ order)
    (hp : w.FinalBelow p)
    (hstep : ∀ (name : String) (r₁ : PipelineReducer), nodes₁.reducers[name]? = some r₁ →
      PipelineReducer.CutIn (ReducerNode.rollback r₁ p) schema w name p)
    (name : String) {r' : PipelineReducer}
    (hr' : (Nodes.stepNodes (fun r => (ReducerNode.rollback r p, []))
      (fun v => ((ViewNode.rollback v p).1, [])) order nodes₁).1.reducers[name]? = some r') :
    r'.CutIn schema w name p := by
  obtain ⟨-, -, hcut⟩ := Nodes.stepNodes_reducer
    (Q := fun _ r' : PipelineReducer => r'.CutIn schema w name p) (horder name) (hstep name)
    (fun _ r' _ hcut => by
      obtain ⟨r, hr, hshape, hholds⟩ := hcut
      exact ⟨r, hr, hshape, fun htable => (hholds htable).rollback_keep (hp.1 _)⟩) hr'
  exact hcut

/-! ### A batch -/

section Batch

variable {store : Store} {table : String} {block : BlockNumber} {rows : List Row}

/-- A reducer of a table has its rows in the flow of a block, and no others. -/
theorem flow_table (h : PipelineFold schema w) (hvalid : schema.validate = .ok ()) {source : String}
    (hsource : source ∈ schema.tableNames) :
    (w.engine.nodes.flowRows store block w.engine.pipeline
      ((∅ : Nodes.OutputRows).insert table rows))[source]?
      = if source = table then some rows else none := by
  rw [Nodes.getElem?_flowRows_of_not_mem _
    (SettleEngine.table_not_mem hvalid h.base.wired.pipeline hsource),
    ExtTreeMap.getElem?_insert, ExtTreeMap.getElem?_empty]
  by_cases heq : source = table
  · rw [if_pos (by simp [heq]), if_pos heq]
  · rw [if_neg (by simpa using Ne.symm heq), if_neg heq]

/-- What the flow has of a reducer of a table is what the reducer emits. -/
theorem flow_reducer (h : PipelineFold schema w) (hvalid : schema.validate = .ok ())
    (htable : table ∈ schema.tableNames) {name : String} {r : PipelineReducer}
    (hr : w.engine.nodes.reducers[name]? = some r) :
    (w.engine.nodes.flowRows store block w.engine.pipeline
      ((∅ : Nodes.OutputRows).insert table rows))[name]?
      = w.engine.nodes.emitted store block (w.engine.nodes.flowRows store block w.engine.pipeline
        ((∅ : Nodes.OutputRows).insert table rows)) name := by
  have hmem := h.base.wired.mem_pipeline_reducer hr
  have hne : table ≠ name := by
    rintro rfl
    exact SettleEngine.table_not_mem hvalid h.base.wired.pipeline htable hmem
  have horder : w.engine.nodes.InOrder ([] ++ w.engine.pipeline) := h.base.wired.inOrder hvalid
  refine Nodes.getElem?_flowRows horder _ hmem ?_
  rw [ExtTreeMap.getElem?_insert, if_neg (by simpa using hne), ExtTreeMap.getElem?_empty]

/-- **A batch**: each reducer of the table makes the step on its rows, and gives the views below it
what it emits. -/
theorem batch (h : PipelineFold schema w) (hvalid : schema.validate = .ok ())
    (hnew : ∀ b ∈ w.tables table, b < block) {writes : WriteBatch} {changes : List ChangeRecord}
    (hbatch : w.engine.processBatchDeferred store table block rows = (e', writes, .ok changes)) :
    PipelineFold schema
      { w with
        engine := e'
        tables := w.withRows table block rows
        views name := (w.views name).apply block (w.given store table block rows name) } := by
  have hbase := h.base.batch hvalid hnew hbatch
  have hsame := SettleEngine.processBatchDeferred_wiring w.engine store table block rows
  rw [hbatch] at hsame
  obtain ⟨htable, hok, hnodes⟩ := h.base.wired.batch_ok hbatch
  have hmarks : e'.finality = w.engine.finality ∧ e'.checkpoints = w.engine.checkpoints := by
    rcases w.engine.processBatchDeferred_cases store table block rows with
      ⟨_, _, _, heq⟩ | ⟨nodes, cs, hcontains, heq⟩
    · rw [hbatch] at heq
      cases heq
    · rw [hbatch] at heq
      cases heq
      exact ⟨rfl, rfl⟩
  have hflow := h.base.wired.processed_flow hvalid store htable block rows
  have hpasses := hflow.1.mp hok
  have hstepped := hflow.2 hok
  rw [← hnodes] at hstepped
  -- the step of a reducer of a table
  have hstep : ∀ {name : String} {r : PipelineReducer}, w.engine.nodes.reducers[name]? = some r →
      r.shape.source ∈ schema.tableNames →
      w.engine.nodes.reducerStep store block (w.engine.nodes.flowRows store block
        w.engine.pipeline ((∅ : Nodes.OutputRows).insert table rows)) name
        = if r.shape.source = table then some (ReducerNode.processBlock r store block rows)
          else none := by
    intro name r hr hsource
    rw [Nodes.reducerStep, hr, Option.bind_some,
      show ReducerNode.source r = r.shape.source from rfl, h.flow_table hvalid hsource]
    split <;> rfl
  have hstepOk : ∀ {name : String} {r : PipelineReducer},
      w.engine.nodes.reducers[name]? = some r → r.shape.source ∈ schema.tableNames →
      r.shape.source = table →
        ∃ out, (ReducerNode.processBlock r store block rows).2 = .ok out := by
    intro name r hr hsource heq
    refine hpasses (.reducer name) (h.base.wired.mem_pipeline_reducer hr) _ ?_
    rw [hstep hr hsource, if_pos heq]
  refine h.of_step hbase hsame.sources ?_ ?_
  · intro name r' hr'
    rw [show (_ : PipelineWorld).engine.nodes.reducers[name]? = _ from
      hstepped.reducers name] at hr'
    cases hr : w.engine.nodes.reducers[name]? with
    | none => simp [Nodes.reducerStep, hr] at hr'
    | some r =>
      rw [if_pos (h.base.wired.mem_pipeline_reducer hr), hr] at hr'
      refine ⟨r, rfl, ?_⟩
      by_cases hsource : r.shape.source ∈ schema.tableNames
      · rw [hstep hr hsource] at hr'
        split at hr'
        · next heq =>
          cases hr'
          subst heq
          refine ⟨rfl, fun _ => ?_⟩
          obtain ⟨out, hout⟩ := hstepOk hr hsource rfl
          show PipelineReducer.Holds _ (w.withRows r.shape.source block rows r.shape.source)
            (w.final r.shape.source) e'.finality e'.checkpoints
          rw [PipelineWorld.withRows, Function.update_self, hmarks.1, hmarks.2]
          exact ((h.reducers name r hr hsource).processBlock store hnew hout).1
        · next hne =>
          cases hr'
          refine ⟨rfl, fun _ => ?_⟩
          show r'.Holds (w.withRows table block rows r'.shape.source)
            (w.final r'.shape.source) e'.finality e'.checkpoints
          rw [PipelineWorld.withRows, Function.update_of_ne hne, hmarks.1, hmarks.2]
          exact h.reducers name r' hr hsource
      · have hshape : r'.shape = r.shape := by
          rw [Nodes.reducerStep, hr, Option.bind_some] at hr'
          cases hrows : (w.engine.nodes.flowRows store block w.engine.pipeline
              ((∅ : Nodes.OutputRows).insert table rows))[ReducerNode.source r]? with
          | none =>
            rw [hrows] at hr'
            cases hr'
            rfl
          | some l =>
            rw [hrows] at hr'
            cases hr'
            rfl
        refine ⟨hshape, fun htable' => absurd htable' ?_⟩
        rwa [hshape]
  · intro name source hsource r hr htableSource hgives
    obtain ⟨v, hv, rfl⟩ := Option.map_eq_some_iff.mp hsource
    have hgiven : w.given store table block rows name
        = w.engine.nodes.emitted store block (w.engine.nodes.flowRows store block
          w.engine.pipeline ((∅ : Nodes.OutputRows).insert table rows)) (ViewNode.source v) := by
      rw [PipelineWorld.given, hv, Option.bind_some, h.flow_reducer hvalid htable hr]
    rw [Nodes.emitted, hstep hr htableSource] at hgiven
    dsimp only
    by_cases heq : r.shape.source = table
    · subst heq
      obtain ⟨out, hout⟩ := hstepOk hr htableSource rfl
      have hemits := ((h.reducers _ r hr htableSource).processBlock store hnew hout).2
      rw [if_pos rfl, Option.bind_some, hout] at hgiven
      rw [PipelineWorld.withRows, Function.update_self, hgiven]
      refine hgives.apply hnew ?_
      rw [← hemits]
      cases out <;> rfl
    · rw [if_neg heq, Option.bind_none] at hgiven
      rw [PipelineWorld.withRows, Function.update_of_ne heq, hgiven]
      exact hgives

end Batch

/-! ### The other calls -/

theorem rollback (h : PipelineFold schema w) {store : Store} {pending : List WriteBatch}
    {p : BlockNumber} (htarget : w.engine.Target p) {writes : WriteBatch}
    {changes : List ChangeRecord}
    (hcall : w.engine.rollbackToBatch store pending p = (e', writes, .ok changes)) :
    PipelineFold schema (w.cut e' p) := by
  have hbase := h.base.rollback htarget hcall
  have hsame := SettleEngine.rollbackToBatch_wiring w.engine store pending p
  rw [hcall] at hsame
  have hunwound := (SettleEngine.rollbackToBatch_spec htarget hcall).1.nodes
  obtain ⟨⟨nodes, rfl⟩, -, -⟩ := SettleEngine.rollbackToBatch_marks htarget hcall
  have hp := h.base.final_le htarget.2
  refine h.cut hbase hsame.sources rfl rfl fun name r' hr' => ?_
  rw [hunwound] at hr'
  refine rolledBack (fun name r₁ hr₁ => ?_) hp (fun name r₁ hr₁ => ?_) name hr'
  · exact List.mem_reverse.mpr (h.base.wired.mem_pipeline_reducer hr₁)
  · exact ⟨r₁, hr₁, rfl, fun htable =>
      (h.reducers name r₁ hr₁ htable).rollback (hp.1 _)⟩

/-- **A batch that fails** and is undone leaves nothing of its block. -/
theorem failed (h : PipelineFold schema w) (hvalid : schema.validate = .ok ())
    {e₁ : PipelineEngine} {store undo : Store} {pending : List WriteBatch} {table : String}
    {block latest p : BlockNumber} {rows : List Row} {writes : WriteBatch} {err : Error}
    (hnew : ∀ b ∈ w.tables table, b < block)
    (hbatch : w.engine.processBatchDeferred store table block rows = (e₁, writes, .error err))
    (hlatest : w.engine.latestBlock = some latest) (hle : p ≤ latest) (hblock : p < block)
    (hp : w.FinalBelow p)
    (hundo : e₁.undoIngest undo pending (some p) = (e', .ok ())) :
    PipelineFold schema (w.cut e' p) := by
  have hbase := h.base.failed hvalid hnew hbatch hlatest hle hblock hp hundo
  have hsame₁ := SettleEngine.processBatchDeferred_wiring w.engine store table block rows
  rw [hbatch] at hsame₁
  have hsame := SettleEngine.undoIngest_wiring e₁ undo pending (some p)
  rw [hundo] at hsame
  obtain ⟨nodes₁, rfl, honce⟩ := h.base.wired.failed_once hvalid hbatch
  obtain rfl := SettleEngine.undoIngest_unwound
    (show ({ w.engine with nodes := nodes₁ } : PipelineEngine).latestBlock = some latest from
      hlatest) hle hundo
  refine h.cut hbase (hsame.sources.trans hsame₁.sources) rfl rfl fun name r' hr' => ?_
  refine rolledBack (fun name r₁ hr₁ => ?_) hp (fun name r₁ hr₁ => ?_) name hr'
  all_goals
    rw [SettleEngine.discardChanges, Nodes.stepNodes_views] at hr₁
  · exact List.mem_reverse.mpr
      ((h.base.wired.of_same hsame₁).mem_pipeline_reducer hr₁)
  · have hkept : ∀ r : PipelineReducer, w.engine.nodes.reducers[name]? = some r →
        PipelineReducer.CutIn (ReducerNode.rollback r p) schema w name p :=
      fun r hr => ⟨r, hr, rfl, fun htable =>
        (h.reducers name r hr htable).rollback (hp.1 _)⟩
    rcases honce with rfl | ⟨htable, honce⟩
    · exact hkept r₁ hr₁
    · rcases (honce (.reducer name)).reducer hr₁ with hr | ⟨r, l, hr, hfed, rfl⟩
      · exact hkept r₁ hr
      · refine ⟨r, hr, rfl, fun hsource => ?_⟩
        obtain rfl : table = r.shape.source := hfed.unique hvalid htable hsource .table
        exact (h.reducers name r hr hsource).undone store hnew hblock (hp.1 _) l

theorem takeChanges (h : PipelineFold schema w) :
    PipelineFold schema { w with engine := w.engine.takeChanges.1 } := by
  refine h.quiet h.base.takeChanges (SettleEngine.takeChangesOf_sourceOf _ _) ?_ rfl rfl
  rw [SettleEngine.takeChanges, SettleEngine.takeChangesOf_nodes]
  exact Nodes.stepNodes_views ..

/-- **A checkpoint** of a timely run. -/
theorem writeCheckpoint (h : PipelineFold schema w) (hvalid : schema.validate = .ok ())
    (hfinalized : w.engine.hasFinalized = true)
    (htimely : ∀ table, ∀ b ∈ w.tables table, b ≤ w.engine.finalizedBlock → b ∈ w.final table) :
    PipelineFold schema { w with engine := w.engine.writeCheckpoint.1 } := by
  have hbase := h.base.writeCheckpoint
  by_cases hdurable : w.engine.durableThrough w.engine.finalizedBlock = true
  · have heq : w.engine.writeCheckpoint.1 = w.engine := by
      rw [SettleEngine.writeCheckpoint, if_pos hdurable]
    rw [heq]
    exact h
  · obtain ⟨hnodes, hcheckpoints, hhas⟩ := w.engine.writeCheckpoint_written hdurable
    have hfinalizedBlock : w.engine.writeCheckpoint.1.finalizedBlock = w.engine.finalizedBlock := by
      rcases w.engine.writeCheckpoint_marks with ⟨hdone, -⟩ | ⟨-, ⟨nodes, q, k, heq⟩, -⟩
      · exact absurd hdone hdurable
      · rw [heq]
        rfl
    have hfinality : w.engine.finality = some w.engine.finalizedBlock := by
      rw [SettleEngine.finality, if_pos hfinalized]
    have hfinality' : w.engine.writeCheckpoint.1.finality = w.engine.finality := by
      rw [SettleEngine.finality, SettleEngine.finality, hhas, hfinalizedBlock]
    refine h.of_step hbase (SettleEngine.writeCheckpoint_wiring _).sources ?_
      fun _ _ _ _ _ _ hgives => hgives
    intro name r' hr'
    rw [hnodes, Nodes.stepNodes_reducers] at hr'
    obtain ⟨r, hr, rfl⟩ := Option.map_eq_some_iff.mp hr'
    rw [h.base.wired.count_nodeOrder hvalid hr, Function.iterate_one]
    refine ⟨r, hr, rfl, fun htable => ?_⟩
    rw [hcheckpoints, hfinality']
    exact (h.reducers name r hr htable).writeCheckpoint hfinality (htimely _)

variable [NodeBuild PipelineReducer PipelineView]

omit [NodeBuild PipelineReducer PipelineView] in
theorem advanceFinality (h : PipelineFold schema w) {block : BlockNumber}
    (hmono : w.engine.finalizedBlock ≤ block) (hmax : block ≠ BlockNumber.max) :
    PipelineFold schema
      { w with
        engine := w.engine.advanceFinality block
        final := if w.engine.finalityReached block then w.final
          else fun table => OrdMap.keep (w.tables table) (· ≤ block)
        views := if w.engine.finalityReached block then w.views
          else fun name => (w.views name).finalTo block } := by
  have hbase := h.base.advanceFinality hmono hmax
  by_cases hreached : w.engine.finalityReached block = true
  · have heq : w.engine.advanceFinality block = w.engine := by
      rw [SettleEngine.advanceFinality]
      exact if_pos hreached
    rw [if_pos hreached, if_pos hreached, heq]
    exact h
  · rw [if_neg hreached, if_neg hreached] at hbase ⊢
    have heq : w.engine.advanceFinality block = SettleEngine.pruneBlockHashes
        { w.engine with
          nodes := (Nodes.stepNodes (fun r => (ReducerNode.advanceFinality r block, []))
            (fun v => (ViewNode.advanceFinality v block, [])) w.engine.nodeOrder w.engine.nodes).1
          nodesFinalAt := none
          finalizedBlock := block
          hasFinalized := true } := by
      rw [SettleEngine.advanceFinality]
      exact if_neg hreached
    refine h.of_step hbase (SettleEngine.advanceFinality_wiring w.engine block).sources ?_
      fun _ _ _ _ _ _ hgives => hgives.finalTo block
    intro name r' hr'
    rw [heq] at hr'
    obtain ⟨r, hr, hshape, hholds⟩ := Nodes.stepNodes_reducer
      (Q := fun r r' : PipelineReducer => r'.shape = r.shape ∧
        (r.shape.source ∈ schema.tableNames →
          r'.Holds (w.tables r.shape.source) (OrdMap.keep (w.tables r.shape.source) (· ≤ block))
            (some block) w.engine.checkpoints))
      (fun r hr => SettleEngine.mem_nodeOrder_reducer hr)
      (fun r hr => ⟨rfl, fun htable => (h.reducers name r hr htable).advanceFinality
        (fun f hf => SettleEngine.finality_le hf ▸ hmono) hmax⟩)
      (fun r r' _ hq => ⟨hq.1, fun htable => (hq.2 htable).advanceFinality (fun f hf => by
        cases hf
        exact UInt64.le_refl block) hmax⟩) hr'
    refine ⟨r, hr, hshape, fun htable => ?_⟩
    rw [hshape] at htable
    have hholds := hholds htable
    rw [← hshape] at hholds
    rw [heq]
    exact hholds

/-- **Every call of a timely run keeps the invariant.** -/
theorem step (h : PipelineFold schema w) (hvalid : schema.validate = .ok ())
    (hstep : PipelineStep True w w') : PipelineFold schema w' := by
  have hbase := h.base.step hvalid hstep
  cases hstep with
  | batch store table block rows hnew hbatch => exact h.batch hvalid hnew hbatch
  | failed store table block rows undo pending hnew hbatch hlatest hp hblock hfinal hundo =>
    exact h.failed hvalid hnew hbatch hlatest hp hblock hfinal hundo
  | takeChanges => exact h.takeChanges
  | rollback store pending htarget hcall => exact h.rollback htarget hcall
  | advanceFinality hmono hmax => exact h.advanceFinality hmono hmax
  | writeCheckpoint htimely =>
    obtain ⟨hfinalized, hfinal⟩ := htimely trivial
    exact h.writeCheckpoint hvalid hfinalized hfinal
  | setCommittedCheckpoint checkpoint => exact h.quiet hbase rfl rfl rfl rfl
  | setRollbackChain chain =>
    obtain ⟨hashes, changes, heq⟩ := w.engine.setRollbackChain_marks chain
    rw [heq] at hbase ⊢
    exact h.quiet hbase rfl rfl rfl rfl
  | takeHashChanges => exact h.quiet hbase rfl rfl rfl rfl

theorem run (h : PipelineFold schema w) (hvalid : schema.validate = .ok ())
    (hrun : Relation.ReflTransGen (PipelineStep True) w w') : PipelineFold schema w' := by
  induction hrun with
  | refl => exact h
  | tail _ hstep ih => exact ih.step hvalid hstep

end PipelineFold

/-! ## A new engine -/

theorem Store.lacks.unread {store : Store} {v : ReducerShape} (h : store.lacks v) :
    (ReducerEngine.new v store).readsStorage = false := by
  show store.storesState v.name = false
  rw [Store.storesState, List.any_eq_false]
  intro e he
  rw [ExtTreeMap.mem_toList_iff_getElem?_eq_some] at he
  simp only [beq_iff_eq]
  intro hname
  have hnone := (h e.1.2).1
  rw [← hname] at hnone
  rw [show e.1 = (e.1.1, e.1.2) from rfl, hnone] at he
  cases he

/-- A new reducer holds no rows. -/
theorem PipelineReducer.Holds.init {r : PipelineReducer} {opened : Store}
    (hlacks : opened.lacks r.shape) (hnew : r.engine = .new r.shape opened) (checkpoints : Nat) :
    r.Holds ∅ ∅ none checkpoints := by
  refine ⟨{ engine := .new r.shape opened, store := opened }, ?_, rfl, rfl, rfl⟩
  refine ⟨ReducerRun.inv ⟨opened, hlacks, .refl⟩, hnew.symm, ?_, rfl, Nat.zero_le _⟩
  rw [hnew]
  exact hlacks.unread

/-- The reducers of a new engine are those that were built, each as its source asks. -/
theorem SettleEngine.new_reducers {R V : Type} [ReducerNode R] [ViewNode V] [NodeBuild R V]
    {schema : Schema} {store : Store} {rayon : Bool} {e : SettleEngine R V}
    (hvalid : schema.validate = .ok ()) (h : SettleEngine.new schema store rayon = .ok e)
    {P : R → Prop}
    (hreducer : ∀ {d registry modules} {r : R},
      NodeBuild.newReducer V d store registry modules = .ok r → P r)
    (hchained : ∀ {d modules} {r : R}, d.source ∉ schema.tableNames →
      NodeBuild.newChained V d store modules = .ok r → P r) :
    e.hasFinalized = false ∧
    ∀ (name : String) (r : R), e.nodes.reducers[name]? = some r → P r := by
  obtain ⟨-, hnames, -, -⟩ := Schema.objectNames_nodup
    (Schema.checkNames_ok.mp (Schema.validate_ok.mp hvalid).2.2.1).1
  unfold SettleEngine.new at h
  dsimp only at h
  cases hr : newReducers (R := R) (V := V) schema store (newRawTables schema) with
  | error err =>
    rw [hr] at h
    cases h
  | ok reducers =>
    cases hmvs : newMvs (R := R) (V := V) schema store with
    | error err =>
      rw [hr, hmvs] at h
      cases h
    | ok mvs =>
      rw [hr, hmvs] at h
      cases h
      refine ⟨rfl, fun name r hget => ?_⟩
      have hget : reducers[name]? = some r := hget
      obtain ⟨hnone, hsome⟩ := foldlM_insert hnames
        ((newReducers_eq schema store).symm.trans hr)
      by_cases hname : name ∈ schema.reducers.map ReducerDef.name
      · obtain ⟨d, hd, rfl⟩ := List.mem_map.mp hname
        obtain ⟨r', hmake, hnode⟩ := hsome d hd
        obtain rfl : r' = r := Option.some.inj (hnode.symm.trans hget)
        split at hmake
        · exact hreducer hmake
        · next hraw =>
          refine hchained ?_ hmake
          intro htable
          have hcontains : (newRawTables schema).contains d.source = true := by
            rw [newRawTables, ExtTreeMap.contains_ofList, List.map_map]
            simpa [Schema.tableNames] using htable
          rw [ExtTreeMap.contains_eq_isSome_getElem?, hraw] at hcontains
          cases hcontains
      · rw [hnone name hname, ExtTreeMap.getElem?_empty] at hget
        cases hget

theorem PipelineFold.init [ViewStorage] {schema : Schema} {e : PipelineEngine} {opened : Store}
    (hbase : PipelineInv schema { engine := e }) (hfinalized : e.hasFinalized = false)
    (hfresh : ∀ (name : String) (r : PipelineReducer), e.nodes.reducers[name]? = some r →
      r.shape.source ∈ schema.tableNames →
        opened.lacks r.shape ∧ r.engine = .new r.shape opened) :
    PipelineFold schema { engine := e } where
  base := hbase
  reducers name r hr htable := by
    obtain ⟨hlacks, hnew⟩ := hfresh name r hr htable
    have hfinality : e.finality = none := by
      rw [SettleEngine.finality, hfinalized]
      rfl
    show r.Holds ∅ ∅ e.finality e.checkpoints
    rw [hfinality]
    exact .init hlacks hnew _
  gives _ _ _ r _ _ := .empty r.shape

/-! ## The tables -/

theorem MVShape.foldGroup_byColumn (v : MVShape) (chain : Chain Row) (key : GroupKey) :
    v.foldGroup chain.byColumn key = v.foldGroup chain key := by
  simp only [foldGroup, columnList_byColumn]

theorem MVShape.foldHasData_byColumn (v : MVShape) (chain : Chain Row) (key : GroupKey) :
    v.foldHasData chain.byColumn key = v.foldHasData chain key := by
  simp only [foldHasData, columnList_byColumn]

/-- The groups of a reducer. -/
theorem PipelineReducer.Holds.groups {r : PipelineReducer} {blocks final : Chain Row}
    {finality : Option BlockNumber} {checkpoints : Nat}
    (h : r.Holds blocks final finality checkpoints) :
    (∀ k id, r.engine.ids[k]? = some id → ∃ g : ReducerGroup, r.engine.all[id]? = some g ∧
      g.key = k ∧ g.state = (r.shape.fold blocks k).values ∧
      ∀ mk, g.maps.entries[mk]? = (r.shape.fold blocks k).maps mk) ∧
    ∀ k, r.engine.ids[k]? = none → ∀ (b : BlockNumber) (rows : List Row),
      blocks[b]? = some rows → r.shape.ownRows rows k = [] := by
  obtain ⟨w, hw, rfl, -, -⟩ := h
  have hi := hw.inv.engine
  rw [hw.engine] at hi
  refine ⟨?_, ?_⟩
  · intro k id hid
    obtain ⟨g, hg, rfl⟩ := (hi.ids k id).mp hid
    obtain ⟨hstate, hentries⟩ := (hi.groups id g hg).current
    rw [ReducerShape.value_works] at hstate hentries
    exact ⟨g, hg, rfl, hstate, hentries⟩
  · intro k hk b rows hb
    have hempty : r.shape.works w.blocks k = ∅ := hi.unread hw.unread k hk
    by_contra hne
    have hget : (r.shape.works w.blocks k)[b]? = some (r.shape.ownRows rows k) := by
      rw [ReducerShape.works, OrdMap.getElem?_mapEntries, hb, Option.bind_some]
      exact if_neg hne
    rw [hempty] at hget
    simp at hget

/-- A new engine keeps the invariant along a timely run. -/
theorem PipelineFold.of_new [ViewStorage] [NodeBuild PipelineReducer PipelineView]
    (hbuild : BuildsSources PipelineReducer PipelineView) {schema : Schema} {opened : Store}
    {rayon : Bool} {e₀ : PipelineEngine} (hvalid : schema.validate = .ok ())
    (hviews : ∀ {d types} {v : PipelineView},
      NodeBuild.newView PipelineReducer d opened types = .ok v → v.engine = {})
    (hreducers : ∀ {d registry modules} {r : PipelineReducer},
      NodeBuild.newReducer PipelineView d opened registry modules = .ok r →
        opened.lacks r.shape ∧ r.engine = .new r.shape opened)
    (hnew : SettleEngine.new schema opened rayon = .ok e₀) {w : PipelineWorld}
    (hrun : Relation.ReflTransGen (PipelineStep True) { engine := e₀ } w) :
    PipelineFold schema w := by
  have hwired := SettleEngine.new_wired hbuild hvalid hnew
  have hbase : PipelineInv schema { engine := e₀ } := .init hwired fun name v hv =>
    SettleEngine.new_views hvalid hnew (P := fun v : PipelineView => v.engine = {}) hviews name hv
  obtain ⟨hfinalized, hfresh⟩ := SettleEngine.new_reducers hvalid hnew
    (P := fun r : PipelineReducer => r.shape.source ∈ schema.tableNames →
      opened.lacks r.shape ∧ r.engine = .new r.shape opened)
    (fun hmake _ => hreducers hmake)
    (fun hsource hmake htable => absurd (hbuild.newChained hmake ▸ htable) hsource)
  exact (PipelineFold.init hbase hfinalized hfresh).run hvalid hrun

/-- The views without a window below a reducer of a table. -/
theorem PipelineFold.below [ViewStorage] {schema : Schema} {w : PipelineWorld}
    (hi : PipelineFold schema w) {name view : String} {r : PipelineReducer} {v : PipelineView}
    (hr : w.engine.nodes.reducers[name]? = some r) (htable : r.shape.source ∈ schema.tableNames)
    (hv : w.engine.nodes.mvs[view]? = some v) (hsource : v.shape.source = name)
    (hwindow : v.shape.slidingWindow = none) :
    (∀ key g, v.engine.groups[key]? = some g →
      g.aggs.map Agg.currentValue
        = v.shape.foldGroup (r.shape.emits (w.tables r.shape.source)) key) ∧
    (∀ key, v.engine.groups[key]? = none →
      v.shape.foldHasData (r.shape.emits (w.tables r.shape.source)) key = false) ∧
    ∀ n key state, .putGroup key state ∈ (v.engine.writeCheckpoint v.shape n).2 →
      ∃ aggs, v.shape.restoreGroup state = some aggs ∧
        aggs.map Agg.currentValue
          = v.shape.foldGroup (r.shape.emits (w.final r.shape.source)) key := by
  have hview : w.engine.nodes.sourceOf (.mv view) = some name := by
    rw [Nodes.sourceOf, hv, ← hsource]
    rfl
  obtain ⟨hblocks, hfinal⟩ := hi.gives view name hview r hr htable
  obtain ⟨hfold, hdata, hstored⟩ := (hi.base.views view v hv hwindow).folds hwindow
  refine ⟨?_, ?_, ?_⟩
  · intro key g hg
    rw [← hblocks, MVShape.foldGroup_byColumn]
    exact (hfold key g hg).1
  · intro key hg
    rw [← hblocks, MVShape.foldHasData_byColumn]
    exact hdata key hg
  · intro n key state hw
    obtain ⟨aggs, hrestore, hvalues, -⟩ := hstored n key state hw
    refine ⟨aggs, hrestore, ?_⟩
    rw [← hfinal, MVShape.foldGroup_byColumn]
    exact hvalues

/-- **A pipeline is a function of its tables.** Take an engine of an accepted schema, new on storage
without state of its reducers, and any timely run of its calls: batches on either way through the
branches, batches that fail and are undone, rollbacks, finality and checkpoints. In the state that
it reaches, a reducer of a table has in each group the fold of the rows of the table that stand, and
no row is of a group that it does not have. A view below it without a window has in its groups the
folds of what the body emits along the blocks of the table, a group that is not there has no data
of them, and what a checkpoint stores reads back as the folds of what it emits along the final
blocks. -/
theorem pipeline_is_a_function_of_its_tables [ViewStorage]
    [NodeBuild PipelineReducer PipelineView]
    (hbuild : BuildsSources PipelineReducer PipelineView) {schema : Schema} {opened : Store}
    {rayon : Bool} {e₀ : PipelineEngine} (hvalid : schema.validate = .ok ())
    (hviews : ∀ {d types} {v : PipelineView},
      NodeBuild.newView PipelineReducer d opened types = .ok v → v.engine = {})
    (hreducers : ∀ {d registry modules} {r : PipelineReducer},
      NodeBuild.newReducer PipelineView d opened registry modules = .ok r →
        opened.lacks r.shape ∧ r.engine = .new r.shape opened)
    (hnew : SettleEngine.new schema opened rayon = .ok e₀) {w : PipelineWorld}
    (hrun : Relation.ReflTransGen (PipelineStep True) { engine := e₀ } w) {name : String}
    {r : PipelineReducer} (hr : w.engine.nodes.reducers[name]? = some r)
    (htable : r.shape.source ∈ schema.tableNames) :
    (∀ k id, r.engine.ids[k]? = some id → ∃ g : ReducerGroup, r.engine.all[id]? = some g ∧
      g.key = k ∧ g.state = (r.shape.fold (w.tables r.shape.source) k).values ∧
      ∀ mk, g.maps.entries[mk]? = (r.shape.fold (w.tables r.shape.source) k).maps mk) ∧
    (∀ k, r.engine.ids[k]? = none → ∀ (b : BlockNumber) (rows : List Row),
      (w.tables r.shape.source)[b]? = some rows → r.shape.ownRows rows k = []) ∧
    ∀ (view : String) (v : PipelineView), w.engine.nodes.mvs[view]? = some v →
      v.shape.source = name → v.shape.slidingWindow = none →
      (∀ key g, v.engine.groups[key]? = some g →
        g.aggs.map Agg.currentValue
          = v.shape.foldGroup (r.shape.emits (w.tables r.shape.source)) key) ∧
      (∀ key, v.engine.groups[key]? = none →
        v.shape.foldHasData (r.shape.emits (w.tables r.shape.source)) key = false) ∧
      (∀ n key state, .putGroup key state ∈ (v.engine.writeCheckpoint v.shape n).2 →
        ∃ aggs, v.shape.restoreGroup state = some aggs ∧
          aggs.map Agg.currentValue
            = v.shape.foldGroup (r.shape.emits (w.final r.shape.source)) key) := by
  have hi : PipelineFold schema w := .of_new hbuild hvalid hviews hreducers hnew hrun
  obtain ⟨hgroups, habsent⟩ := (hi.reducers name r hr htable).groups
  refine ⟨hgroups, habsent, ?_⟩
  intro view v hv hsource hwindow
  exact hi.below hr htable hv hsource hwindow

/-! ### Two branches -/

/-- Reducer `a` and view `u` below it, with one group in each. -/
def oneGroupEach (e : PipelineEngine) : Bool :=
  (e.nodes.reducers["a"]?.any fun r => r.shape.source == "t" && r.engine.ids.size == 1) &&
    e.nodes.mvs["u"]?.any fun v => v.shape.source == "a" && v.shape.slidingWindow.isNone &&
      v.engine.groups.size == 1

/-- The reducer `a` and the view `u` below it, after block 1 and a rollback of block 2. -/
theorem pipeline_is_a_function_of_its_tables_twoBranches :
    letI := noViewStorage
    letI := countingNodes
    ∃ (e₀ : PipelineEngine) (w : PipelineWorld) (r : PipelineReducer) (v : PipelineView),
      SettleEngine.new twoBranches {} true = .ok e₀ ∧
      Relation.ReflTransGen (PipelineStep True) { engine := e₀ } w ∧ 1 ∈ w.tables "t" ∧
      w.engine.nodes.reducers["a"]? = some r ∧ w.engine.nodes.mvs["u"]? = some v ∧
      v.engine.groups.size = 1 ∧ ∀ key g, v.engine.groups[key]? = some g →
        g.aggs.map Agg.currentValue = v.shape.foldGroup (r.shape.emits (w.tables "t")) key := by
  let := noViewStorage
  let := countingNodes
  have hok : ((SettleEngine.new (R := PipelineReducer) (V := PipelineView) twoBranches {}
      true).toOption.map fun e => oneGroupEach (twoBranchesAfter e)) = some true := by
    decide +kernel
  obtain ⟨e₀, w, hnew, hrun, hengine, hrows⟩ := twoBranches_run
  rw [hnew] at hok
  have hok : oneGroupEach (twoBranchesAfter e₀) = true := Option.some.inj hok
  rw [← hengine, oneGroupEach, Bool.and_eq_true, Option.any_eq_true, Option.any_eq_true] at hok
  obtain ⟨⟨r, hr, hreducer⟩, v, hv, hview⟩ := hok
  simp only [Bool.and_eq_true, beq_iff_eq, Option.isNone_iff_eq_none] at hreducer hview
  refine ⟨e₀, w, r, v, hnew, hrun, hrows, hr, hv, hview.2, ?_⟩
  have hall := pipeline_is_a_function_of_its_tables countingNodes_sources twoBranches_valid
    (fun h => by cases h; rfl) (fun h => by cases h; exact ⟨fun k => ⟨by simp, by simp⟩, rfl⟩) hnew
    hrun hr (by rw [hreducer.1]; decide)
  rw [hreducer.1] at hall
  exact (hall.2.2 "u" v hv hview.1.1 hview.1.2).1

end Settle
