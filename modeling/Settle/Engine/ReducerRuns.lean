import Settle.Engine.ReducerEmits
import Settle.Engine.ReducerStore
import Settle.Engine.ViewRuns

/-!
# Runs of a reducer

A run of a reducer from its creation on a store without state of it: `process_block` over
increasing blocks, `rollback` at or above the last finality, `advance_finality`,
`write_checkpoint` at the last finality, the commits of the checkpoints in order, `reload` once
they are in, and `evict` with any cap, in any order. A block that fails is rolled back at once, as
the engine above does.

`ReducerWorld` holds the engine and its storage, and what the run means: the blocks that survive,
those of them that finality merged, and those at or below finality at each checkpoint.
-/

namespace Settle

open Std

namespace ReducerShape

variable (v : ReducerShape)

/-- The rows of group `k` in a block. -/
def ownRows (rows : List Row) (k : List UInt8) : List Row :=
  rows.filter (ReducerEngine.groupKey (ReducerEngine.groupByIds v rows) · = k)

/-- **The from-scratch meaning of group `k`**: the fold of the body over its rows in the blocks of
a chain, from the defaults. -/
def fold (blocks : Chain Row) (k : List UInt8) : GroupValue :=
  (blocks.toList.flatMap fun e => v.ownRows e.2 k).foldl v.step v.initial

/-- What the body emits on a block above a chain, row by row. -/
def foldEmits (blocks : Chain Row) (rows : List Row) : List (Nat × List (String × Value)) :=
  emissions v (ReducerEngine.groupKey (ReducerEngine.groupByIds v rows)) (v.fold blocks) rows.zipIdx

/-- The work of each group in a chain. -/
def works (blocks : Chain Row) : Works := fun k =>
  OrdMap.mapEntries blocks fun _ rows =>
    blockRows (ReducerEngine.groupKey (ReducerEngine.groupByIds v rows)) rows k

variable {v} {blocks : Chain Row} {k : List UInt8} {b : BlockNumber}

theorem value_works (blocks : Chain Row) (k : List UInt8) :
    v.value (v.works blocks k) = v.fold blocks k := by
  rw [value, fold, works, OrdMap.toList_mapEntries]
  congr 1
  induction blocks.toList with
  | nil => rfl
  | cons e entries ih =>
    rw [List.flatMap_cons, List.filterMap_cons]
    by_cases h : v.ownRows e.2 k = []
    · have hnone : blockRows (ReducerEngine.groupKey (ReducerEngine.groupByIds v e.2)) e.2 k
          = none := if_pos h
      rw [hnone, h]
      exact ih
    · have hsome : blockRows (ReducerEngine.groupKey (ReducerEngine.groupByIds v e.2)) e.2 k
          = some (v.ownRows e.2 k) := if_neg h
      rw [hsome]
      simp only [Option.map_some, List.flatMap_cons, ih]

theorem mem_of_mem_works (h : b ∈ v.works blocks k) : b ∈ blocks := by
  obtain ⟨own, hown⟩ := OrdMap.exists_getElem?_of_mem h
  rw [works, OrdMap.getElem?_mapEntries] at hown
  obtain ⟨rows, hrows, -⟩ := Option.bind_eq_some_iff.mp hown
  exact OrdMap.mem_of_getElem?_eq hrows

theorem works_empty : v.works ∅ = fun _ => ∅ := funext fun _ => OrdMap.mapEntries_empty _

theorem works_keep (blocks : Chain Row) (p : BlockNumber) :
    v.works (OrdMap.keep blocks (· ≤ p)) = fun k => OrdMap.keep (v.works blocks k) (· ≤ p) :=
  funext fun _ => OrdMap.mapEntries_keep blocks _ _

/-- A whole new block. -/
theorem works_insert (hnew : ∀ b' ∈ blocks, b' < b) (rows : List Row) :
    v.works (blocks.insert b rows) = addBlock (v.works blocks) b
      (blockRows (ReducerEngine.groupKey (ReducerEngine.groupByIds v rows)) rows) := by
  have hb : blocks[b]? = none := by
    by_contra hne
    obtain ⟨rows', hr⟩ := Option.ne_none_iff_exists'.mp hne
    have := hnew b (OrdMap.mem_of_getElem?_eq hr)
    grind
  funext k
  ext b' own
  rw [addBlock, works, OrdMap.getElem?_mapEntries, ExtTreeMap.getElem?_insert]
  by_cases heq : b = b'
  · subst heq
    simp only [ReflCmp.compare_self, ↓reduceIte, Option.bind_some]
    cases hown : blockRows (ReducerEngine.groupKey (ReducerEngine.groupByIds v rows)) rows k with
    | none =>
      simp only
      rw [works, OrdMap.getElem?_mapEntries, hb]
      rfl
    | some own' => simp
  · have hcmp : ¬ compare b b' = .eq := fun h => heq (Std.compare_eq_iff_eq.mp h)
    rw [if_neg hcmp]
    cases blockRows (ReducerEngine.groupKey (ReducerEngine.groupByIds v rows)) rows k with
    | none =>
      simp only
      rw [works, OrdMap.getElem?_mapEntries]
    | some own' =>
      simp only
      rw [ExtTreeMap.getElem?_insert, if_neg hcmp, works, OrdMap.getElem?_mapEntries]

/-- A block that was rolled back leaves no work. -/
theorem keep_addBlock (work : Works) {p : BlockNumber} (hp : p < b) (done : BlockRows) :
    (fun k => OrdMap.keep (addBlock work b done k) (· ≤ p))
      = fun k => OrdMap.keep (work k) (· ≤ p) := by
  funext k
  rw [addBlock]
  cases done k with
  | none => rfl
  | some own =>
    ext b' rows
    grind

end ReducerShape

/-! ## Runs -/

/-- A reducer with its storage, and what its run means. -/
structure ReducerWorld where
  engine : ReducerEngine
  store : Store
  /-- the last committed checkpoint -/
  number : Nat := 0
  /-- the checkpoints that were written and not committed yet, oldest first, each with its number,
  its writes, and the blocks at or below finality then -/
  queue : List (Nat × WriteBatch × Chain Row) := []
  /-- the blocks processed and not rolled back -/
  blocks : Chain Row := ∅
  finality : Option BlockNumber := none
  /-- the blocks that were at or below finality when it advanced -/
  final : Chain Row := ∅
  /-- the blocks of the last checkpoint, and of the last committed one -/
  saved : Chain Row := ∅
  committed : Chain Row := ∅

/-- One call. In a *timely* run a checkpoint comes when every surviving block at or below the last
finality was there when finality advanced. -/
inductive ReducerStep (v : ReducerShape) (timely : Prop) : ReducerWorld → ReducerWorld → Prop
  | processBlock {w} (block : BlockNumber) (rows : List Row) (r : ReducerEngine) (out : List Row)
      (hnew : ∀ b ∈ w.blocks, b < block)
      (hok : w.engine.processBlock v w.store block rows = (r, .ok out)) :
      ReducerStep v timely w { w with engine := r, blocks := w.blocks.insert block rows }
  | failedBlock {w} (block : BlockNumber) (rows : List Row) (r : ReducerEngine) (e : Error)
      (p : BlockNumber) (hnew : ∀ b ∈ w.blocks, b < block)
      (herr : w.engine.processBlock v w.store block rows = (r, .error e))
      (hp : p < block) (hfin : ∀ f, w.finality = some f → f ≤ p) :
      ReducerStep v timely w
        { w with engine := r.rollback p, blocks := OrdMap.keep w.blocks (· ≤ p) }
  | rollback {w} (p : BlockNumber) (hp : ∀ f, w.finality = some f → f ≤ p) :
      ReducerStep v timely w
        { w with engine := w.engine.rollback p, blocks := OrdMap.keep w.blocks (· ≤ p) }
  | advanceFinality {w} (block : BlockNumber) (hmono : ∀ f, w.finality = some f → f ≤ block)
      (hmax : block ≠ BlockNumber.max) :
      ReducerStep v timely w
        { w with
          engine := w.engine.advanceFinality block
          finality := some block
          final := OrdMap.keep w.blocks (· ≤ block) }
  | writeCheckpoint {w} (number : Nat) (f : BlockNumber) (hf : w.finality = some f)
      (hnumber : w.number < number) (hqueue : ∀ c ∈ w.queue, c.1 < number)
      (htimely : timely → ∀ b ∈ w.blocks, b ≤ f → b ∈ w.final) :
      ReducerStep v timely w
        { w with
          engine := (w.engine.writeCheckpoint v f number).1
          queue := w.queue ++ [(number, (w.engine.writeCheckpoint v f number).2,
            OrdMap.keep w.blocks (· ≤ f))]
          saved := OrdMap.keep w.blocks (· ≤ f) }
  | commit {w} (c : Nat × WriteBatch × Chain Row) (queue : List (Nat × WriteBatch × Chain Row))
      (hq : w.queue = c :: queue) :
      ReducerStep v timely w
        { w with
          store := w.store.commit c.2.1
          number := c.1
          queue := queue
          committed := c.2.2 }
  | reload {w} (hq : w.queue = []) :
      ReducerStep v timely w
        { w with
          engine := w.engine.reload v w.store
          blocks := w.saved
          final := w.saved }
  | evict {w} (cap : Nat) :
      ReducerStep v timely w { w with engine := w.engine.evict cap w.number }

/-- A store without state of the reducer. -/
def Store.lacks (st : Store) (v : ReducerShape) : Prop :=
  ∀ k : List UInt8, st.reducerFinalized[(v.name, k)]? = none ∧ st.reducerMaps[(v.name, k)]? = none

/-- The states of a run. -/
def ReducerRun (v : ReducerShape) (timely : Prop) (w : ReducerWorld) : Prop :=
  ∃ st : Store, st.lacks v ∧ Relation.ReflTransGen (ReducerStep v timely)
    { engine := ReducerEngine.new v st, store := st } w

namespace ReducerWorld

/-- The storage, with the work of the blocks that it holds. -/
def storage (w : ReducerWorld) (v : ReducerShape) : ReducerStorage where
  store := w.store
  number := w.number
  committed := v.works w.committed
  queue := w.queue.map fun c => ⟨c.1, c.2.1, v.works c.2.2⟩

/-- What holds along every timely run. -/
structure Inv (v : ReducerShape) (w : ReducerWorld) : Prop where
  engine : ReducerInv v w.engine (w.storage v) (v.works w.blocks) (v.works w.final)
    (v.works w.saved)
  below : w.final.Below w.blocks
  finality : ∀ b, b ∈ w.final ∨ b ∈ w.saved → ∃ f, w.finality = some f ∧ b ≤ f
  /-- the group-by columns come first in the emits -/
  columns : v.groupBy <+: w.engine.columns
  growth : ∀ (b : BlockNumber) (width : Nat), w.engine.emitGrowth[b]? = some width → v.groupBy.length ≤ width

variable {v : ReducerShape} {w : ReducerWorld}

/-- Before a new block. -/
theorem Inv.start (h : w.Inv v) {block : BlockNumber} (hnew : ∀ b ∈ w.blocks, b < block) :
    MidBlock v w.engine (w.storage v) (v.works w.blocks) (v.works w.final) (v.works w.saved) block
      fun _ => none := by
  refine ⟨?_, ?_, ?_, fun _ _ _ hne => absurd rfl hne⟩
  · rw [addBlock_none]
    exact h.engine
  · intro k b hb
    exact hnew b (ReducerShape.mem_of_mem_works hb)
  · intro k hb
    obtain ⟨rows, hr⟩ := OrdMap.exists_getElem?_of_mem (ReducerShape.mem_of_mem_works hb)
    have := hnew block (OrdMap.mem_of_getElem?_eq (h.below.sub block rows hr))
    grind

theorem Inv.final_le (h : w.Inv v) {p : BlockNumber} (hp : ∀ f, w.finality = some f → f ≤ p) :
    ∀ b ∈ w.final, b ≤ p := by
  intro b hb
  obtain ⟨f, hf, hbf⟩ := h.finality b (.inl hb)
  have := hp f hf
  grind

theorem rollback_columns (r : ReducerEngine) (p : BlockNumber) (h : v.groupBy <+: r.columns)
    (hg : ∀ (b : BlockNumber) (width : Nat), r.emitGrowth[b]? = some width → v.groupBy.length ≤ width) :
    v.groupBy <+: (r.rollback p).columns ∧
    ∀ (b : BlockNumber) (width : Nat), (r.rollback p).emitGrowth[b]? = some width → v.groupBy.length ≤ width := by
  unfold ReducerEngine.rollback
  split
  · exact ⟨h, hg⟩
  · dsimp only
    refine ⟨?_, fun b width hw => hg b width (by grind)⟩
    split
    · next width hwidth =>
      rw [List.head?_map] at hwidth
      obtain ⟨e, he, rfl⟩ := Option.map_eq_some_iff.mp hwidth
      have hmem := List.mem_of_head? he
      rw [ExtTreeMap.mem_toList_iff_getElem?_eq_some] at hmem
      exact List.prefix_take_iff.mpr ⟨h, hg e.1 e.2 (by grind)⟩
    · exact h

/-- A block that succeeds. -/
theorem Inv.insert (h : w.Inv v) {block : BlockNumber} {rows out : List Row} {r : ReducerEngine}
    (hnew : ∀ b ∈ w.blocks, b < block)
    (hok : w.engine.processBlock v w.store block rows = (r, .ok out)) :
    Inv v { w with engine := r, blocks := w.blocks.insert block rows } := by
  obtain ⟨r', result, done, heq, hmid, -, hout⟩ := (h.start hnew).processBlock rows
  have heq : w.engine.processBlock v w.store block rows = (r', result) := heq
  rw [hok] at heq
  obtain ⟨rfl, rfl⟩ := Prod.mk.inj heq
  obtain ⟨rfl, order, emits, -, hemits, hover, -, hcolumns, hgrowth⟩ := hout out rfl
  have hfinal : ∀ b ∈ w.final, b < block := by
    intro b hb
    obtain ⟨rows', hr⟩ := OrdMap.exists_getElem?_of_mem hb
    exact hnew b (OrdMap.mem_of_getElem?_eq (h.below.sub b rows' hr))
  rw [hemits] at hover
  have hpre : w.engine.columns <+: emits.columns := by
    have hempty : EmitsRep { columns := w.engine.columns } [] := .nil
    rw [hemits]
    exact (Emits.pushAll_rep hempty _ hover).2.1
  refine ⟨?_, StateRep.below_insert h.below hfinal, h.finality, ?_, ?_⟩
  · have hinv := hmid.inv
    rw [← ReducerShape.works_insert hnew] at hinv
    exact hinv
  · show v.groupBy <+: r.columns
    rw [hcolumns]
    exact h.columns.trans hpre
  · intro b width hw
    have hw : r.emitGrowth[b]? = some width := hw
    rw [hgrowth] at hw
    have hlen := h.columns.length_le
    have hold := h.growth b width
    split at hw
    · rw [ExtTreeMap.getElem?_insertIfNew] at hw
      split at hw
      · obtain rfl := Option.some.inj hw
        exact hlen
      · exact hold hw
    · exact hold hw

/-- The undo of a block that fails. -/
theorem Inv.undoBlock (h : w.Inv v) {block p : BlockNumber} {rows : List Row} {r : ReducerEngine}
    {e : Error} (hnew : ∀ b ∈ w.blocks, b < block)
    (herr : w.engine.processBlock v w.store block rows = (r, .error e)) (hp : p < block)
    (hle : ∀ b ∈ w.final, b ≤ p) :
    Inv v { w with engine := r.rollback p, blocks := OrdMap.keep w.blocks (· ≤ p) } := by
  obtain ⟨r', result, done, heq, hmid, hfailed, -⟩ := (h.start hnew).processBlock rows
  have heq : w.engine.processBlock v w.store block rows = (r', result) := heq
  rw [herr] at heq
  obtain ⟨rfl, rfl⟩ := Prod.mk.inj heq
  obtain ⟨hcolumns, hgrowth⟩ := hfailed e rfl
  have hcols := rollback_columns (v := v) r p (by rw [hcolumns]; exact h.columns)
    (by rw [hgrowth]; exact h.growth)
  refine ⟨?_, Chain.below_keep h.below hle, h.finality, hcols.1, hcols.2⟩
  have hinv := hmid.inv.rollback (p := p) fun k b hb => hle b (ReducerShape.mem_of_mem_works hb)
  rw [ReducerShape.keep_addBlock _ hp, ← ReducerShape.works_keep] at hinv
  exact hinv

theorem Inv.rollback (h : w.Inv v) {p : BlockNumber} (hle : ∀ b ∈ w.final, b ≤ p) :
    Inv v { w with engine := w.engine.rollback p, blocks := OrdMap.keep w.blocks (· ≤ p) } := by
  have hcols := rollback_columns w.engine p h.columns h.growth
  refine ⟨?_, Chain.below_keep h.below hle, h.finality, hcols.1, hcols.2⟩
  have hinv := h.engine.rollback (p := p) fun k b hb => hle b (ReducerShape.mem_of_mem_works hb)
  rw [← ReducerShape.works_keep] at hinv
  exact hinv

theorem Inv.advanceFinality (h : w.Inv v) {block : BlockNumber}
    (hmono : ∀ f, w.finality = some f → f ≤ block) (hmax : block ≠ BlockNumber.max) :
    Inv v { w with
      engine := w.engine.advanceFinality block
      finality := some block
      final := OrdMap.keep w.blocks (· ≤ block) } := by
  have hle := h.final_le hmono
  have hframe : (w.engine.advanceFinality block).columns = w.engine.columns ∧
      (w.engine.advanceFinality block).emitGrowth = w.engine.emitGrowth :=
    (ReducerEngine.foldl_finalizeId block _
      (r := { w.engine with
        blockGroups := OrdMap.keep w.engine.blockGroups (block + 1 ≤ ·) })
      ⟨h.engine.nodup, h.engine.pending⟩).2.2.2.2.2
  refine ⟨?_, Chain.keep_below _ _, ?_, ?_, ?_⟩
  · have hinv := h.engine.advanceFinality hmax fun k b hb =>
      hle b (ReducerShape.mem_of_mem_works hb)
    rw [← ReducerShape.works_keep] at hinv
    exact hinv
  · rintro b (hb | hb)
    · exact ⟨block, rfl, by grind⟩
    · obtain ⟨f, hf, hbf⟩ := h.finality b (.inr hb)
      have := hmono f hf
      exact ⟨block, rfl, by grind⟩
  · show v.groupBy <+: (w.engine.advanceFinality block).columns
    rw [hframe.1]
    exact h.columns
  · show ∀ (b : BlockNumber) (width : Nat),
      (w.engine.advanceFinality block).emitGrowth[b]? = some width → _
    rw [hframe.2]
    exact h.growth

theorem Inv.writeCheckpoint_columns (h : w.Inv v) (f : BlockNumber) (number : Nat) :
    (w.engine.writeCheckpoint v f number).1.columns = w.engine.columns ∧
      (w.engine.writeCheckpoint v f number).1.emitGrowth = w.engine.emitGrowth := by
  obtain ⟨-, -, -, -, -, h₁, h₂, -⟩ := ReducerEngine.foldl_writeCheckpoint (v := v) f number
    w.engine.pendingDurable h.engine.nodup { w.engine with pendingDurable := [] } []
  exact ⟨h₁, h₂⟩

/-- A timely checkpoint: the blocks at or below finality are the final ones. -/
theorem Inv.writeCheckpoint (h : w.Inv v) {number : Nat} {f : BlockNumber}
    (hf : w.finality = some f) (hnumber : w.number < number) (hqueue : ∀ c ∈ w.queue, c.1 < number)
    (hlate : ∀ b ∈ w.blocks, b ≤ f → b ∈ w.final) :
    Inv v { w with
      engine := (w.engine.writeCheckpoint v f number).1
      queue := w.queue ++ [(number, (w.engine.writeCheckpoint v f number).2,
        OrdMap.keep w.blocks (· ≤ f))]
      saved := OrdMap.keep w.blocks (· ≤ f) } := by
  have hle : ∀ b ∈ w.final, b ≤ f := h.final_le fun f' hf' => by
    rw [hf] at hf'
    obtain rfl := Option.some.inj hf'
    exact UInt64.le_refl _
  have hkeep : OrdMap.keep w.blocks (· ≤ f) = w.final := by
    ext b rows
    constructor
    · intro hb
      have hw : w.blocks[b]? = some rows := by grind
      have hbf : b ≤ f := by grind
      obtain ⟨rows', hr⟩ := OrdMap.exists_getElem?_of_mem
        (hlate b (OrdMap.mem_of_getElem?_eq hw) hbf)
      rw [h.below.sub b rows' hr] at hw
      rw [hr]
      exact hw
    · intro hb
      have := h.below.sub b rows hb
      have := hle b (OrdMap.mem_of_getElem?_eq hb)
      grind
  have hlateWork : ∀ k, ∀ b ∈ v.works w.blocks k, b ≤ f → b ∈ v.works w.final k := by
    intro k b hb hbf
    rw [← hkeep, ReducerShape.works_keep]
    grind
  have hframe := h.writeCheckpoint_columns f number
  have hinv := h.engine.writeCheckpoint hlateWork
    (fun k b hb => hle b (ReducerShape.mem_of_mem_works hb)) hnumber (by
      intro c hc
      obtain ⟨c', hc', rfl⟩ := List.mem_map.mp hc
      exact hqueue c' hc')
  refine ⟨?_, h.below, ?_, ?_, ?_⟩
  · have hstorage : ReducerWorld.storage { w with
        engine := (w.engine.writeCheckpoint v f number).1
        queue := w.queue ++ [(number, (w.engine.writeCheckpoint v f number).2, w.final)]
        saved := w.final } v
        = (w.storage v).push ⟨number, (w.engine.writeCheckpoint v f number).2, v.works w.final⟩ := by
      rw [storage, ReducerStorage.push, storage, List.map_append]
      rfl
    rw [hkeep, hstorage]
    exact hinv
  · rintro b (hb | hb)
    · exact h.finality b (.inl hb)
    · have hb : b ∈ OrdMap.keep w.blocks (· ≤ f) := hb
      exact ⟨f, hf, by grind⟩
  · show v.groupBy <+: (w.engine.writeCheckpoint v f number).1.columns
    rw [hframe.1]
    exact h.columns
  · show ∀ (b : BlockNumber) (width : Nat),
      (w.engine.writeCheckpoint v f number).1.emitGrowth[b]? = some width → _
    rw [hframe.2]
    exact h.growth

theorem Inv.commit (h : w.Inv v) {c : Nat × WriteBatch × Chain Row}
    {queue : List (Nat × WriteBatch × Chain Row)} (hq : w.queue = c :: queue) :
    Inv v { w with
      store := w.store.commit c.2.1
      number := c.1
      queue := queue
      committed := c.2.2 } := by
  refine ⟨?_, h.below, h.finality, h.columns, h.growth⟩
  have hqueue : (w.storage v).queue = ⟨c.1, c.2.1, v.works c.2.2⟩ ::
      queue.map fun c => ⟨c.1, c.2.1, v.works c.2.2⟩ := by
    rw [storage, hq]
    rfl
  exact h.engine.commit hqueue

theorem Inv.reload (h : w.Inv v) (hq : w.queue = []) :
    Inv v { w with
      engine := w.engine.reload v w.store
      blocks := w.saved
      final := w.saved } := by
  refine ⟨?_, ⟨fun _ _ hr => hr, fun _ _ _ hb hn => absurd hb hn⟩, ?_, ?_, ?_⟩
  · refine h.engine.reload ?_
    rw [storage, hq]
    rfl
  · rintro b (hb | hb) <;> exact h.finality b (.inr hb)
  · show v.groupBy <+: w.engine.columns.take v.groupBy.length
    exact List.prefix_take_iff.mpr ⟨h.columns, Nat.le_refl _⟩
  · intro b width hw
    simp [ReducerEngine.reload] at hw

theorem evict_columns (r : ReducerEngine) (cap number : Nat) :
    (r.evict cap number).columns = r.columns ∧
      (r.evict cap number).emitGrowth = r.emitGrowth := by
  unfold ReducerEngine.evict
  dsimp only
  split
  · exact ⟨rfl, rfl⟩
  · split <;> exact ⟨rfl, rfl⟩

theorem Inv.evict (h : w.Inv v) (cap : Nat) :
    Inv v { w with engine := w.engine.evict cap w.number } := by
  have hframe := evict_columns w.engine cap w.number
  refine ⟨h.engine.evict cap, h.below, h.finality, ?_, ?_⟩
  · show v.groupBy <+: (w.engine.evict cap w.number).columns
    rw [hframe.1]
    exact h.columns
  · show ∀ (b : BlockNumber) (width : Nat),
      (w.engine.evict cap w.number).emitGrowth[b]? = some width → _
    rw [hframe.2]
    exact h.growth

/-- **Every call of a timely run keeps the invariant.** -/
theorem Inv.step (h : w.Inv v) {w' : ReducerWorld} (hs : ReducerStep v True w w') : w'.Inv v := by
  cases hs with
  | processBlock block rows r out hnew hok => exact h.insert hnew hok
  | failedBlock block rows r e p hnew herr hp hfin =>
    exact h.undoBlock hnew herr hp (h.final_le hfin)
  | rollback p hp => exact h.rollback (h.final_le hp)
  | advanceFinality block hmono hmax => exact h.advanceFinality hmono hmax
  | writeCheckpoint number f hf hnumber hqueue htimely =>
    exact h.writeCheckpoint hf hnumber hqueue (htimely trivial)
  | commit c queue hq => exact h.commit hq
  | reload hq => exact h.reload hq
  | evict cap => exact h.evict cap

end ReducerWorld

variable {v : ReducerShape} {w : ReducerWorld}

theorem ReducerRun.inv (h : ReducerRun v True w) : w.Inv v := by
  obtain ⟨st, hst, hsteps⟩ := h
  induction hsteps with
  | refl =>
    have hreads : (ReducerEngine.new v st).readsStorage = false := by
      show st.storesState v.name = false
      rw [Store.storesState, List.any_eq_false]
      rintro ⟨⟨name, k⟩, d⟩ he
      rw [ExtTreeMap.mem_toList_iff_getElem?_eq_some] at he
      simp only [beq_iff_eq]
      rintro rfl
      rw [(hst k).1] at he
      cases he
    have hstore : StoreRep v st (v.works ∅) := by
      rw [ReducerShape.works_empty]
      refine ⟨fun _ _ => rfl, ?_, ?_⟩
      · intro k d hd
        rw [(hst k).1] at hd
        cases hd
      · intro k mk
        rw [(hst k).2]
        simp [ReducerShape.initial]
    refine ⟨⟨?_, ?_, ?_, ?_, ?_, List.nodup_nil, ?_, ?_, ?_, ⟨hstore, rfl⟩, ?_, .nil, ?_⟩,
      ⟨by simp, by simp⟩, by simp, List.prefix_refl _, ?_⟩
    · intro k id
      simp [ReducerEngine.new]
    · intro j g hg
      simp [ReducerEngine.new] at hg
    · intro j g hg
      simp [ReducerEngine.new] at hg
    · intro b ids hb
      simp [ReducerEngine.new] at hb
    · intro j g hg
      simp [ReducerEngine.new] at hg
    · intro j
      simp [ReducerEngine.new]
    · exact fun k _ => ⟨rfl, rfl, rfl, by simp [ReducerWorld.storage]⟩
    · intro _ k _
      rw [ReducerShape.works_empty]
    · simp [ReducerWorld.storage]
    · intro j g hg
      simp [ReducerEngine.new] at hg
    · intro b width hw
      simp [ReducerEngine.new] at hw
  | tail _ hstep ih => exact ih.step hstep

/-! ## The state of a reducer along a run -/

/-- **Reducer state is a from-scratch fold.** In every state of a timely run:

* a group in memory holds the fold of its rows in the surviving blocks, and one that is not in
  memory loads it;
* the output of a block is what the same fold emits on its rows, in row order;
* the committed state and MAP entries of each group are the fold of the blocks that were at or
  below finality at the last committed checkpoint. -/
theorem reducer_run_is_fold (hr : ReducerRun v True w) :
    (∀ k id, w.engine.ids[k]? = some id → ∃ g : ReducerGroup, w.engine.all[id]? = some g ∧
      g.key = k ∧ g.state = (v.fold w.blocks k).values ∧
      ∀ mk, g.maps.entries[mk]? = (v.fold w.blocks k).maps mk) ∧
    (∀ k, w.engine.ids[k]? = none → ∃ maps : StateMaps,
      w.engine.loadState v w.store k = .ok ((v.fold w.blocks k).values, maps) ∧
      ∀ mk, maps.entries[mk]? = (v.fold w.blocks k).maps mk) ∧
    (∀ block rows r out, (∀ b ∈ w.blocks, b < block) →
      w.engine.processBlock v w.store block rows = (r, .ok out) →
      out.map (fun row name => SourceRow.column row name)
        = (v.foldEmits w.blocks rows).map (emittedRow v rows)) ∧
    (∀ k, (∀ d, w.store.reducerFinalized[(v.name, k)]? = some d →
        d = Datum.values (v.fold w.committed k).values) ∧
      (w.store.reducerFinalized[(v.name, k)]? = none →
        ∀ (b : BlockNumber) (rows : List Row), w.committed[b]? = some rows →
          v.ownRows rows k = []) ∧
      ∀ mk, (w.store.reducerMaps[(v.name, k)]?.getD ∅)[mk]?
        = ((v.fold w.committed k).maps mk).map Datum.value) := by
  have hi := hr.inv
  refine ⟨?_, ?_, ?_, ?_⟩
  · intro k id hid
    obtain ⟨g, hg, rfl⟩ := (hi.engine.ids k id).mp hid
    obtain ⟨hstate, hentries⟩ := (hi.engine.groups id g hg).current
    rw [ReducerShape.value_works] at hstate hentries
    exact ⟨g, hg, rfl, hstate, hentries⟩
  · intro k hk
    obtain ⟨hwork, -, hcommitted, -⟩ := hi.engine.absent k hk
    obtain ⟨state, maps, hload, hs, -, hm⟩ :=
      ReducerEngine.loadState_ok (r := w.engine) (k := k) hi.engine.queue.store (by
        intro hreads
        rw [hcommitted, ← hwork]
        exact hi.engine.unread hreads k hk)
    rw [hcommitted, ← hwork, ReducerShape.value_works] at hs hm
    subst hs
    exact ⟨maps, hload, hm⟩
  · intro block rows r out hnew hok
    obtain ⟨r', result, done, heq, -, -, hout⟩ := (hi.start hnew).processBlock rows
    have heq : w.engine.processBlock v w.store block rows = (r', result) := heq
    rw [hok] at heq
    obtain ⟨rfl, rfl⟩ := Prod.mk.inj heq
    obtain ⟨-, order, emits, hkeeps, hemits, hover, rfl, -, -⟩ := hout out rfl
    have hempty : EmitsRep { columns := w.engine.columns } [] := .nil
    have hrep := Emits.pushAll_rep hempty _ (by rw [← hemits]; exact hover)
    rw [← hemits, List.nil_append] at hrep
    refine takeOutput_spec hrep.1 (hi.columns.trans hrep.2.1) ?_ ?_
    · intro entry hentry
      obtain ⟨e, he, heq⟩ := emissions_mem hentry
      have hmem := hkeeps.mem e he
      rw [List.mem_zipIdx_iff_getElem?] at hmem
      rw [← heq]
      exact (List.getElem?_eq_some_iff.mp hmem).1
    · rw [mergeSort_emissions hkeeps, ReducerShape.foldEmits]
      congr 1
      funext k
      exact ReducerShape.value_works _ _
  · intro k
    have hstore := hi.engine.queue.store
    refine ⟨?_, ?_, ?_⟩
    · intro d hd
      rw [← ReducerShape.value_works]
      exact hstore.stored k d hd
    · intro hnone b rows hb
      have hempty : v.works w.committed k = ∅ := hstore.missing k hnone
      by_contra hne
      have hget : (v.works w.committed k)[b]? = some (v.ownRows rows k) := by
        rw [ReducerShape.works, OrdMap.getElem?_mapEntries, hb, Option.bind_some]
        exact if_neg hne
      rw [hempty] at hget
      simp at hget
    · intro mk
      rw [← ReducerShape.value_works]
      exact hstore.maps k mk

/-! ### A block below the last finality

On a chain with gaps the finality may be above the newest block. A block that arrives at or below
it changes groups that no advance of finality has marked yet, so a checkpoint before the next
advance does not store it. -/

/-- The sum of the first column of `trades`, in one group. -/
def totalReducer : ReducerShape where
  name := "totals"
  source := "trades"
  groupBy := []
  defaultState := [.uint64 0]
  mapFields := 0
  runtime :=
    { process := fun values _ row =>
        { values := match values, row.values with
            | [.uint64 n], .uint64 x :: _ => [.uint64 (n + x)]
            | values, _ => values
          maps := []
          emits := []
          error := none }
      batched := false
      values_length := by
        intro values maps row
        dsimp only
        split <;> rfl
      maps_mem := Runtime.mem_nil }

/-- Block 3, finality 10, and a checkpoint that is committed. -/
def totalSaved : ReducerWorld :=
  let r := (ReducerEngine.processBlock totalReducer (.new totalReducer {}) {} 3 [tradeRow 1]).1
  let r := r.advanceFinality 10
  let blocks := (∅ : Chain Row).insert 3 [tradeRow 1]
  { engine := (r.writeCheckpoint totalReducer 10 1).1
    store := ({} : Store).commit (r.writeCheckpoint totalReducer 10 1).2
    number := 1
    queue := []
    blocks := blocks
    finality := some 10
    final := OrdMap.keep blocks (· ≤ 10)
    saved := OrdMap.keep blocks (· ≤ 10)
    committed := OrdMap.keep blocks (· ≤ 10) }

theorem ok_of_toBool {α : Type} {result : Except Error α} (h : result.toBool = true) :
    ∃ out, result = .ok out := by
  cases result with
  | error e => cases h
  | ok out => exact ⟨out, rfl⟩

private theorem totalSaved_run (timely : Prop) : ReducerRun totalReducer timely totalSaved := by
  refine ⟨{}, fun k => ⟨by simp, by simp⟩, ?_⟩
  have hok : (ReducerEngine.processBlock totalReducer (.new totalReducer {}) {} 3
      [tradeRow 1]).2.toBool = true := by decide +kernel
  obtain ⟨out, hout⟩ := ok_of_toBool hok
  have h₁ : Relation.ReflTransGen (ReducerStep totalReducer timely)
      { engine := ReducerEngine.new totalReducer {}, store := {} } _ :=
    .tail .refl (.processBlock 3 [tradeRow 1] _ out (by simp) (Prod.ext rfl hout))
  have h₂ := h₁.tail (.advanceFinality 10 (by simp) (by decide))
  have h₃ := h₂.tail (.writeCheckpoint 1 10 rfl (by simp) (by simp) (by
    intro _ b hb hle
    show b ∈ OrdMap.keep ((∅ : Chain Row).insert 3 [tradeRow 1]) (· ≤ 10)
    have hb : b ∈ (∅ : Chain Row).insert 3 [tradeRow 1] := hb
    grind))
  have h₄ := h₃.tail (.commit _ [] rfl)
  exact h₄

/-- Then the blocks 12 and 14, and a rollback to block 12. -/
def totalRolledBack : ReducerWorld :=
  let r := (totalSaved.engine.processBlock totalReducer totalSaved.store 12 [tradeRow 2]).1
  let r := (r.processBlock totalReducer totalSaved.store 14 [tradeRow 4, tradeRow 5]).1
  let blocks := (totalSaved.blocks.insert 12 [tradeRow 2]).insert 14 [tradeRow 4, tradeRow 5]
  { totalSaved with engine := r.rollback 12, blocks := OrdMap.keep blocks (· ≤ 12) }

private theorem totalRolledBack_run : ReducerRun totalReducer True totalRolledBack := by
  obtain ⟨st, hst, hsteps⟩ := totalSaved_run True
  have hok : (totalSaved.engine.processBlock totalReducer totalSaved.store 12
      [tradeRow 2]).2.toBool = true := by decide +kernel
  obtain ⟨out, hout⟩ := ok_of_toBool hok
  have hok' : ((totalSaved.engine.processBlock totalReducer totalSaved.store 12
      [tradeRow 2]).1.processBlock totalReducer totalSaved.store 14
        [tradeRow 4, tradeRow 5]).2.toBool = true := by decide +kernel
  obtain ⟨out', hout'⟩ := ok_of_toBool hok'
  have h₁ := hsteps.tail (.processBlock 12 [tradeRow 2] _ out (by
    intro b hb
    have hb : b ∈ (∅ : Chain Row).insert 3 [tradeRow 1] := hb
    have h3 : b = 3 := by grind
    subst h3
    decide) (Prod.ext rfl hout))
  have h₂ := h₁.tail (.processBlock 14 [tradeRow 4, tradeRow 5] _ out' (by
    intro b hb
    have hb : b ∈ ((∅ : Chain Row).insert 3 [tradeRow 1]).insert 12 [tradeRow 2] := hb
    have hle : b = 3 ∨ b = 12 := by grind
    rcases hle with rfl | rfl
    · decide
    · decide) (Prod.ext rfl hout'))
  refine ⟨st, hst, h₂.tail (.rollback 12 ?_)⟩
  intro f hf
  obtain rfl := Option.some.inj hf
  decide

/-- The group has the sum of the blocks 3 and 12, and storage that of block 3. -/
theorem reducer_run_is_fold_totals :
    ReducerRun totalReducer True totalRolledBack ∧
    (∃ g : ReducerGroup, totalRolledBack.engine.all[0]? = some g ∧ g.state = [.uint64 3]) ∧
    ∀ d, totalRolledBack.store.reducerFinalized[("totals", ([] : List UInt8))]? = some d →
      d = Datum.values [.uint64 1] := by
  obtain ⟨hgroups, -, -, hstored⟩ := reducer_run_is_fold totalRolledBack_run
  have hid : totalRolledBack.engine.ids[([] : List UInt8)]? = some 0 := by decide +kernel
  have hfold : (totalReducer.fold totalRolledBack.blocks []).values = [.uint64 3] := by
    decide +kernel
  have hcommitted : (totalReducer.fold totalRolledBack.committed []).values = [.uint64 1] := by
    decide +kernel
  obtain ⟨g, hg, -, hstate, -⟩ := hgroups [] 0 hid
  refine ⟨totalRolledBack_run, ⟨g, hg, hstate.trans hfold⟩, fun d hd => ?_⟩
  rw [(hstored []).1 d hd, hcommitted]

/-- Then block 5, and another checkpoint at finality 10. -/
def totalLate : ReducerWorld :=
  let r := (totalSaved.engine.processBlock totalReducer totalSaved.store 5 [tradeRow 2]).1
  let blocks := totalSaved.blocks.insert 5 [tradeRow 2]
  { totalSaved with
    engine := (r.writeCheckpoint totalReducer 10 2).1
    store := totalSaved.store.commit (r.writeCheckpoint totalReducer 10 2).2
    number := 2
    blocks := blocks
    saved := OrdMap.keep blocks (· ≤ 10)
    committed := OrdMap.keep blocks (· ≤ 10) }

/-- The second checkpoint stores only the first block. -/
theorem totalLate_stored : (totalLate.store.reducerFinalized[("totals", ([] : List UInt8))]?).map
    (fun d => match d with
      | .values values => values
      | _ => []) = some [.uint64 1] := by
  decide +kernel

/-- What is committed is not always the fold of the blocks at or below finality: block 5 is below
finality 10 and missing. -/
theorem reducer_checkpoint_omits_late_block :
    ¬ ∀ (v : ReducerShape) (w : ReducerWorld), ReducerRun v False w →
      ∀ k d, w.store.reducerFinalized[(v.name, k)]? = some d →
        d = Datum.values (v.fold w.committed k).values := by
  intro hall
  have hrun : ReducerRun totalReducer False totalLate := by
    obtain ⟨st, hst, hsteps⟩ := totalSaved_run False
    have hok : (totalSaved.engine.processBlock totalReducer totalSaved.store 5
        [tradeRow 2]).2.toBool = true := by decide +kernel
    obtain ⟨out, hout⟩ := ok_of_toBool hok
    have h₁ := hsteps.tail (.processBlock 5 [tradeRow 2] _ out (by
      intro b hb
      have hb : b ∈ (∅ : Chain Row).insert 3 [tradeRow 1] := hb
      have h3 : b = 3 := by grind
      subst h3
      decide) (Prod.ext rfl hout))
    have h₂ := h₁.tail (.writeCheckpoint 2 10 rfl (by decide) (by simp [totalSaved]) False.elim)
    have h₃ := h₂.tail (.commit _ [] rfl)
    exact ⟨st, hst, h₃⟩
  obtain ⟨d, hd, hvalues⟩ := Option.map_eq_some_iff.mp totalLate_stored
  have hfold : (totalReducer.fold totalLate.committed []).values = [.uint64 3] := by decide +kernel
  rw [hall totalReducer totalLate hrun [] d hd, hfold] at hvalues
  simp at hvalues

end Settle
