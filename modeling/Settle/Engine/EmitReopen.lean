import Settle.Engine.ChainEmits

/-!
# The emit columns across a reopen

The emit columns of a session, a run without reopen, are a function of its surviving blocks, and so
are those that an open learns from the blocks that it replays. An open replays only the blocks
above the durable block, so the two differ when a name was used first by a block that is durable
(`reopen_forgets_names`). The next blocks tell them apart exactly when they do not use their names
alike on both; when leaving the durable blocks out changes no column, none do
(`reopen_keeps_columns`).
-/

namespace Settle

open Std

/-! ## Sessions -/

/-- The block is above the durable block. -/
def aboveDurable (durable : Option BlockNumber) (b : BlockNumber) : Bool :=
  match durable with
  | none => true
  | some d => d < b

namespace ReducerEngine

/-- `undo_ingest` on the reducer: back to the latest block before the call, or, without one, to
the stored state. -/
def undoIngest (v : ReducerShape) (st : Store) (block : Option BlockNumber) (r : ReducerEngine) :
    ReducerEngine :=
  match block with
  | some p => r.rollback p
  | none => r.reload v st

end ReducerEngine

/-- The blocks that an undo leaves. -/
def undoBlocks (block : Option BlockNumber) (blocks : Chain Row) : Chain Row :=
  match block with
  | some p => OrdMap.keep blocks (· ≤ p)
  | none => ∅

/-- A reducer between two opens, with the blocks that the engine above it has on record. -/
structure ReducerSession where
  world : ReducerWorld
  /-- the latest block of the engine, over all its tables -/
  latest : Option BlockNumber := none
  /-- the latest block before the current call -/
  start : Option BlockNumber := none
  durable : Option BlockNumber := none

namespace ReducerSession

/-- A block of any table. -/
def withBlock (s : ReducerSession) (block : BlockNumber) : ReducerSession :=
  { s with latest := if s.latest.any (block ≤ ·) then s.latest else some block }

/-- The undo of a call that left the reducer in the state `r`. -/
def undone (s : ReducerSession) (v : ReducerShape) (r : ReducerEngine) : ReducerSession :=
  { s with
    world := { s.world with
      engine := r.undoIngest v s.world.store s.start
      blocks := undoBlocks s.start s.world.blocks
      final := undoBlocks s.start s.world.final }
    latest := s.start }

/-- The end of a call: the nodes become final at `f`. -/
def advanced (s : ReducerSession) (f : BlockNumber) : ReducerSession :=
  { s with
    world := { s.world with
      engine := s.world.engine.advanceFinality f
      finality := some f
      final := OrdMap.keep s.world.blocks (· ≤ f) }
    start := s.latest }

/-- The end of a call with a checkpoint at finality `f`: the durable block moves to it, but not
above the latest block. -/
def checkpointed (s : ReducerSession) (v : ReducerShape) (f : BlockNumber) (number : Nat) :
    ReducerSession :=
  let w := (s.advanced f).world
  { s with
    world := { w with
      engine := (w.engine.writeCheckpoint v f number).1
      queue := w.queue ++ [(number, (w.engine.writeCheckpoint v f number).2,
        OrdMap.keep w.blocks (· ≤ f))]
      saved := OrdMap.keep w.blocks (· ≤ f) }
    start := s.latest
    durable := match s.latest with
      | some l => some (min f l)
      | none => s.durable }

end ReducerSession

/-- One step of a session. The blocks of a call come above the latest block before it. A call
without a block to go back to waits for no ack. A checkpoint is part of the end of a call, after
its finality, and is left out when the durable block is there already. -/
inductive SessionStep (v : ReducerShape) : ReducerSession → ReducerSession → Prop
  | processBlock {s} (block : BlockNumber) (rows : List Row) (r : ReducerEngine) (out : List Row)
      (hnew : ∀ b ∈ s.world.blocks, b < block) (hcall : ∀ l, s.start = some l → l < block)
      (hok : s.world.engine.processBlock v s.world.store block rows = (r, .ok out)) :
      SessionStep v s (ReducerSession.withBlock { s with
        world := { s.world with engine := r, blocks := s.world.blocks.insert block rows } } block)
  | otherBlock {s} (block : BlockNumber) (hcall : ∀ l, s.start = some l → l < block) :
      SessionStep v s (s.withBlock block)
  | failedBlock {s} (block : BlockNumber) (rows : List Row) (r : ReducerEngine) (e : Error)
      (hnew : ∀ b ∈ s.world.blocks, b < block) (hcall : ∀ l, s.start = some l → l < block)
      (herr : s.world.engine.processBlock v s.world.store block rows = (r, .error e))
      (hfirst : s.start = none → s.world.queue = []) :
      SessionStep v s (s.undone v r)
  | failedCall {s} (hfirst : s.start = none → s.world.queue = []) :
      SessionStep v s (s.undone v s.world.engine)
  | rollback {s} (p : BlockNumber) (hp : ∀ f, s.world.finality = some f → f ≤ p)
      (hlatest : p ≤ s.latest.getD 0) :
      SessionStep v s { s with
        world := { s.world with
          engine := s.world.engine.rollback p
          blocks := OrdMap.keep s.world.blocks (· ≤ p) }
        latest := some p
        start := some p }
  | advanceFinality {s} (f : BlockNumber) (hmono : ∀ f', s.world.finality = some f' → f' ≤ f)
      (hmax : f ≠ BlockNumber.max) :
      SessionStep v s (s.advanced f)
  | writeCheckpoint {s} (f : BlockNumber) (number : Nat)
      (hmono : ∀ f', s.world.finality = some f' → f' ≤ f) (hmax : f ≠ BlockNumber.max)
      (hnumber : s.world.number < number) (hqueue : ∀ c ∈ s.world.queue, c.1 < number)
      (hdurable : ∀ d, s.durable = some d → d < f) :
      SessionStep v s (s.checkpointed v f number)
  | commit {s} (c : Nat × WriteBatch × Chain Row) (queue : List (Nat × WriteBatch × Chain Row))
      (hq : s.world.queue = c :: queue) :
      SessionStep v s { s with
        world := { s.world with
          store := s.world.store.commit c.2.1
          number := c.1
          queue := queue
          committed := c.2.2 } }
  | evict {s} (cap : Nat) :
      SessionStep v s { s with
        world := { s.world with engine := s.world.engine.evict cap s.world.number } }

/-- The states of a session that opens on storage without state of the reducer. -/
def SessionRun (v : ReducerShape) (s : ReducerSession) : Prop :=
  ∃ st : Store, st.lacks v ∧ Relation.ReflTransGen (SessionStep v)
    { world := { engine := ReducerEngine.new v st, store := st } } s

variable {v : ReducerShape} {s : ReducerSession}

/-- What holds along every session. -/
structure SessionInv (v : ReducerShape) (s : ReducerSession) : Prop where
  inv : s.world.Inv v
  columns : ReducerEngine.ColumnsOf v (v.chainUses s.world.blocks) s.world.engine
  room : HasRoom v.groupBy (usedNames (v.chainUses s.world.blocks).toList)
  runs : v.ChainRuns s.world.blocks
  saved : s.world.saved = OrdMap.keep s.world.blocks (!aboveDurable s.durable ·)
  newest : ∀ b ∈ s.world.blocks, ∃ l, s.latest = some l ∧ b ≤ l
  started : ∀ p, s.start = some p → ∃ l, s.latest = some l ∧ p ≤ l
  final : ∀ b ∈ s.world.final, ∃ p, s.start = some p ∧ b ≤ p
  durable : ∀ d, s.durable = some d → ∃ f p, s.world.finality = some f ∧ d ≤ f ∧
    s.start = some p ∧ d ≤ p
  below : s.world.finality ≠ some BlockNumber.max

/-- A call that leaves the columns alone. -/
theorem ReducerEngine.ColumnsOf.of_eq {uses : BTreeMap BlockNumber (List String)}
    {r r' : ReducerEngine} (h : ReducerEngine.ColumnsOf v uses r) (hcols : r'.columns = r.columns)
    (hgrowth : r'.emitGrowth = r.emitGrowth) : ReducerEngine.ColumnsOf v uses r' := by
  refine ⟨?_, ?_⟩
  · rw [hcols]
    exact h.columns
  · rw [hgrowth]
    exact h.growth

/-- No block, no names. -/
theorem ReducerEngine.ColumnsOf.of_reload {r : ReducerEngine} (h : v.groupBy <+: r.columns)
    (st : Store) : ReducerEngine.ColumnsOf v ∅ (r.reload v st) := by
  have hempty : (∅ : BTreeMap BlockNumber (List String)).toList = [] :=
    ExtTreeMap.toList_eq_nil_iff.mpr rfl
  refine ⟨?_, ?_⟩
  · rw [hempty, ReducerEngine.reload, ← List.prefix_iff_eq_take.mp h]
    rfl
  · rw [hempty]
    exact ExtTreeMap.toList_eq_nil_iff.mpr rfl

theorem chainUses_empty : v.chainUses ∅ = ∅ := OrdMap.mapEntries_empty _

/-- The names of fewer blocks. -/
theorem usedNames_keep {uses : BTreeMap BlockNumber (List String)} (p : BlockNumber → Bool) :
    ∀ n ∈ usedNames (OrdMap.keep uses p).toList, n ∈ usedNames uses.toList := by
  intro n hn
  rw [usedNames, OrdMap.toList_keep] at hn
  obtain ⟨e, he, hmem⟩ := List.mem_flatMap.mp hn
  exact List.mem_flatMap.mpr ⟨e, (List.mem_filter.mp he).1, hmem⟩

namespace SessionInv

/-- The durable blocks stay when the blocks above `p` go. -/
theorem keep_saved (h : SessionInv v s) {p : BlockNumber}
    (hp : ∀ d, s.durable = some d → d ≤ p) :
    s.world.saved
      = OrdMap.keep (OrdMap.keep s.world.blocks (· ≤ p)) (!aboveDurable s.durable ·) := by
  rw [h.saved, OrdMap.keep_keep]
  congr 1
  funext b
  cases hd : s.durable with
  | none => simp [aboveDurable]
  | some d =>
    by_cases hlt : d < b
    · simp [aboveDurable, hlt]
    · have hb : b ≤ p := UInt64.le_trans (UInt64.not_lt.mp hlt) (hp d hd)
      simp [aboveDurable, hlt, hb]

theorem latest_withBlock (s : ReducerSession) (block : BlockNumber) :
    ∃ l, (s.withBlock block).latest = some l ∧ block ≤ l ∧
      ∀ l', s.latest = some l' → l' ≤ l := by
  rw [ReducerSession.withBlock]
  cases hl : s.latest with
  | none => exact ⟨block, rfl, UInt64.le_refl _, fun l' hl' => by cases hl'⟩
  | some l =>
    by_cases hle : block ≤ l
    · refine ⟨l, by simp [hle], hle, ?_⟩
      intro l' hl'
      obtain rfl := Option.some.inj hl'
      exact UInt64.le_refl _
    · refine ⟨block, by simp [hle], UInt64.le_refl _, ?_⟩
      intro l' hl'
      obtain rfl := Option.some.inj hl'
      exact UInt64.le_of_lt (UInt64.not_le.mp hle)

/-- A block of another table. -/
theorem withBlock (h : SessionInv v s) (block : BlockNumber) :
    SessionInv v (s.withBlock block) := by
  obtain ⟨l, hl, -, hle⟩ := latest_withBlock s block
  refine ⟨h.inv, h.columns, h.room, h.runs, h.saved, ?_, ?_, h.final, h.durable, h.below⟩
  · intro b hb
    obtain ⟨l', hl', hb'⟩ := h.newest b hb
    exact ⟨l, hl, UInt64.le_trans hb' (hle l' hl')⟩
  · intro p hp
    obtain ⟨l', hl', hp'⟩ := h.started p hp
    exact ⟨l, hl, UInt64.le_trans hp' (hle l' hl')⟩

/-- A block of the reducer that succeeds. -/
theorem processBlock (h : SessionInv v s) {block : BlockNumber} {rows out : List Row}
    {r : ReducerEngine} (hnew : ∀ b ∈ s.world.blocks, b < block)
    (hcall : ∀ l, s.start = some l → l < block)
    (hok : s.world.engine.processBlock v s.world.store block rows = (r, .ok out)) :
    SessionInv v (ReducerSession.withBlock { s with
      world := { s.world with engine := r, blocks := s.world.blocks.insert block rows } } block) := by
  have hnewUses : ∀ b ∈ v.chainUses s.world.blocks, b < block := fun b hb =>
    hnew b (ReducerShape.mem_chainUses.mp hb)
  rcases h.inv.processBlock hnew rows with
    ⟨hrows, hroom, r', heq, hcols, hgrowth⟩ | ⟨-, r', e, heq, -⟩
  · rw [hok] at heq
    obtain ⟨rfl, -⟩ := Prod.mk.inj heq
    obtain ⟨l, hl, hbl, hle⟩ := latest_withBlock { s with
      world := { s.world with engine := r, blocks := s.world.blocks.insert block rows } } block
    refine ⟨h.inv.insert hnew hok, ?_, ?_, h.runs.insert hnew hrows, ?_, ?_, ?_, h.final,
      h.durable, h.below⟩
    · show ReducerEngine.ColumnsOf v (v.chainUses (s.world.blocks.insert block rows)) r
      rw [ReducerShape.chainUses_insert hnew]
      exact h.columns.processBlock hnewUses hcols hgrowth
    · show HasRoom v.groupBy (usedNames (v.chainUses (s.world.blocks.insert block rows)).toList)
      rw [ReducerShape.chainUses_insert hnew, OrdMap.toList_insert_of_lt hnewUses, usedNames,
        List.flatMap_append]
      refine hasRoom_append.mpr ⟨h.room, ?_⟩
      rw [h.columns.columns] at hroom
      simpa [usedNames] using hroom
    · show s.world.saved = OrdMap.keep (s.world.blocks.insert block rows) (!aboveDurable s.durable ·)
      -- the block is above the durable one
      have habove : aboveDurable s.durable block = true := by
        cases hd : s.durable with
        | none => rfl
        | some d =>
          obtain ⟨-, p, -, -, hp, hdp⟩ := h.durable d hd
          have hlt : d < block := UInt64.lt_of_le_of_lt hdp (hcall p hp)
          simpa [aboveDurable] using hlt
      rw [h.saved]
      refine ExtTreeMap.ext_getElem? ?_
      intro b
      rw [OrdMap.getElem?_keep, OrdMap.getElem?_keep, ExtTreeMap.getElem?_insert]
      by_cases hb : compare block b = .eq
      · obtain rfl := Std.LawfulEqCmp.eq_of_compare hb
        simp [habove]
      · simp [hb]
    · intro b hb
      have hb : b ∈ s.world.blocks.insert block rows := hb
      refine ⟨l, hl, ?_⟩
      rcases ExtTreeMap.mem_insert.mp hb with heq | hb
      · obtain rfl := Std.LawfulEqCmp.eq_of_compare heq
        exact hbl
      · exact UInt64.le_trans (UInt64.le_of_lt (hnew b hb)) hbl
    · intro p hp
      obtain ⟨l', hl', hp'⟩ := h.started p hp
      exact ⟨l, hl, UInt64.le_trans hp' (hle l' hl')⟩
  · rw [hok] at heq
    cases heq

/-- Without a block to go back to nothing is saved or final. -/
theorem saved_empty (h : SessionInv v s) (hstart : s.start = none) :
    s.world.saved = ∅ ∧ s.world.final = ∅ := by
  have hdurable : s.durable = none := by
    cases hd : s.durable with
    | none => rfl
    | some d =>
      obtain ⟨-, p, -, -, hp, -⟩ := h.durable d hd
      rw [hstart] at hp
      cases hp
  refine ⟨?_, ?_⟩
  · rw [h.saved, hdurable]
    refine ExtTreeMap.ext_getElem? ?_
    intro b
    simp [aboveDurable]
  · refine ExtTreeMap.ext_getElem? ?_
    intro b
    rw [ExtTreeMap.getElem?_empty]
    apply ExtTreeMap.getElem?_eq_none
    intro hb
    obtain ⟨p, hp, -⟩ := h.final b hb
    rw [hstart] at hp
    cases hp

/-- **The undo of a call**, after the block that failed or a failure elsewhere. -/
theorem undone (h : SessionInv v s) {r : ReducerEngine}
    (hcols : r.columns = s.world.engine.columns) (hgrowth : r.emitGrowth = s.world.engine.emitGrowth)
    (hback : ∀ p, s.start = some p → (∀ b ∈ s.world.final, b ≤ p) →
      ReducerWorld.Inv v { s.world with
        engine := r.rollback p
        blocks := OrdMap.keep s.world.blocks (· ≤ p) })
    (hfirst : s.start = none → s.world.queue = []) : SessionInv v (s.undone v r) := by
  cases hstart : s.start with
  | some p =>
    have hle : ∀ b ∈ s.world.final, b ≤ p := by
      intro b hb
      obtain ⟨p', hp', hb'⟩ := h.final b hb
      rw [hstart] at hp'
      obtain rfl := Option.some.inj hp'
      exact hb'
    have hfinal : OrdMap.keep s.world.final (· ≤ p) = s.world.final :=
      OrdMap.keep_eq_self _ fun b hb => by simpa using hle b hb
    have hsession : s.undone v r = { s with
        world := { s.world with
          engine := r.rollback p
          blocks := OrdMap.keep s.world.blocks (· ≤ p) }
        latest := some p } := by
      rw [ReducerSession.undone, hstart]
      simp only [ReducerEngine.undoIngest, undoBlocks, hfinal]
    have hdurable : ∀ d, s.durable = some d → d ≤ p := by
      intro d hd
      obtain ⟨-, p', -, -, hp', hdp⟩ := h.durable d hd
      rw [hstart] at hp'
      obtain rfl := Option.some.inj hp'
      exact hdp
    rw [hsession]
    refine ⟨hback p hstart hle, ?_, ?_, h.runs.keep p, h.keep_saved hdurable, ?_, ?_, h.final,
      h.durable, h.below⟩
    · show ReducerEngine.ColumnsOf v (v.chainUses (OrdMap.keep s.world.blocks (· ≤ p)))
        (r.rollback p)
      rw [ReducerShape.chainUses_keep]
      exact (h.columns.of_eq hcols hgrowth).rollback p
    · show HasRoom v.groupBy
        (usedNames (v.chainUses (OrdMap.keep s.world.blocks (· ≤ p))).toList)
      rw [ReducerShape.chainUses_keep]
      exact h.room.subset (usedNames_keep _)
    · intro b hb
      have hb := ((OrdMap.mem_keep _ _ _).mp hb).2
      exact ⟨p, rfl, by simpa using hb⟩
    · intro p' hp'
      have hp' : s.start = some p' := hp'
      rw [hstart] at hp'
      exact ⟨p, rfl, by rw [Option.some.inj hp']; exact UInt64.le_refl _⟩
  | none =>
    obtain ⟨hsaved, hnofinal⟩ := h.saved_empty hstart
    have hreload : r.reload v s.world.store = s.world.engine.reload v s.world.store := by
      rw [ReducerEngine.reload, ReducerEngine.reload, hcols]
    have hsession : s.undone v r = { s with
        world := { s.world with
          engine := s.world.engine.reload v s.world.store
          blocks := s.world.saved
          final := s.world.saved }
        latest := none } := by
      rw [ReducerSession.undone, hstart, hsaved]
      simp only [ReducerEngine.undoIngest, undoBlocks, hreload]
    have hempty : (v.chainUses ∅).toList = [] :=
      ExtTreeMap.toList_eq_nil_iff.mpr chainUses_empty
    rw [hsession]
    refine ⟨h.inv.reload (hfirst hstart), ?_, ?_, ?_, ?_, ?_, ?_, ?_, h.durable, h.below⟩
    · show ReducerEngine.ColumnsOf v (v.chainUses s.world.saved) _
      rw [hsaved, chainUses_empty]
      exact .of_reload h.inv.columns _
    · show HasRoom v.groupBy (usedNames (v.chainUses s.world.saved).toList)
      rw [hsaved, hempty]
      exact .inl rfl
    · intro b rows hb
      have hb : s.world.saved[b]? = some rows := hb
      simp [hsaved] at hb
    · show s.world.saved = OrdMap.keep s.world.saved _
      rw [hsaved]
      exact (OrdMap.keep_empty _).symm
    · intro b hb
      have hb : b ∈ s.world.saved := hb
      simp [hsaved] at hb
    · intro p hp
      have hp : s.start = some p := hp
      rw [hstart] at hp
      cases hp
    · intro b hb
      have hb : b ∈ s.world.saved := hb
      simp [hsaved] at hb

/-- A fork. -/
theorem rollback (h : SessionInv v s) {p : BlockNumber}
    (hp : ∀ f, s.world.finality = some f → f ≤ p) :
    SessionInv v { s with
      world := { s.world with
        engine := s.world.engine.rollback p
        blocks := OrdMap.keep s.world.blocks (· ≤ p) }
      latest := some p
      start := some p } := by
  have hdurable : ∀ d, s.durable = some d → d ≤ p := by
    intro d hd
    obtain ⟨f, -, hf, hdf, -⟩ := h.durable d hd
    exact UInt64.le_trans hdf (hp f hf)
  refine ⟨h.inv.rollback (h.inv.final_le hp), ?_, ?_, h.runs.keep p, h.keep_saved hdurable, ?_, ?_,
    ?_, ?_, h.below⟩
  · show ReducerEngine.ColumnsOf v (v.chainUses (OrdMap.keep s.world.blocks (· ≤ p)))
      (s.world.engine.rollback p)
    rw [ReducerShape.chainUses_keep]
    exact h.columns.rollback p
  · show HasRoom v.groupBy (usedNames (v.chainUses (OrdMap.keep s.world.blocks (· ≤ p))).toList)
    rw [ReducerShape.chainUses_keep]
    exact h.room.subset (usedNames_keep _)
  · intro b hb
    have hb := ((OrdMap.mem_keep _ _ _).mp hb).2
    exact ⟨p, rfl, by simpa using hb⟩
  · intro p' hp'
    exact ⟨p, rfl, by rw [Option.some.inj hp']; exact UInt64.le_refl _⟩
  · intro b hb
    exact ⟨p, rfl, h.inv.final_le hp b hb⟩
  · intro d hd
    obtain ⟨f, -, hf, hdf, -⟩ := h.durable d hd
    exact ⟨f, p, hf, hdf, rfl, hdurable d hd⟩

/-- The end of a call. -/
theorem advanced (h : SessionInv v s) {f : BlockNumber}
    (hmono : ∀ f', s.world.finality = some f' → f' ≤ f) (hmax : f ≠ BlockNumber.max) :
    SessionInv v (s.advanced f) := by
  obtain ⟨pending, heq⟩ := ReducerEngine.advanceFinality_eq s.world.engine f
  refine ⟨h.inv.advanceFinality hmono hmax, ?_, h.room, h.runs, h.saved, h.newest, ?_, ?_, ?_, ?_⟩
  · show ReducerEngine.ColumnsOf v (v.chainUses s.world.blocks)
      (s.world.engine.advanceFinality f)
    rw [heq]
    exact h.columns.of_eq rfl rfl
  · intro p hp
    exact ⟨p, hp, UInt64.le_refl _⟩
  · intro b hb
    exact h.newest b ((OrdMap.mem_keep _ _ _).mp hb).1
  · intro d hd
    obtain ⟨f', p, hf', hdf, hp, hdp⟩ := h.durable d hd
    obtain ⟨l, hl, hpl⟩ := h.started p hp
    exact ⟨f, l, rfl, UInt64.le_trans hdf (hmono f' hf'), hl, UInt64.le_trans hdp hpl⟩
  · intro hf
    exact hmax (Option.some.inj hf)

/-- The end of a call with a checkpoint: every block at or below finality is durable. -/
theorem checkpointed (h : SessionInv v s) {f : BlockNumber} {number : Nat}
    (hmono : ∀ f', s.world.finality = some f' → f' ≤ f) (hmax : f ≠ BlockNumber.max)
    (hnumber : s.world.number < number) (hqueue : ∀ c ∈ s.world.queue, c.1 < number) :
    SessionInv v (s.checkpointed v f number) := by
  have hadv := h.advanced hmono hmax
  have hinv := hadv.inv.writeCheckpoint rfl hnumber hqueue fun b hb hle =>
    (OrdMap.mem_keep _ _ _).mpr ⟨hb, by simpa using hle⟩
  have hframe := hadv.inv.writeCheckpoint_columns f number
  refine ⟨hinv, hadv.columns.of_eq hframe.1 hframe.2, h.room, h.runs, ?_, h.newest, hadv.started,
    hadv.final, ?_, hadv.below⟩
  · show OrdMap.keep s.world.blocks (· ≤ f)
      = OrdMap.keep s.world.blocks (!aboveDurable (s.checkpointed v f number).durable ·)
    refine ExtTreeMap.ext_getElem? ?_
    intro b
    rw [OrdMap.getElem?_keep, OrdMap.getElem?_keep]
    cases hb : s.world.blocks[b]? with
    | none => simp
    | some rows =>
      obtain ⟨l, hl, hbl⟩ := h.newest b (OrdMap.mem_of_getElem?_eq hb)
      rw [ReducerSession.checkpointed]
      dsimp only
      rw [hl, aboveDurable]
      have hiff : min f l < b ↔ ¬ b ≤ f := by
        show (if f ≤ l then f else l) < b ↔ _
        split
        · exact UInt64.not_le.symm
        · next hlf =>
          have hbf : b ≤ f := UInt64.le_trans hbl (UInt64.le_of_lt (UInt64.not_le.mp hlf))
          exact iff_of_false (UInt64.not_lt.mpr hbl) (not_not_intro hbf)
      simp [hiff]
  · intro d hd
    rw [ReducerSession.checkpointed] at hd
    dsimp only at hd
    cases hl : s.latest with
    | none =>
      rw [hl] at hd
      exact hadv.durable d hd
    | some l =>
      rw [hl] at hd
      obtain rfl := Option.some.inj hd
      exact ⟨f, l, rfl, Std.min_le_left, hl, Std.min_le_right⟩

/-- **Every step of a session keeps the invariant.** -/
theorem step {s' : ReducerSession} (h : SessionInv v s) (hs : SessionStep v s s') :
    SessionInv v s' := by
  cases hs with
  | processBlock block rows r out hnew hcall hok => exact h.processBlock hnew hcall hok
  | otherBlock block hcall => exact h.withBlock block
  | failedBlock block rows r e hnew hcall herr hfirst =>
    have hleft : r.columns = s.world.engine.columns ∧ r.emitGrowth = s.world.engine.emitGrowth :=
      ReducerEngine.processBlock_error_columns h.inv.inRange (h.inv.notAbove hnew) herr
    exact h.undone hleft.1 hleft.2 (fun p hp hle => h.inv.undoBlock hnew herr (hcall p hp) hle)
      hfirst
  | failedCall hfirst =>
    exact h.undone rfl rfl (fun _ _ hle => h.inv.rollback hle) hfirst
  | rollback p hp hlatest => exact h.rollback hp
  | advanceFinality f hmono hmax => exact h.advanced hmono hmax
  | writeCheckpoint f number hmono hmax hnumber hqueue hdurable =>
    exact h.checkpointed hmono hmax hnumber hqueue
  | commit c queue hq =>
    exact ⟨h.inv.commit hq, h.columns, h.room, h.runs, h.saved, h.newest, h.started, h.final,
      h.durable, h.below⟩
  | evict cap =>
    have hframe := ReducerWorld.evict_columns s.world.engine cap s.world.number
    exact ⟨h.inv.evict cap, h.columns.of_eq hframe.1 hframe.2, h.room, h.runs, h.saved, h.newest,
      h.started, h.final, h.durable, h.below⟩

end SessionInv

theorem SessionRun.inv (hr : SessionRun v s) : SessionInv v s := by
  obtain ⟨st, hst, hsteps⟩ := hr
  induction hsteps with
  | refl =>
    have huses : (v.chainUses ∅).toList = [] :=
      ExtTreeMap.toList_eq_nil_iff.mpr chainUses_empty
    refine ⟨ReducerRun.inv ⟨st, hst, .refl⟩, ⟨?_, ?_⟩, ?_, ?_, ?_, ?_, ?_, ?_, ?_, ?_⟩
    · rw [huses]
      rfl
    · rw [huses]
      exact ExtTreeMap.toList_eq_nil_iff.mpr rfl
    · rw [huses]
      exact .inl rfl
    · intro b rows hb
      simp at hb
    · exact (OrdMap.keep_empty _).symm
    · intro b hb
      simp at hb
    · intro p hp
      cases hp
    · intro b hb
      simp at hb
    · intro d hd
      cases hd
    · intro hf
      cases hf
  | tail _ hstep ih => exact ih.step hstep

/-! ## Open -/

namespace ReducerEngine

variable (v : ReducerShape) (st : Store)

/-- The replay of the blocks of a chain, oldest first. -/
def replay : List (BlockNumber × List Row) → ReducerEngine → ReducerEngine × Except Error Unit
  | [], r => (r, .ok ())
  | (block, rows) :: rest, r =>
    match r.processBlock v st block rows with
    | (r, .ok _) => replay rest r
    | (r, .error e) => (r, .error e)

end ReducerEngine

/-- Build the reducer on its storage again, replay the blocks above the durable block, and restore
the finality, unless it is at the durable block. -/
def ReducerSession.reopen (s : ReducerSession) (v : ReducerShape) :
    ReducerEngine × Except Error Unit :=
  match ReducerEngine.replay v s.world.store
      (OrdMap.keep s.world.blocks (aboveDurable s.durable)).toList
      (ReducerEngine.new v s.world.store) with
  | (r, .error e) => (r, .error e)
  | (r, .ok ()) =>
    match s.world.finality with
    | none => (r, .ok ())
    | some f => if s.durable = some f then (r, .ok ()) else (r.advanceFinality f, .ok ())

/-- The names of a list of blocks of a chain. -/
def entryUses (v : ReducerShape) (blocks : Chain Row) (entries : List (BlockNumber × List Row)) :
    List (BlockNumber × List String) :=
  entries.map fun e => (e.1, logNames (v.chainLog (OrdMap.keep blocks (· < e.1)) e.2))

theorem toList_chainUses (blocks : Chain Row) :
    (v.chainUses blocks).toList = entryUses v blocks blocks.toList := by
  rw [ReducerShape.chainUses, OrdMap.toList_mapEntries, entryUses, ← List.filterMap_eq_map]
  congr 1

/-- **A replay of the rest of a chain succeeds**, and adds the names of its blocks. -/
theorem replay_spec {blocks : Chain Row} (hruns : v.ChainRuns blocks)
    (entries : List (BlockNumber × List Row)) {w : ReducerWorld} (h : w.Inv v)
    {uses : BTreeMap BlockNumber (List String)} (hcols : ReducerEngine.ColumnsOf v uses w.engine)
    (huses : ∀ b ∈ uses, b ∈ w.blocks) (hsplit : blocks.toList = w.blocks.toList ++ entries)
    (hroom : HasRoom v.groupBy (usedNames (uses.toList ++ entryUses v blocks entries))) :
    ∃ (r : ReducerEngine) (uses' : BTreeMap BlockNumber (List String)),
      ReducerEngine.replay v w.store entries w.engine = (r, .ok ()) ∧
      ReducerWorld.Inv v { w with engine := r, blocks := blocks } ∧
      ReducerEngine.ColumnsOf v uses' r ∧ (∀ b ∈ uses', b ∈ blocks) ∧
      uses'.toList = uses.toList ++ entryUses v blocks entries := by
  induction entries generalizing w uses with
  | nil =>
    have heq : blocks = w.blocks := ExtTreeMap.toList_inj.mp (by rw [hsplit, List.append_nil])
    rw [heq]
    exact ⟨w.engine, uses, rfl, h, hcols, huses, by simp [entryUses]⟩
  | cons entry rest ih =>
    obtain ⟨block, rows⟩ := entry
    have hsorted := OrdMap.sorted_toList blocks
    rw [hsplit] at hsorted
    have hnew : ∀ b ∈ w.blocks, b < block := by
      intro b hb
      obtain ⟨rows', hr⟩ := OrdMap.exists_getElem?_of_mem hb
      exact (List.pairwise_append.mp hsorted).2.2 (b, rows')
        (ExtTreeMap.mem_toList_iff_getElem?_eq_some.mpr hr) (block, rows) (by simp)
    have hget : blocks[block]? = some rows := by
      rw [← ExtTreeMap.mem_toList_iff_getElem?_eq_some, hsplit]
      simp
    have hbelow : OrdMap.keep blocks (· < block) = w.blocks := by
      refine ExtTreeMap.toList_inj.mp ?_
      rw [OrdMap.toList_keep, hsplit, List.filter_append, List.filter_eq_self.mpr,
        List.filter_eq_nil_iff.mpr, List.append_nil]
      · intro e he
        rcases List.mem_cons.mp he with rfl | he
        · simp
        · have hlt : block < e.1 := by
            have hcons := (List.pairwise_append.mp hsorted).2.1
            exact (List.pairwise_cons.mp hcons).1 e he
          simpa using UInt64.le_of_lt hlt
      · intro e he
        have hmem : e.1 ∈ w.blocks := OrdMap.mem_of_getElem?_eq
          (ExtTreeMap.mem_toList_iff_getElem?_eq_some.mp (show (e.1, e.2) ∈ _ from he))
        simpa using hnew e.1 hmem
    have hrows : v.ChainSucceeds w.blocks rows := by
      rw [← hbelow]
      exact hruns block rows hget
    have hnames : entryUses v blocks ((block, rows) :: rest)
        = (block, logNames (v.chainLog w.blocks rows)) :: entryUses v blocks rest := by
      rw [entryUses, List.map_cons, hbelow]
      rfl
    have hnewUses : ∀ b ∈ uses, b < block := fun b hb => hnew b (huses b hb)
    rw [hnames, List.append_cons, usedNames, List.flatMap_append] at hroom
    have hfits : HasRoom w.engine.columns (logNames (v.chainLog w.blocks rows)) := by
      have hfirst := (hasRoom_append.mp hroom).1
      rw [List.flatMap_append] at hfirst
      have hnow := (hasRoom_append.mp hfirst).2
      rw [hcols.columns]
      simpa [usedNames] using hnow
    rcases h.processBlock hnew rows with ⟨-, -, r, hok, hcolumns, hgrowth⟩ | ⟨hnot, -⟩
    · have hblocks : (w.blocks.insert block rows).toList = w.blocks.toList ++ [(block, rows)] :=
        OrdMap.toList_insert_of_lt hnew
      have hlist := OrdMap.toList_insert_of_lt (v := logNames (v.chainLog w.blocks rows)) hnewUses
      have hstep : ReducerWorld.Inv v
          { w with engine := r, blocks := w.blocks.insert block rows } :=
        h.insert hnew hok
      obtain ⟨r', uses', hreplay, hinv, hcols', huses', hlist'⟩ := ih hstep
        (hcols.processBlock hnewUses hcolumns hgrowth) (by
          intro b hb
          rw [ExtTreeMap.mem_insert] at hb ⊢
          exact hb.imp_right (huses b)) (by
          show blocks.toList = (w.blocks.insert block rows).toList ++ rest
          rw [hblocks, hsplit, List.append_assoc]
          rfl) (by
          rw [hlist, usedNames, List.flatMap_append]
          exact hroom)
      refine ⟨r', uses', ?_, hinv, hcols', huses', ?_⟩
      · rw [ReducerEngine.replay, hok]
        exact hreplay
      · rw [hlist', hlist, hnames, List.append_assoc]
        rfl
    · exact absurd ⟨hrows, hfits⟩ hnot

theorem entryUses_keep (blocks : Chain Row) (p : BlockNumber → Bool) :
    entryUses v blocks (OrdMap.keep blocks p).toList
      = (OrdMap.keep (v.chainUses blocks) p).toList := by
  rw [OrdMap.toList_keep, OrdMap.toList_keep, toList_chainUses, entryUses, entryUses,
    List.filter_map]
  rfl

/-- The restore of the finality. -/
theorem SessionInv.restore (h : SessionInv v s) {r : ReducerEngine}
    (hreplay : ReducerEngine.replay v s.world.store
      (OrdMap.keep s.world.blocks (aboveDurable s.durable)).toList
      (ReducerEngine.new v s.world.store) = (r, .ok ()))
    (hinv : ReducerWorld.Inv v { s.world with engine := r, final := s.world.saved })
    {uses : BTreeMap BlockNumber (List String)} (hcols : ReducerEngine.ColumnsOf v uses r) :
    ∃ r' final, s.reopen v = (r', .ok ()) ∧
      ReducerWorld.Inv v { s.world with engine := r', final := final } ∧
      (∀ b ∈ final, b ∈ s.world.blocks) ∧ ReducerEngine.ColumnsOf v uses r' := by
  have hsaved : ∀ b ∈ s.world.saved, b ∈ s.world.blocks := by
    intro b hb
    rw [h.saved] at hb
    exact ((OrdMap.mem_keep _ _ _).mp hb).1
  rw [ReducerSession.reopen, hreplay]
  cases hf : s.world.finality with
  | none =>
    have hinv : ReducerWorld.Inv v { s.world with engine := r, final := s.world.saved } := hinv
    exact ⟨r, s.world.saved, rfl, hinv, hsaved, hcols⟩
  | some f =>
    dsimp only
    split
    · exact ⟨r, s.world.saved, rfl, hinv, hsaved, hcols⟩
    · have hmax : f ≠ BlockNumber.max := by
        rintro rfl
        exact h.below hf
      have hmono : ∀ f', s.world.finality = some f' → f' ≤ f := by
        intro f' hf'
        rw [hf] at hf'
        rw [Option.some.inj hf']
        exact UInt64.le_refl _
      have hadv := hinv.advanceFinality hmono hmax
      obtain ⟨pending, heq⟩ := ReducerEngine.advanceFinality_eq r f
      refine ⟨r.advanceFinality f, OrdMap.keep s.world.blocks (· ≤ f), rfl, ?_, ?_, ?_⟩
      · rw [← hf] at hadv
        exact hadv
      · intro b hb
        exact ((OrdMap.mem_keep _ _ _).mp hb).1
      · rw [heq]
        exact hcols.of_eq rfl rfl

/-- **The open succeeds**, with the columns of the replayed blocks. -/
theorem SessionInv.reopen (h : SessionInv v s) (hqueue : s.world.queue = []) :
    ∃ r final, s.reopen v = (r, .ok ()) ∧
      ReducerWorld.Inv v { s.world with engine := r, final := final } ∧
      (∀ b ∈ final, b ∈ s.world.blocks) ∧
      ReducerEngine.ColumnsOf v
        (OrdMap.keep (v.chainUses s.world.blocks) (aboveDurable s.durable)) r := by
  have hengine : s.world.engine.reload v s.world.store = ReducerEngine.new v s.world.store := by
    rw [ReducerEngine.reload, ReducerEngine.new, ← List.prefix_iff_eq_take.mp h.inv.columns]
  have hbase := h.inv.reload hqueue
  have hcols := ReducerEngine.ColumnsOf.of_reload h.inv.columns s.world.store
  rw [hengine] at hbase hcols
  have hempty : (∅ : BTreeMap BlockNumber (List String)).toList = [] :=
    ExtTreeMap.toList_eq_nil_iff.mpr rfl
  have hsplit : s.world.blocks.toList = s.world.saved.toList
      ++ (OrdMap.keep s.world.blocks (aboveDurable s.durable)).toList := by
    rw [h.saved]
    refine OrdMap.toList_eq_append ?_ ?_
    · intro b₁ h₁ b₂ h₂
      have h₁ := ((OrdMap.mem_keep _ _ _).mp h₁).2
      have h₂ := ((OrdMap.mem_keep _ _ _).mp h₂).2
      cases hd : s.durable with
      | none => simp [hd, aboveDurable] at h₁
      | some d =>
        simp only [hd, aboveDurable, Bool.not_eq_true', decide_eq_false_iff_not,
          decide_eq_true_eq] at h₁ h₂
        exact UInt64.lt_of_le_of_lt (UInt64.not_lt.mp h₁) h₂
    · intro b rows
      rw [OrdMap.getElem?_keep, OrdMap.getElem?_keep]
      cases aboveDurable s.durable b <;> simp
  obtain ⟨r, uses, hreplay, hinv, hcols', -, hlist⟩ :=
    replay_spec h.runs (OrdMap.keep s.world.blocks (aboveDurable s.durable)).toList hbase hcols
      (by simp) hsplit (by
        rw [hempty, List.nil_append, entryUses_keep]
        exact h.room.subset (usedNames_keep _))
  rw [hempty, List.nil_append, entryUses_keep] at hlist
  obtain rfl := ExtTreeMap.toList_inj.mp hlist
  exact h.restore hreplay hinv hcols'

/-! ## The next blocks -/

/-- A block that comes next, with the latest block before its call, to which a failure goes
back. -/
structure NextBlock where
  block : BlockNumber
  rows : List Row
  undoTo : Option BlockNumber

/-- The output of each of the next blocks, or its failure. -/
def ReducerEngine.nextBlocks (v : ReducerShape) (st : Store) :
    List NextBlock → ReducerEngine → List (Option (List Row))
  | [], _ => []
  | next :: rest, r =>
    match r.processBlock v st next.block next.rows with
    | (r, .ok out) => some out :: nextBlocks v st rest r
    | (r, .error _) => none :: nextBlocks v st rest (r.undoIngest v st next.undoTo)

/-- The next blocks extend the chain, and a failure takes back none of the blocks in `start`. -/
def NextOk (v : ReducerShape) (start : Chain Row) (w : ReducerWorld) : List NextBlock → Prop
  | [] => True
  | next :: rest =>
    (∀ b ∈ w.blocks, b < next.block) ∧
      (∀ b ∈ start, ∃ p, next.undoTo = some p ∧ b ≤ p) ∧
      (∀ p, next.undoTo = some p → p < next.block) ∧
      match w.engine.processBlock v w.store next.block next.rows with
      | (r, .ok _) =>
        NextOk v start { w with engine := r, blocks := w.blocks.insert next.block next.rows } rest
      | (r, .error _) =>
        NextOk v start { w with
          engine := r.undoIngest v w.store next.undoTo
          blocks := undoBlocks next.undoTo w.blocks
          final := undoBlocks next.undoTo w.final } rest

/-- The names that an undo leaves. -/
def undoUses (block : Option BlockNumber) (uses : List (BlockNumber × List String)) :
    List (BlockNumber × List String) :=
  match block with
  | some p => uses.filter (·.1 ≤ p)
  | none => []

/-- The next blocks use their names alike on the columns `old` and `old'`, where `uses` are those
of the blocks since: both have room or neither, and, when a row is emitted, both are the same
columns after the block. -/
def SameNames (v : ReducerShape) (old old' : List String) :
    Chain Row → List (BlockNumber × List String) → List NextBlock → Prop
  | _, _, [] => True
  | blocks, uses, next :: rest =>
    let log := v.chainLog blocks next.rows
    let columns := addNames old (usedNames uses)
    let columns' := addNames old' (usedNames uses)
    (v.ChainSucceeds blocks next.rows →
      (HasRoom columns (logNames log) ↔ HasRoom columns' (logNames log))) ∧
    (v.ChainSucceeds blocks next.rows ∧ HasRoom columns (logNames log) →
      (log = [] ∨ addNames columns (logNames log) = addNames columns' (logNames log)) ∧
      SameNames v old old' (blocks.insert next.block next.rows)
        (uses ++ [(next.block, logNames log)]) rest) ∧
    (¬ (v.ChainSucceeds blocks next.rows ∧ HasRoom columns (logNames log)) →
      SameNames v old old' (undoBlocks next.undoTo blocks) (undoUses next.undoTo uses) rest)

/-- Equal columns stay equal. -/
theorem sameNames_self (columns : List String) (next : List NextBlock) (blocks : Chain Row)
    (uses : List (BlockNumber × List String)) :
    SameNames v columns columns blocks uses next := by
  induction next generalizing blocks uses with
  | nil => trivial
  | cons c rest ih =>
    exact ⟨fun _ => Iff.rfl, fun _ => ⟨.inr rfl, ih _ _⟩, fun _ => ih _ _⟩

/-- Two states with the same blocks. Their columns are `old` and `old'`, which come from blocks in
`start`, and the names in `new`. -/
structure Twin (v : ReducerShape) (start : Chain Row) (old old' : List String)
    (new : List (BlockNumber × List String)) (w w' : ReducerWorld) : Prop where
  inv : w.Inv v
  inv' : w'.Inv v
  blocks : w'.blocks = w.blocks
  store : w'.store = w.store
  queue : w.queue = [] ∧ w'.queue = []
  final : ∀ b, b ∈ w.final ∨ b ∈ w'.final ∨ b ∈ w.saved ∨ b ∈ w'.saved → b ∈ start
  columns : ∃ (uses uses' : BTreeMap BlockNumber (List String))
      (first first' : List (BlockNumber × List String)),
    ReducerEngine.ColumnsOf v uses w.engine ∧ ReducerEngine.ColumnsOf v uses' w'.engine ∧
    (∀ b, b ∈ uses ∨ b ∈ uses' → b ∈ w.blocks) ∧
    uses.toList = first ++ new ∧ uses'.toList = first' ++ new ∧
    (∀ e, e ∈ first ∨ e ∈ first' → e.1 ∈ start) ∧
    addNames v.groupBy (usedNames first) = old ∧ addNames v.groupBy (usedNames first') = old'

namespace Twin

variable {start : Chain Row} {old old' : List String} {new : List (BlockNumber × List String)}
  {w w' : ReducerWorld}

theorem columns_eq (h : Twin v start old old' new w w') :
    w.engine.columns = addNames old (usedNames new) ∧
      w'.engine.columns = addNames old' (usedNames new) := by
  obtain ⟨uses, uses', first, first', hcols, hcols', -, hlist, hlist', -, rfl, rfl⟩ := h.columns
  refine ⟨?_, ?_⟩
  · rw [hcols.columns, hlist, usedNames, List.flatMap_append, addNames_append]
    rfl
  · rw [hcols'.columns, hlist', usedNames, List.flatMap_append, addNames_append]
    rfl

/-- A block that both states take. -/
theorem insert (h : Twin v start old old' new w w') {block : BlockNumber} {rows : List Row}
    (hnew : ∀ b ∈ w.blocks, b < block) {r r' : ReducerEngine} {out out' : List Row}
    {names : List String} (hok : w.engine.processBlock v w.store block rows = (r, .ok out))
    (hok' : w'.engine.processBlock v w'.store block rows = (r', .ok out'))
    (hcols : r.columns = addNames w.engine.columns names)
    (hcols' : r'.columns = addNames w'.engine.columns names)
    (hgrowth : r.emitGrowth = if w.engine.columns.length < r.columns.length then
      w.engine.emitGrowth.insertIfNew block w.engine.columns.length else w.engine.emitGrowth)
    (hgrowth' : r'.emitGrowth = if w'.engine.columns.length < r'.columns.length then
      w'.engine.emitGrowth.insertIfNew block w'.engine.columns.length
      else w'.engine.emitGrowth) :
    Twin v start old old' (new ++ [(block, names)])
      { w with engine := r, blocks := w.blocks.insert block rows }
      { w' with engine := r', blocks := w'.blocks.insert block rows } := by
  obtain ⟨uses, uses', first, first', hof, hof', hin, hlist, hlist', hstart, hold⟩ := h.columns
  have hnew' : ∀ b ∈ w'.blocks, b < block := by
    rw [h.blocks]
    exact hnew
  have hbelow : ∀ b, b ∈ uses ∨ b ∈ uses' → b < block := fun b hb => hnew b (hin b hb)
  refine ⟨h.inv.insert hnew hok, h.inv'.insert hnew' hok', ?_, h.store, h.queue, h.final,
    uses.insert block names, uses'.insert block names, first, first',
    hof.processBlock (fun b hb => hbelow b (.inl hb)) hcols hgrowth,
    hof'.processBlock (fun b hb => hbelow b (.inr hb)) hcols' hgrowth', ?_, ?_, ?_, hstart, hold⟩
  · show w'.blocks.insert block rows = w.blocks.insert block rows
    rw [h.blocks]
  · intro b hb
    show b ∈ w.blocks.insert block rows
    rw [ExtTreeMap.mem_insert, ExtTreeMap.mem_insert] at hb
    rw [ExtTreeMap.mem_insert]
    rcases hb with (heq | hb) | (heq | hb)
    · exact .inl heq
    · exact .inr (hin b (.inl hb))
    · exact .inl heq
    · exact .inr (hin b (.inr hb))
  · rw [OrdMap.toList_insert_of_lt fun b hb => hbelow b (.inl hb), hlist, List.append_assoc]
  · rw [OrdMap.toList_insert_of_lt fun b hb => hbelow b (.inr hb), hlist', List.append_assoc]

/-- A block on which both states fail, and the undo to `p`. -/
theorem rollback (h : Twin v start old old' new w w') {block p : BlockNumber} {rows : List Row}
    (hnew : ∀ b ∈ w.blocks, b < block) (hstart : ∀ b ∈ start, b ≤ p) (hp : p < block)
    {r r' : ReducerEngine} {e e' : Error}
    (herr : w.engine.processBlock v w.store block rows = (r, .error e))
    (herr' : w'.engine.processBlock v w'.store block rows = (r', .error e'))
    (hleft : r.columns = w.engine.columns ∧ r.emitGrowth = w.engine.emitGrowth)
    (hleft' : r'.columns = w'.engine.columns ∧ r'.emitGrowth = w'.engine.emitGrowth) :
    Twin v start old old' (new.filter (·.1 ≤ p))
      { w with engine := r.rollback p, blocks := OrdMap.keep w.blocks (· ≤ p) }
      { w' with engine := r'.rollback p, blocks := OrdMap.keep w'.blocks (· ≤ p) } := by
  obtain ⟨uses, uses', first, first', hof, hof', hin, hlist, hlist', hold, hnames⟩ := h.columns
  have hnew' : ∀ b ∈ w'.blocks, b < block := by
    rw [h.blocks]
    exact hnew
  have hfilter : ∀ l : List (BlockNumber × List String), (∀ e ∈ l, e.1 ∈ start) →
      l.filter (fun e => decide (e.1 ≤ p)) = l := by
    intro l hl
    refine List.filter_eq_self.mpr fun e he => ?_
    simpa using hstart e.1 (hl e he)
  refine ⟨h.inv.undoBlock hnew herr hp fun b hb => hstart b (h.final b (.inl hb)),
    h.inv'.undoBlock hnew' herr' hp fun b hb => hstart b (h.final b (.inr (.inl hb))), ?_, h.store,
    h.queue, h.final, OrdMap.keep uses (· ≤ p), OrdMap.keep uses' (· ≤ p), first, first',
    (hof.of_eq hleft.1 hleft.2).rollback p, (hof'.of_eq hleft'.1 hleft'.2).rollback p, ?_, ?_, ?_,
    hold, hnames⟩
  · show OrdMap.keep w'.blocks (· ≤ p) = OrdMap.keep w.blocks (· ≤ p)
    rw [h.blocks]
  · intro b hb
    show b ∈ OrdMap.keep w.blocks (· ≤ p)
    rw [OrdMap.mem_keep, OrdMap.mem_keep] at hb
    rw [OrdMap.mem_keep]
    rcases hb with ⟨hb, hle⟩ | ⟨hb, hle⟩
    · exact ⟨hin b (.inl hb), hle⟩
    · exact ⟨hin b (.inr hb), hle⟩
  · rw [OrdMap.toList_keep, hlist, List.filter_append, hfilter first fun e he => hold e (.inl he)]
  · rw [OrdMap.toList_keep, hlist', List.filter_append,
      hfilter first' fun e he => hold e (.inr he)]

/-- A block on which both states fail, and the undo of a call without a block to go back to. -/
theorem reload (h : Twin v start old old' new w w') (hstart : ∀ b, b ∉ start)
    {r r' : ReducerEngine} (hleft : r.columns = w.engine.columns)
    (hleft' : r'.columns = w'.engine.columns) :
    Twin v start old old' []
      { w with engine := r.reload v w.store, blocks := ∅, final := ∅ }
      { w' with engine := r'.reload v w'.store, blocks := ∅, final := ∅ } := by
  obtain ⟨uses, uses', first, first', -, -, -, -, -, hfirst, hold, hold'⟩ := h.columns
  have hsaved : ∀ {m : Chain Row}, (∀ b ∈ m, b ∈ start) → m = ∅ := by
    intro m hm
    refine ExtTreeMap.ext_getElem? ?_
    intro b
    rw [ExtTreeMap.getElem?_empty]
    exact ExtTreeMap.getElem?_eq_none fun hb => hstart b (hm b hb)
  have hnil : ∀ {l : List (BlockNumber × List String)}, (∀ e ∈ l, e.1 ∈ start) → l = [] :=
    fun hl => List.eq_nil_iff_forall_not_mem.mpr fun e he => hstart e.1 (hl e he)
  have hinv := h.inv.reload h.queue.1
  have hinv' := h.inv'.reload h.queue.2
  rw [hsaved fun b hb => h.final b (.inr (.inr (.inl hb)))] at hinv
  rw [hsaved fun b hb => h.final b (.inr (.inr (.inr hb)))] at hinv'
  have hreload : r.reload v w.store = w.engine.reload v w.store := by
    rw [ReducerEngine.reload, ReducerEngine.reload, hleft]
  have hreload' : r'.reload v w'.store = w'.engine.reload v w'.store := by
    rw [ReducerEngine.reload, ReducerEngine.reload, hleft']
  have hempty : (∅ : BTreeMap BlockNumber (List String)).toList = [] :=
    ExtTreeMap.toList_eq_nil_iff.mpr rfl
  rw [hreload, hreload']
  refine ⟨?_, ?_, rfl, h.store, h.queue, ?_, ∅, ∅, first, first',
    .of_reload h.inv.columns _, .of_reload h.inv'.columns _, by simp, ?_, ?_, hfirst, hold, hold'⟩
  · rw [← hsaved fun b hb => h.final b (.inr (.inr (.inl hb)))] at hinv ⊢
    exact hinv
  · rw [← hsaved fun b hb => h.final b (.inr (.inr (.inr hb)))] at hinv' ⊢
    exact hinv'
  · rintro b (hb | hb | hb | hb)
    · simp at hb
    · simp at hb
    · exact h.final b (.inr (.inr (.inl hb)))
    · exact h.final b (.inr (.inr (.inr hb)))
  · rw [hempty, hnil fun e he => hfirst e (.inl he)]
    rfl
  · rw [hempty, hnil fun e he => hfirst e (.inr he)]
    rfl

/-- A block on which both states fail, and its undo. -/
theorem undo (h : Twin v start old old' new w w') {c : NextBlock}
    (hnew : ∀ b ∈ w.blocks, b < c.block) (hstart : ∀ b ∈ start, ∃ p, c.undoTo = some p ∧ b ≤ p)
    (hp : ∀ p, c.undoTo = some p → p < c.block) {r r' : ReducerEngine} {e e' : Error}
    (herr : w.engine.processBlock v w.store c.block c.rows = (r, .error e))
    (herr' : w'.engine.processBlock v w'.store c.block c.rows = (r', .error e'))
    (hleft : r.columns = w.engine.columns ∧ r.emitGrowth = w.engine.emitGrowth)
    (hleft' : r'.columns = w'.engine.columns ∧ r'.emitGrowth = w'.engine.emitGrowth) :
    Twin v start old old' (undoUses c.undoTo new)
      { w with
        engine := r.undoIngest v w.store c.undoTo
        blocks := undoBlocks c.undoTo w.blocks
        final := undoBlocks c.undoTo w.final }
      { w' with
        engine := r'.undoIngest v w'.store c.undoTo
        blocks := undoBlocks c.undoTo w'.blocks
        final := undoBlocks c.undoTo w'.final } := by
  cases hundo : c.undoTo with
  | some p =>
    have hle : ∀ b ∈ start, b ≤ p := by
      intro b hb
      obtain ⟨p', hp', hb'⟩ := hstart b hb
      rw [hundo] at hp'
      rw [Option.some.inj hp']
      exact hb'
    have hfinal : ∀ {m : Chain Row}, (∀ b ∈ m, b ∈ start) → undoBlocks (some p) m = m := by
      intro m hm
      exact OrdMap.keep_eq_self _ fun b hb => by simpa using hle b (hm b hb)
    have htwin := h.rollback hnew hle (hp p hundo) herr herr' hleft hleft'
    rw [hfinal fun b hb => h.final b (.inl hb), hfinal fun b hb => h.final b (.inr (.inl hb))]
    exact htwin
  | none =>
    refine h.reload (fun b hb => ?_) hleft.1 hleft'.1
    obtain ⟨p, hp, -⟩ := hstart b hb
    rw [hundo] at hp
    cases hp

/-- **The next blocks give the same on both states exactly when they use their names alike.** -/
theorem nextBlocks (next : List NextBlock) (h : Twin v start old old' new w w')
    (hnext : NextOk v start w next) :
    ReducerEngine.nextBlocks v w'.store next w'.engine
      = ReducerEngine.nextBlocks v w.store next w.engine ↔
      SameNames v old old' w.blocks new next := by
  induction next generalizing w w' new with
  | nil => exact ⟨fun _ => trivial, fun _ => rfl⟩
  | cons c rest ih =>
    obtain ⟨hnew, hstart, hp, hrest⟩ := hnext
    have hnew' : ∀ b ∈ w'.blocks, b < c.block := by
      rw [h.blocks]
      exact hnew
    obtain ⟨hcolumns, hcolumns'⟩ := h.columns_eq
    rw [ReducerEngine.nextBlocks, ReducerEngine.nextBlocks, SameNames]
    rw [← hcolumns, ← hcolumns']
    rcases h.inv.processBlock hnew c.rows with
      ⟨hrows, hroom, r, hok, hcols, hgrowth⟩ | ⟨hnot, r, e, herr, hleft⟩
    · rcases h.inv'.processBlock hnew' c.rows with
        ⟨-, hroom', r', hok', hcols', hgrowth'⟩ | ⟨hnot', r', e, herr', -⟩
      · -- both succeed
        rw [h.blocks] at hroom' hok' hcols'
        rw [hok] at hrest ⊢
        rw [hok']
        dsimp only
        have htwin := h.insert hnew hok hok' hcols hcols' hgrowth hgrowth'
        rw [List.cons.injEq, Option.some.injEq, ih htwin hrest]
        constructor
        · rintro ⟨hout, hsame⟩
          refine ⟨fun _ => ⟨fun _ => hroom', fun _ => hroom⟩, fun _ => ⟨?_, hsame⟩,
            fun hfail => absurd ⟨hrows, hroom⟩ hfail⟩
          by_cases hlog : v.chainLog w.blocks c.rows = []
          · exact .inl hlog
          · exact .inr (columns_of_takeOutput_eq hroom hroom' hlog hout)
        · rintro ⟨-, hsame, -⟩
          obtain ⟨hcols, hsame⟩ := hsame ⟨hrows, hroom⟩
          refine ⟨?_, hsame⟩
          rcases hcols with hlog | hcols
          · rw [hlog]
            simp [ReducerEngine.takeOutput, Emits.take, Emits.pushAll]
          · exact takeOutput_congr hroom hroom' hcols
      · -- the second fails
        rw [h.blocks] at hnot'
        rw [hok, herr']
        refine iff_of_false (by simp) ?_
        rintro ⟨hiff, -⟩
        exact hnot' ⟨hrows, (hiff hrows).mp hroom⟩
    · rcases h.inv'.processBlock hnew' c.rows with
        ⟨hrows', hroom', r', hok', -⟩ | ⟨hnot', r', e', herr', hleft'⟩
      · -- the first fails
        rw [h.blocks] at hrows' hroom'
        rw [herr, hok']
        refine iff_of_false (by simp) ?_
        rintro ⟨hiff, -⟩
        exact hnot ⟨hrows', (hiff hrows').mpr hroom'⟩
      · -- both fail
        rw [h.blocks] at hnot'
        rw [herr] at hrest ⊢
        rw [herr']
        dsimp only
        have htwin := h.undo hnew hstart hp herr herr' hleft hleft'
        rw [List.cons.injEq, ih htwin hrest]
        constructor
        · rintro ⟨-, hsame⟩
          refine ⟨fun hrows => ?_, fun hok => absurd hok hnot, fun _ => hsame⟩
          exact iff_of_false (fun hroom => hnot ⟨hrows, hroom⟩) fun hroom => hnot' ⟨hrows, hroom⟩
        · rintro ⟨-, -, hsame⟩
          exact ⟨rfl, hsame hnot⟩

end Twin

/-- The columns of all surviving blocks, in order of first use. -/
def ReducerSession.columns (s : ReducerSession) (v : ReducerShape) : List String :=
  addNames v.groupBy (usedNames (v.chainUses s.world.blocks).toList)

/-- The columns of the surviving blocks above the durable block, in order of first use. -/
def ReducerSession.replayed (s : ReducerSession) (v : ReducerShape) : List String :=
  addNames v.groupBy
    (usedNames (OrdMap.keep (v.chainUses s.world.blocks) (aboveDurable s.durable)).toList)

/-- The replayed blocks alone give the columns of all surviving blocks, in the same order. -/
def ReducerSession.LearnsAgain (s : ReducerSession) (v : ReducerShape) : Prop :=
  s.replayed v = s.columns v

/-- **Emit columns across a reopen.** In every state of a session with nothing to commit, an open
succeeds. Then the next blocks succeed or fail and give rows, columns included, as they would
without the open exactly when they use their names alike on the columns of the replayed blocks and
on those of all surviving blocks. For every list of next blocks this is so when the two are the
same columns, which is when the open has the columns of the session. -/
theorem reopen_keeps_columns (hr : SessionRun v s) (hqueue : s.world.queue = []) :
    ∃ r, s.reopen v = (r, .ok ()) ∧
      (∀ next, NextOk v s.world.blocks s.world next →
        (ReducerEngine.nextBlocks v s.world.store next r
          = ReducerEngine.nextBlocks v s.world.store next s.world.engine ↔
          SameNames v (s.columns v) (s.replayed v) s.world.blocks [] next)) ∧
      (r.columns = s.world.engine.columns ↔ s.LearnsAgain v) ∧
      (s.LearnsAgain v → ∀ next, NextOk v s.world.blocks s.world next →
        ReducerEngine.nextBlocks v s.world.store next r
          = ReducerEngine.nextBlocks v s.world.store next s.world.engine) := by
  have h := hr.inv
  obtain ⟨r, final, hopen, hinv, hfinal, hcols⟩ := h.reopen hqueue
  have hkept : ∀ b ∈ s.world.saved, b ∈ s.world.blocks := by
    intro b hb
    rw [h.saved] at hb
    exact ((OrdMap.mem_keep _ _ _).mp hb).1
  have htwin : Twin v s.world.blocks (s.columns v) (s.replayed v) [] s.world
      { s.world with engine := r, final := final } := by
    refine ⟨h.inv, hinv, rfl, rfl, ⟨hqueue, hqueue⟩, ?_, _, _,
      (v.chainUses s.world.blocks).toList,
      (OrdMap.keep (v.chainUses s.world.blocks) (aboveDurable s.durable)).toList, h.columns,
      hcols, ?_, (List.append_nil _).symm, (List.append_nil _).symm, ?_, rfl, rfl⟩
    · rintro b (hb | hb | hb | hb)
      · obtain ⟨rows, hrows⟩ := OrdMap.exists_getElem?_of_mem hb
        exact OrdMap.mem_of_getElem?_eq (h.inv.below.sub b rows hrows)
      · exact hfinal b hb
      · exact hkept b hb
      · exact hkept b hb
    · rintro b (hb | hb)
      · exact ReducerShape.mem_chainUses.mp hb
      · exact ReducerShape.mem_chainUses.mp ((OrdMap.mem_keep _ _ _).mp hb).1
    · rintro ⟨b, names⟩ (he | he)
      · rw [ExtTreeMap.mem_toList_iff_getElem?_eq_some] at he
        exact ReducerShape.mem_chainUses.mp (OrdMap.mem_of_getElem?_eq he)
      · rw [ExtTreeMap.mem_toList_iff_getElem?_eq_some] at he
        have hmem := OrdMap.mem_of_getElem?_eq he
        exact ReducerShape.mem_chainUses.mp ((OrdMap.mem_keep _ _ _).mp hmem).1
  refine ⟨r, hopen, fun next hnext => htwin.nextBlocks next hnext, ?_, fun hlearns next hnext => ?_⟩
  · rw [hcols.columns, h.columns.columns]
    exact Iff.rfl
  · apply (htwin.nextBlocks next hnext).mpr
    rw [hlearns]
    exact sameNames_self _ _ _ _

/-! ### A name of a durable block

A reducer that emits under the name of the user. Block 1 is durable. -/

def emitUser : ReducerShape where
  name := "users"
  source := "trades"
  groupBy := []
  defaultState := []
  mapFields := 0
  runtime :=
    { process := fun values _ row =>
        { values := values, maps := [], emits := [[(userOf row, .uint64 1)]], error := none }
      batched := false
      values_length := Runtime.length_same
      maps_mem := Runtime.mem_nil }

/-- A row of bob in block 1, the finality `f`, and a checkpoint that is committed. -/
def bobSaved (f : BlockNumber) : ReducerSession where
  world :=
    let r := ((ReducerEngine.new emitUser {}).processBlock emitUser {} 1 [userRow "bob"]).1
    let r := r.advanceFinality f
    let blocks := (∅ : Chain Row).insert 1 [userRow "bob"]
    { engine := (r.writeCheckpoint emitUser f 1).1
      store := ({} : Store).commit (r.writeCheckpoint emitUser f 1).2
      number := 1
      queue := []
      blocks := blocks
      finality := some f
      final := OrdMap.keep blocks (· ≤ f)
      saved := OrdMap.keep blocks (· ≤ f)
      committed := OrdMap.keep blocks (· ≤ f) }
  latest := some 1
  start := some 1
  durable := some (min f 1)

private theorem bobSaved_run {f : BlockNumber} (hmax : f ≠ BlockNumber.max) :
    SessionRun emitUser (bobSaved f) := by
  refine ⟨{}, fun k => ⟨by simp, by simp⟩, ?_⟩
  have hok : ((ReducerEngine.new emitUser {}).processBlock emitUser {} 1
      [userRow "bob"]).2.isOk = true := by decide +kernel
  obtain ⟨out, hout⟩ := ok_of_toBool hok
  have h₁ : Relation.ReflTransGen (SessionStep emitUser)
      { world := { engine := ReducerEngine.new emitUser {}, store := {} } } _ :=
    .tail .refl (.processBlock 1 [userRow "bob"] _ out (by simp) (by simp) (Prod.ext rfl hout))
  have h₂ := h₁.tail (.writeCheckpoint f 1 (by
    intro f' hf'
    cases hf') hmax Nat.zero_lt_one (by
    intro c hc
    cases hc) (by
    intro d hd
    cases hd))
  have h₃ := h₂.tail (.commit _ [] rfl)
  exact h₃

/-- Another row of bob in block 2, which is below the finality 100. -/
def bobAgain : ReducerSession where
  world :=
    { (bobSaved 100).world with
      engine := ((bobSaved 100).world.engine.processBlock emitUser (bobSaved 100).world.store 2
        [userRow "bob"]).1
      blocks := (bobSaved 100).world.blocks.insert 2 [userRow "bob"] }
  latest := some 2
  start := some 1
  durable := some 1

/-- The replay of block 2 learns the name of bob again. -/
theorem reopen_keeps_columns_bob :
    SessionRun emitUser bobAgain ∧ bobAgain.LearnsAgain emitUser ∧
    ∃ r, bobAgain.reopen emitUser = (r, .ok ()) ∧
      r.columns = bobAgain.world.engine.columns := by
  have hrun : SessionRun emitUser bobAgain := by
    obtain ⟨st, hst, hsteps⟩ := bobSaved_run (f := 100) (by decide)
    have hok : ((bobSaved 100).world.engine.processBlock emitUser (bobSaved 100).world.store 2
        [userRow "bob"]).2.isOk = true := by decide +kernel
    obtain ⟨out, hout⟩ := ok_of_toBool hok
    refine ⟨st, hst, hsteps.tail (.processBlock 2 [userRow "bob"] _ out ?_ ?_
      (Prod.ext rfl hout))⟩
    · intro b hb
      have hb : b ∈ (∅ : Chain Row).insert 1 [userRow "bob"] := hb
      have h1 : b = 1 := by grind
      subst h1
      decide
    · intro l hl
      obtain rfl := Option.some.inj hl
      decide
  have hlearns : bobAgain.LearnsAgain emitUser := by
    show addNames _ _ = addNames _ _
    decide +kernel
  obtain ⟨r, hopen, -, hcols, -⟩ := reopen_keeps_columns hrun rfl
  exact ⟨hrun, hlearns, r, hopen, hcols.mpr hlearns⟩

/-- A block replays only when it is above the durable block, so the columns that only durable
blocks used are gone after an open, and the rows of the next block lack them. -/
theorem reopen_forgets_names :
    ¬ ∀ (v : ReducerShape) (s : ReducerSession), SessionRun v s → s.world.queue = [] →
      ∃ r, s.reopen v = (r, .ok ()) ∧ ∀ next, NextOk v s.world.blocks s.world next →
        ReducerEngine.nextBlocks v s.world.store next r
          = ReducerEngine.nextBlocks v s.world.store next s.world.engine := by
  intro hall
  obtain ⟨r, hopen, hnext⟩ := hall emitUser (bobSaved 1) (bobSaved_run (by decide)) rfl
  have hnew : ((bobSaved 1).reopen emitUser).1 = r := by rw [hopen]
  have hok : NextOk emitUser (bobSaved 1).world.blocks (bobSaved 1).world
      [⟨2, [userRow "alice"], some 1⟩] := by
    have hone : ∀ b ∈ (∅ : Chain Row).insert 1 [userRow "bob"], b = 1 := by grind
    refine ⟨?_, ?_, ?_, ?_⟩
    · intro b hb
      rw [hone b hb]
      decide
    · intro b hb
      refine ⟨1, rfl, ?_⟩
      rw [hone b hb]
      exact UInt64.le_refl 1
    · intro p hp
      obtain rfl := Option.some.inj hp
      decide
    · split <;> trivial
  -- the columns of the next row
  have hsame := congrArg (fun out => out.map fun rows : Option (List Row) =>
    rows.map fun rows => rows.map fun row => row.registry.names) (hnext _ hok)
  rw [← hnew] at hsame
  revert hsame
  decide +kernel

end Settle
