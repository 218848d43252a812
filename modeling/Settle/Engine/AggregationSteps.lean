import Settle.Engine.AggregationFold

/-!
# Aggregates over further steps

Two aggregates that hold the same data are told apart by no further addition, rollback or finality
step (`Agg.Alike.run`). What storage has of an aggregate is its finalized part, so an aggregate
without unfinal blocks comes back as one that is alike (`Agg.FinalOnly.restoreAgg`). A count comes
back with its flag set; it was set, since a row of a final block reached the count.
-/

namespace Settle

open Std

/-! ## Aggregates that behave alike -/

/-- The aggregate function of a serialized form. -/
def StoredAgg.func : StoredAgg → AggFunc
  | .sum .. => .sum
  | .count _ => .count
  | .min .. => .min
  | .max .. => .max
  | .avg .. => .avg
  | .first _ => .first
  | .last _ => .last

/-- What happens to an aggregate of a group. -/
inductive AggStep where
  | add (block : BlockNumber) (values : List Value)
  | rollback (forkPoint : BlockNumber)
  | finalize (block : BlockNumber)

namespace Agg

def step (a : Agg) : AggStep → Agg
  | .add block values => a.addBlock block values
  | .rollback forkPoint => a.removeBlocksAfter forkPoint
  | .finalize block => a.finalizeUpTo block

def run (a : Agg) (steps : List AggStep) : Agg := steps.foldl step a

def func : Agg → AggFunc
  | .sum .. => .sum
  | .count _ => .count
  | .min .. => .min
  | .max .. => .max
  | .avg .. => .avg
  | .first _ => .first
  | .last _ => .last

/-- `block_numbers`: the blocks that are not final. -/
def blockNumbers : Agg → List BlockNumber
  | .sum _ f | .min _ f | .max _ f => f.blocks.iter.map Prod.fst
  | .count f => f.blocks.iter.map Prod.fst
  | .avg _ f => f.blocks.iter.map Prod.fst
  | .first f => f.blocks.iter.map Prod.fst
  | .last f => f.blocks.iter.map Prod.fst

end Agg

/-- Two folding aggregates hold the same final and unfinal blocks. -/
def FoldAgg.Alike {F T V : Type} (k : FoldKind F T V) (f g : FoldAgg F T V) : Prop :=
  ∃ fin unf, f.Rep k fin unf ∧ g.Rep k fin unf

namespace FoldAgg.Alike

variable {F T V : Type} {k : FoldKind F T V} {f g : FoldAgg F T V}

theorem addBlock (h : Alike k f g) (block : BlockNumber) (values : List Value) :
    Alike k (f.addBlock k block values) (g.addBlock k block values) := by
  obtain ⟨fin, unf, hf, hg⟩ := h
  exact ⟨fin, _, hf.addBlock block values, hg.addBlock block values⟩

theorem removeBlocksAfter (h : Alike k f g) (p : BlockNumber) :
    Alike k (f.removeBlocksAfter p) (g.removeBlocksAfter p) := by
  obtain ⟨fin, unf, hf, hg⟩ := h
  exact ⟨fin, _, hf.removeBlocksAfter p, hg.removeBlocksAfter p⟩

theorem finalizeUpTo (h : Alike k f g) (p : BlockNumber) :
    Alike k (f.finalizeUpTo k p) (g.finalizeUpTo k p) := by
  obtain ⟨fin, unf, hf, hg⟩ := h
  exact ⟨_, _, hf.finalizeUpTo p, hg.finalizeUpTo p⟩

theorem shows (h : Alike k f g) :
    f.currentValue k = g.currentValue k ∧ f.hasData k = g.hasData k := by
  obtain ⟨fin, unf, hf, hg⟩ := h
  exact ⟨hf.currentValue.trans hg.currentValue.symm, hf.hasData.trans hg.hasData.symm⟩

/-- Without unfinal blocks, the finalized part is all there is. -/
theorem restored (h : Alike k f f) (hb : f.blocks.iter.map Prod.fst = []) :
    Alike k f (FoldAgg.refold k ⟨f.finalized, Blocks.new, none⟩) := by
  obtain ⟨fin, unf, hf, -⟩ := h
  have hnil : unf.toList = [] := by
    rw [← hf.blocks, ← Blocks.iter_eq]
    exact List.map_eq_nil_iff.mp hb
  have hunf : unf = ∅ := ExtTreeMap.toList_eq_nil_iff.mp hnil
  subst hunf
  refine ⟨fin, ∅, hf, FoldAgg.Rep.refold ?_⟩
  exact FoldAgg.Rep.mk' hf.finalized rfl hf.validFin (by simp)

end FoldAgg.Alike

namespace FirstAgg

/-- The same finalized value, and the same value of each block. -/
structure Alike (f g : FirstAgg) : Prop where
  finalized : f.finalized = g.finalized
  blocks : f.blocks.toMap = g.blocks.toMap

variable {f g : FirstAgg}

theorem Alike.addBlock (h : f.Alike g) (block : BlockNumber) (values : List Value) :
    (f.addBlock block values).Alike (g.addBlock block values) := by
  rw [FirstAgg.addBlock, FirstAgg.addBlock, Blocks.get_eq, Blocks.get_eq, h.blocks]
  split
  · exact h
  · cases values.find? fun v => !v.isNull with
    | none => exact h
    | some first =>
      refine ⟨h.finalized, ?_⟩
      show (f.blocks.insert block first).toMap = (g.blocks.insert block first).toMap
      rw [Blocks.toMap_insert, Blocks.toMap_insert, h.blocks]

theorem Alike.finalizeUpTo (h : f.Alike g) (p : BlockNumber) :
    (f.finalizeUpTo p).Alike (g.finalizeUpTo p) := by
  constructor
  · show (f.blocks.drainUpTo p).1.foldl _ _ = (g.blocks.drainUpTo p).1.foldl _ _
    rw [Blocks.drainUpTo_fst, Blocks.drainUpTo_fst, h.blocks, h.finalized]
  · show (f.blocks.drainUpTo p).2.toMap = (g.blocks.drainUpTo p).2.toMap
    rw [Blocks.toMap_drainUpTo, Blocks.toMap_drainUpTo, h.blocks]

theorem Alike.currentValue (h : f.Alike g) : f.currentValue = g.currentValue := by
  rw [FirstAgg.currentValue, FirstAgg.currentValue, h.finalized, Blocks.values_eq,
    Blocks.values_eq, h.blocks]

end FirstAgg

namespace LastAgg

/-- The same finalized value, and the same value of each block. -/
structure Alike (f g : LastAgg) : Prop where
  finalized : f.finalized = g.finalized
  blocks : f.blocks.toMap = g.blocks.toMap

variable {f g : LastAgg}

theorem Alike.addBlock (h : f.Alike g) (block : BlockNumber) (values : List Value) :
    (f.addBlock block values).Alike (g.addBlock block values) := by
  rw [LastAgg.addBlock, LastAgg.addBlock]
  cases values.reverse.find? fun v => !v.isNull with
  | none => exact h
  | some last =>
    refine ⟨h.finalized, ?_⟩
    show (f.blocks.insert block last).toMap = (g.blocks.insert block last).toMap
    rw [Blocks.toMap_insert, Blocks.toMap_insert, h.blocks]

theorem Alike.finalizeUpTo (h : f.Alike g) (p : BlockNumber) :
    (f.finalizeUpTo p).Alike (g.finalizeUpTo p) := by
  constructor
  · show (f.blocks.drainUpTo p).1.foldl _ _ = (g.blocks.drainUpTo p).1.foldl _ _
    rw [Blocks.drainUpTo_fst, Blocks.drainUpTo_fst, h.blocks, h.finalized]
  · show (f.blocks.drainUpTo p).2.toMap = (g.blocks.drainUpTo p).2.toMap
    rw [Blocks.toMap_drainUpTo, Blocks.toMap_drainUpTo, h.blocks]

theorem Alike.currentValue (h : f.Alike g) : f.currentValue = g.currentValue := by
  rw [LastAgg.currentValue, LastAgg.currentValue, h.finalized, Blocks.iter_eq, Blocks.iter_eq,
    h.blocks]

end LastAgg

namespace Agg

/-- Two aggregates of one function that hold the same final and unfinal data. -/
def Alike : Agg → Agg → Prop
  | .sum mode f, .sum mode' g => mode = mode' ∧ FoldAgg.Alike (sumKind mode) f g
  | .count f, .count g => FoldAgg.Alike countKind f g
  | .min mode f, .min mode' g => mode = mode' ∧ FoldAgg.Alike (minKind mode) f g
  | .max mode f, .max mode' g => mode = mode' ∧ FoldAgg.Alike (maxKind mode) f g
  | .avg mode f, .avg mode' g => mode = mode' ∧ FoldAgg.Alike (avgKind mode) f g
  | .first f, .first g => f.Alike g
  | .last f, .last g => f.Alike g
  | _, _ => False

variable {a a' : Agg}

/-- **No step tells them apart.** -/
theorem Alike.step (h : a.Alike a') (s : AggStep) : (a.step s).Alike (a'.step s) := by
  cases a <;> cases a' <;> first | exact False.elim h | skip
  case sum.sum =>
    obtain ⟨rfl, h⟩ := h
    cases s with
    | add block values => exact ⟨rfl, h.addBlock block values⟩
    | rollback p => exact ⟨rfl, h.removeBlocksAfter p⟩
    | finalize p => exact ⟨rfl, h.finalizeUpTo p⟩
  case count.count =>
    cases s with
    | add block values => exact FoldAgg.Alike.addBlock h block values
    | rollback p => exact FoldAgg.Alike.removeBlocksAfter h p
    | finalize p => exact FoldAgg.Alike.finalizeUpTo h p
  case min.min =>
    obtain ⟨rfl, h⟩ := h
    cases s with
    | add block values => exact ⟨rfl, h.addBlock block values⟩
    | rollback p => exact ⟨rfl, h.removeBlocksAfter p⟩
    | finalize p => exact ⟨rfl, h.finalizeUpTo p⟩
  case max.max =>
    obtain ⟨rfl, h⟩ := h
    cases s with
    | add block values => exact ⟨rfl, h.addBlock block values⟩
    | rollback p => exact ⟨rfl, h.removeBlocksAfter p⟩
    | finalize p => exact ⟨rfl, h.finalizeUpTo p⟩
  case avg.avg =>
    obtain ⟨rfl, h⟩ := h
    cases s with
    | add block values => exact ⟨rfl, h.addBlock block values⟩
    | rollback p => exact ⟨rfl, h.removeBlocksAfter p⟩
    | finalize p => exact ⟨rfl, h.finalizeUpTo p⟩
  case first.first =>
    cases s with
    | add block values => exact FirstAgg.Alike.addBlock h block values
    | rollback p =>
      refine ⟨h.finalized, ?_⟩
      rw [Blocks.toMap_removeAbove, Blocks.toMap_removeAbove, h.blocks]
    | finalize p => exact FirstAgg.Alike.finalizeUpTo h p
  case last.last =>
    cases s with
    | add block values => exact LastAgg.Alike.addBlock h block values
    | rollback p =>
      refine ⟨h.finalized, ?_⟩
      rw [Blocks.toMap_removeAbove, Blocks.toMap_removeAbove, h.blocks]
    | finalize p => exact LastAgg.Alike.finalizeUpTo h p

theorem Alike.run (h : a.Alike a') (steps : List AggStep) : (a.run steps).Alike (a'.run steps) := by
  induction steps generalizing a a' with
  | nil => exact h
  | cons s steps ih => exact ih (h.step s)

theorem Alike.shows (h : a.Alike a') :
    a.currentValue = a'.currentValue ∧ a.hasData = a'.hasData := by
  cases a <;> cases a' <;> first | exact False.elim h | skip
  case sum.sum =>
    obtain ⟨rfl, h⟩ := h
    exact h.shows
  case count.count => exact FoldAgg.Alike.shows h
  case min.min =>
    obtain ⟨rfl, h⟩ := h
    exact h.shows
  case max.max =>
    obtain ⟨rfl, h⟩ := h
    exact h.shows
  case avg.avg =>
    obtain ⟨rfl, h⟩ := h
    exact h.shows
  case first.first =>
    refine ⟨FirstAgg.Alike.currentValue h, ?_⟩
    rw [Agg.hasData, Agg.hasData, h.finalized, Blocks.isEmpty_eq, Blocks.isEmpty_eq, h.blocks]
  case last.last =>
    refine ⟨LastAgg.Alike.currentValue h, ?_⟩
    rw [Agg.hasData, Agg.hasData, h.finalized, Blocks.isEmpty_eq, Blocks.isEmpty_eq, h.blocks]

theorem alike_create (func : AggFunc) (ct : ColumnType) :
    (createAgg func ct).Alike (createAgg func ct) := by
  cases func with
  | sum => exact ⟨rfl, [], ∅, FoldAgg.rep_new, FoldAgg.rep_new⟩
  | count => exact ⟨[], ∅, FoldAgg.rep_new, FoldAgg.rep_new⟩
  | min => exact ⟨rfl, [], ∅, FoldAgg.rep_new, FoldAgg.rep_new⟩
  | max => exact ⟨rfl, [], ∅, FoldAgg.rep_new, FoldAgg.rep_new⟩
  | avg => exact ⟨rfl, [], ∅, FoldAgg.rep_new, FoldAgg.rep_new⟩
  | first => exact ⟨rfl, rfl⟩
  | last => exact ⟨rfl, rfl⟩

@[simp] theorem func_create (func : AggFunc) (ct : ColumnType) :
    (createAgg func ct).func = func := by
  cases func <;> rfl

@[simp] theorem func_run (a : Agg) (steps : List AggStep) : (a.run steps).func = a.func := by
  induction steps generalizing a with
  | nil => rfl
  | cons s steps ih =>
    rw [Agg.run, List.foldl_cons]
    refine (ih (a.step s)).trans ?_
    cases s <;> cases a <;> rfl

theorem func_writeFinalized (a : Agg) : a.writeFinalized.func = a.func := by
  cases a <;> rfl

/-- The flag of a count, which is not stored. -/
def Flagged : Agg → Prop
  | .count f => f.finalized.2 = true
  | _ => True

/-- The finalized part, read back, behaves like the aggregate it is from. -/
theorem Alike.restoreAgg (h : a.Alike a) (hb : a.blockNumbers = []) (hflag : a.Flagged) :
    ∃ a', Settle.restoreAgg a.func a.writeFinalized = some a' ∧ a.Alike a' := by
  cases a with
  | sum mode f => exact ⟨_, rfl, rfl, h.2.restored hb⟩
  | count f =>
    have hf : (f.finalized.1, true) = f.finalized := Prod.ext rfl hflag.symm
    refine ⟨_, rfl, ?_⟩
    show FoldAgg.Alike countKind f
      (FoldAgg.refold countKind ⟨(f.finalized.1, true), Blocks.new, none⟩)
    rw [hf]
    exact FoldAgg.Alike.restored h hb
  | min mode f => exact ⟨_, rfl, rfl, h.2.restored hb⟩
  | max mode f => exact ⟨_, rfl, rfl, h.2.restored hb⟩
  | avg mode f => exact ⟨_, rfl, rfl, h.2.restored hb⟩
  | first f =>
    refine ⟨_, rfl, rfl, ?_⟩
    have hnil := List.map_eq_nil_iff.mp hb
    rw [Blocks.iter_eq] at hnil
    exact ExtTreeMap.toList_eq_nil_iff.mp hnil
  | last f =>
    refine ⟨_, rfl, rfl, ?_⟩
    have hnil := List.map_eq_nil_iff.mp hb
    rw [Blocks.iter_eq] at hnil
    exact ExtTreeMap.toList_eq_nil_iff.mp hnil

end Agg

/-! ### Reached by a final block -/

/-- The blocks that fed an aggregate: the unfinal ones, and whether a final one did. -/
structure Feeding where
  unfinal : List BlockNumber := []
  reached : Bool := false

def Feeding.step (s : Feeding) : AggStep → Feeding
  | .add block _ => { s with unfinal := block :: s.unfinal }
  | .rollback forkPoint => { s with unfinal := s.unfinal.filter (· ≤ forkPoint) }
  | .finalize block =>
    { unfinal := s.unfinal.filter (block < ·)
      reached := s.reached || s.unfinal.any (· ≤ block) }

/-- A new aggregate after some steps: without unfinal blocks, and reached by a row of a final
block. -/
def Agg.FinalOnly (func : AggFunc) (ct : ColumnType) (a : Agg) : Prop :=
  ∃ steps : List AggStep, a = (createAgg func ct).run steps ∧ a.blockNumbers = [] ∧
    (steps.foldl Feeding.step {}).reached = true

theorem FoldAgg.addBlock_of_write {F T V : Type} {k : FoldKind F T V} {f : FoldAgg F T V}
    {block : BlockNumber} {values : List Value} {v : V}
    (hw : k.write (f.blocks.get block) values = some v) :
    (f.addBlock k block values).blocks = f.blocks.insert block v ∧
      (f.addBlock k block values).finalized = f.finalized := by
  rw [FoldAgg.addBlock, hw]
  dsimp only
  split
  · exact ⟨rfl, rfl⟩
  · rw [FoldAgg.refold]
    split <;> exact ⟨rfl, rfl⟩

/-- What a count holds of the blocks that fed it. -/
structure CountFed (s : Feeding) (f : FoldAgg (Nat × Bool) Nat Nat) : Prop where
  unfinal : ∀ b ∈ s.unfinal, b ∈ f.blocks.toMap
  reached : s.reached = true → f.finalized.2 = true

namespace CountFed

variable {s : Feeding} {f : FoldAgg (Nat × Bool) Nat Nat}

theorem addBlock (h : CountFed s f) (block : BlockNumber) (values : List Value) :
    CountFed (s.step (.add block values)) (f.addBlock countKind block values) := by
  have hwrite : countKind.write (f.blocks.get block) values
      = some ((f.blocks.get block).getD 0 + values.countP fun v => !v.isNull) := rfl
  obtain ⟨hblocks, hfinal⟩ := FoldAgg.addBlock_of_write hwrite
  refine ⟨?_, ?_⟩
  · intro b hb
    rw [hblocks, Blocks.toMap_insert, ExtTreeMap.mem_insert]
    rcases List.mem_cons.mp hb with rfl | hb
    · exact Or.inl ReflCmp.compare_self
    · exact Or.inr (h.unfinal b hb)
  · rw [hfinal]
    exact h.reached

theorem removeBlocksAfter (h : CountFed s f) (p : BlockNumber) :
    CountFed (s.step (.rollback p)) (f.removeBlocksAfter p) := by
  refine ⟨?_, h.reached⟩
  intro b hb
  have hb : b ∈ s.unfinal.filter (· ≤ p) := hb
  obtain ⟨hmem, hle⟩ := List.mem_filter.mp hb
  show b ∈ (f.blocks.removeAbove p).2.toMap
  rw [Blocks.toMap_removeAbove, OrdMap.mem_keep]
  exact ⟨h.unfinal b hmem, hle⟩

theorem finalizeUpTo (h : CountFed s f) (p : BlockNumber) :
    CountFed (s.step (.finalize p)) (f.finalizeUpTo countKind p) := by
  refine ⟨?_, ?_⟩
  · intro b hb
    have hb : b ∈ s.unfinal.filter (p < ·) := hb
    obtain ⟨hmem, hlt⟩ := List.mem_filter.mp hb
    show b ∈ (f.blocks.drainUpTo p).2.toMap
    rw [Blocks.toMap_drainUpTo, OrdMap.mem_keep]
    exact ⟨h.unfinal b hmem, hlt⟩
  · intro hreached
    have hreached : (s.reached || s.unfinal.any (· ≤ p)) = true := hreached
    -- every block that the advance drains sets the flag
    have hmerge : ∀ (l : List Nat) (t : Nat × Bool), t.2 = true ∨ l ≠ [] →
        (l.foldl countKind.merge t).2 = true := by
      intro l
      induction l with
      | nil => exact fun t ht => ht.resolve_right fun hne => hne rfl
      | cons v l ih => exact fun t _ => ih _ (Or.inl rfl)
    show ((f.blocks.drainUpTo p).1.foldl countKind.merge f.finalized).2 = true
    apply hmerge
    rcases Bool.or_eq_true_iff.mp hreached with hbefore | hnow
    · exact Or.inl (h.reached hbefore)
    · obtain ⟨b, hb, hle⟩ := List.any_eq_true.mp hnow
      right
      obtain ⟨n, hn⟩ := OrdMap.exists_getElem?_of_mem (h.unfinal b hb)
      rw [Blocks.drainUpTo_fst]
      intro hnil
      have hkeep : (OrdMap.keep f.blocks.toMap (· ≤ p))[b]? = some n := by
        rw [OrdMap.getElem?_keep, if_pos hle, hn]
      have hmem := ExtTreeMap.mem_toList_iff_getElem?_eq_some.mpr hkeep
      rw [List.map_eq_nil_iff.mp hnil] at hmem
      cases hmem

end CountFed

namespace Agg

/-- What a count holds of its blocks; nothing of the others. -/
def Fed (s : Feeding) : Agg → Prop
  | .count f => CountFed s f
  | _ => True

variable {a : Agg}

theorem Fed.step {s : Feeding} (h : a.Fed s) (e : AggStep) : (a.step e).Fed (s.step e) := by
  cases a with
  | count f =>
    cases e with
    | add block values => exact CountFed.addBlock h block values
    | rollback p => exact CountFed.removeBlocksAfter h p
    | finalize p => exact CountFed.finalizeUpTo h p
  | _ => cases e <;> trivial

theorem Fed.run {s : Feeding} (h : a.Fed s) (steps : List AggStep) :
    (a.run steps).Fed (steps.foldl Feeding.step s) := by
  induction steps generalizing a s with
  | nil => exact h
  | cons e steps ih => exact ih (h.step e)

theorem fed_create (func : AggFunc) (ct : ColumnType) : (createAgg func ct).Fed {} := by
  cases func with
  | count => exact ⟨fun _ hb => absurd hb List.not_mem_nil, fun hr => absurd hr (by decide)⟩
  | _ => trivial

variable {func : AggFunc} {ct : ColumnType}

theorem FinalOnly.func_eq (h : a.FinalOnly func ct) : a.func = func := by
  obtain ⟨steps, rfl, -, -⟩ := h
  rw [func_run, func_create]

/-- **A stored aggregate comes back as one that behaves the same.** -/
theorem FinalOnly.restoreAgg (h : a.FinalOnly func ct) :
    ∃ a', Settle.restoreAgg func a.writeFinalized = some a' ∧ a.Alike a' := by
  have hfunc := h.func_eq
  obtain ⟨steps, rfl, hblocks, hreached⟩ := h
  have halike := (alike_create func ct).run steps
  have hfed := (fed_create func ct).run steps
  have hflag : ((createAgg func ct).run steps).Flagged := by
    cases hrun : (createAgg func ct).run steps with
    | count f =>
      rw [hrun] at hfed
      exact CountFed.reached hfed hreached
    | _ => trivial
  have hrestore := halike.restoreAgg hblocks hflag
  rwa [hfunc] at hrestore

end Agg

end Settle
