import Settle.Engine.AggregationFold

/-!
# The running fold is a fresh fold

`SumAgg` of `src/engine/aggregation.rs` keeps a running fold of its blocks, so that a read
need not fold them. Float addition is not associative and saturating addition has no
inverse, so the cache is right only if it adds the same numbers in the same order: here the
addition is *any* function, a parameter `Addition`.

`FoldAgg.Cached` says that a running fold, if there is one, is the one that a fold of the
blocks onto the finalized part would build. Each operation keeps it, whether it extends
the running fold, drops it or leaves it alone, and so does every run of them over several
aggregates: `running_fold_is_fresh`.
-/

namespace Settle

open Std

/-! ## What a running fold caches -/

namespace FoldAgg

variable {F T V : Type} {k : FoldKind F T V} {a : FoldAgg F T V}

/-- A running fold is the fold of the blocks onto the finalized part, and there is one only
while the blocks are many. -/
def Cached (k : FoldKind F T V) (a : FoldAgg F T V) : Prop :=
  ∀ r, a.running = some r →
    r = RunningFold.new k.op (k.base a.finalized) a.blocks.toMap.toList ∧
      RUNNING_FOLD_MIN_BLOCKS ≤ a.blocks.len

/-- Without a running fold there is nothing to be right about. -/
theorem cached_of_none (h : a.running = none) : a.Cached k := by
  intro r hr
  rw [h] at hr
  cases hr

theorem cached_refold (a : FoldAgg F T V) : (a.refold k).Cached k := by
  rw [FoldAgg.refold]
  split
  · exact cached_of_none rfl
  · next hlen =>
    intro r hr
    cases hr
    exact ⟨by rw [Blocks.iter_eq], Nat.le_of_not_lt hlen⟩

theorem len_le_insert (bs : Blocks V) (block : BlockNumber) (value : V) :
    bs.len ≤ (bs.insert block value).len := by
  rw [Blocks.len_eq, Blocks.len_eq, Blocks.toMap_insert, ExtTreeMap.length_toList,
    ExtTreeMap.length_toList]
  exact ExtTreeMap.size_le_size_insert

theorem Cached.addBlock (h : a.Cached k) (block : BlockNumber) (values : List Value) :
    (a.addBlock k block values).Cached k := by
  rw [FoldAgg.addBlock]
  split
  · exact h
  · next value _ =>
    dsimp only
    split
    · next r hr =>
      -- the write landed on the newest block or above it
      obtain ⟨old, hold, hwrote⟩ := Option.bind_eq_some_iff.mp hr
      obtain ⟨rfl, hlen⟩ := h old hold
      intro r' hr'
      cases hr'
      refine ⟨?_, hlen.trans (len_le_insert a.blocks block value)⟩
      rw [Blocks.toMap_insert]
      exact RunningFold.wrote_new hwrote
    · exact cached_refold _

/-- Draining the oldest blocks into the seed performs the same additions in the same
order, so a running fold that stays is still right. -/
theorem Cached.finalizeUpTo (h : a.Cached k) (block : BlockNumber) :
    (a.finalizeUpTo k block).Cached k := by
  intro r hr
  rw [FoldAgg.finalizeUpTo] at hr ⊢
  dsimp only at hr ⊢
  split at hr
  · cases hr
  · next hlen =>
    have hlen := Nat.le_of_not_lt hlen
    refine ⟨?_, hlen⟩
    have hsplit := toList_split_at a.blocks.toMap block
    -- one block stays, so the newest one does
    have hstays : (OrdMap.keep a.blocks.toMap (block < ·)).toList ≠ [] := by
      intro hnil
      rw [Blocks.len_eq, Blocks.toMap_drainUpTo, hnil] at hlen
      exact absurd hlen (by simp [RUNNING_FOLD_MIN_BLOCKS])
    rw [(h r hr).1, hsplit, RunningFold.new_append_left _ _ _ hstays, Blocks.toMap_drainUpTo,
      Blocks.drainUpTo_fst, k.base_foldl]

theorem Cached.total (h : a.Cached k) {r : RunningFold T V} (hr : a.running = some r) :
    r.total = a.foldTotal k := by
  rw [(h r hr).1, RunningFold.new_total, foldTotal, Blocks.values_eq]

/-- What is shown does not depend on the cache. -/
theorem Cached.currentValue (h : a.Cached k) : a.currentValue k = k.value (a.foldTotal k) := by
  rw [FoldAgg.currentValue]
  cases hr : a.running with
  | none => rfl
  | some r => rw [Option.map_some, Option.getD_some, h.total hr]

end FoldAgg

/-! ## Sums -/

/-- The numbers that a `SumAgg` adds. Nothing is assumed of the addition. -/
structure Addition (A : Type) where
  zero : NumMode → A
  fromValue : NumMode → Value → Option A
  add : A → A → A
  toValue : A → Value

/-- The addition of the source. -/
def numAddition : Addition NumAccum :=
  { zero := NumAccum.zero, fromValue := NumAccum.fromValue, add := NumAccum.add,
    toValue := NumAccum.toValue }

/-- `SumAgg` with this addition. -/
def Addition.sumKind {A : Type} (n : Addition A) (mode : NumMode) : FoldKind (A × Bool) A A where
  seed := (n.zero mode, false)
  base := Prod.fst
  op := n.add
  merge f v := (n.add f.1 v, true)
  write old values :=
    let ns := values.filterMap (n.fromValue mode)
    if ns.isEmpty then none
    else some (n.add (old.getD (n.zero mode)) (ns.foldl n.add (n.zero mode)))
  present := Prod.snd
  value := n.toValue
  valid _ := True
  base_merge _ _ := rfl
  present_seed := rfl
  present_merge _ _ _ := rfl
  write_valid _ _ _ _ _ := trivial

/-- `SumAgg`: `agg.finalized` is the finalized sum, with `has_finalized`. -/
structure SumAgg (A : Type) where
  mode : NumMode
  agg : FoldAgg (A × Bool) A A

/-- What serde stores of a `SumAgg`: all but the running fold. -/
structure StoredSum (A : Type) where
  mode : NumMode
  finalized : A
  blocks : Blocks A
  hasFinalized : Bool

/-- `rmp_serde::from_slice` at a `SumAgg` and at the data of a block. -/
structure SumDecoder (A : Type) where
  sum : List UInt8 → Option (StoredSum A)
  block : List UInt8 → Option A

namespace SumAgg

variable {A : Type} (n : Addition A) (decoder : SumDecoder A)

def new (columnType : ColumnType) : SumAgg A :=
  let mode := NumMode.fromColumnType columnType
  { mode := mode, agg := FoldAgg.new (n.sumKind mode) }

/-- The blocks folded onto the finalized sum, in block order. -/
def foldTotal (a : SumAgg A) : A := a.agg.blocks.values.foldl n.add a.agg.finalized.1

def addBlock (a : SumAgg A) (block : BlockNumber) (values : List Value) : SumAgg A :=
  { a with agg := a.agg.addBlock (n.sumKind a.mode) block values }

def removeBlock (a : SumAgg A) (block : BlockNumber) : SumAgg A :=
  { a with agg := { a.agg with blocks := (a.agg.blocks.remove block).2, running := none } }

def removeBlocksAfter (a : SumAgg A) (forkPoint : BlockNumber) : SumAgg A :=
  { a with agg := a.agg.removeBlocksAfter forkPoint }

/-- Move the data of `block` into `into`: both aggregates afterwards. -/
def moveBlock (a : SumAgg A) (block : BlockNumber) (into : SumAgg A) : SumAgg A × SumAgg A :=
  ({ a with agg := (a.agg.moveBlock block into.agg).1 },
    { into with agg := (a.agg.moveBlock block into.agg).2 })

def finalizeUpTo (a : SumAgg A) (block : BlockNumber) : SumAgg A :=
  { a with agg := a.agg.finalizeUpTo (n.sumKind a.mode) block }

def currentValue (a : SumAgg A) : Value := a.agg.currentValue (n.sumKind a.mode)

/-- `from_bytes`: the running fold is not stored, so it is folded again. -/
def fromBytes (bytes : List UInt8) : Option (SumAgg A) := do
  let stored ← decoder.sum bytes
  let agg : FoldAgg (A × Bool) A A :=
    { finalized := (stored.finalized, stored.hasFinalized), blocks := stored.blocks,
      running := none }
  return { mode := stored.mode, agg := agg.refold (n.sumKind stored.mode) }

/-- `read_block`. The running fold is dropped even if the bytes do not decode. -/
def readBlock (a : SumAgg A) (block : BlockNumber) (bytes : List UInt8) :
    Option Unit × SumAgg A :=
  let a := { a with agg := { a.agg with running := none } }
  match decoder.block bytes with
  | none => (none, a)
  | some v => (some (), { a with agg := { a.agg with blocks := a.agg.blocks.insert block v } })

/-- The running fold of a sum is right. -/
def Cached (a : SumAgg A) : Prop := a.agg.Cached (n.sumKind a.mode)

theorem cached_new (columnType : ColumnType) : (new n columnType).Cached n :=
  FoldAgg.cached_of_none rfl

theorem cached_readBlock (a : SumAgg A) (block : BlockNumber) (bytes : List UInt8) :
    (a.readBlock decoder block bytes).2.Cached n := by
  rw [readBlock]
  dsimp only
  split
  · exact FoldAgg.cached_of_none rfl
  · exact FoldAgg.cached_of_none rfl

theorem cached_fromBytes {bytes : List UInt8} {a : SumAgg A}
    (h : fromBytes n decoder bytes = some a) : a.Cached n := by
  obtain ⟨stored, -, ha⟩ := Option.bind_eq_some_iff.mp h
  cases ha
  exact FoldAgg.cached_refold _

end SumAgg

/-! ## Runs over several sums -/

/-- The operations on the sums of a pool, each at one of them or between two. -/
inductive SumOp (ι : Type) where
  | addBlock (i : ι) (block : BlockNumber) (values : List Value)
  | removeBlock (i : ι) (block : BlockNumber)
  | removeBlocksAfter (i : ι) (forkPoint : BlockNumber)
  /-- the two are borrowed at once, so they differ -/
  | moveBlock (i into : ι) (distinct : i ≠ into) (block : BlockNumber)
  | finalizeUpTo (i : ι) (block : BlockNumber)
  | readBlock (i : ι) (block : BlockNumber) (bytes : List UInt8)
  /-- replace a sum by what the bytes hold, if they hold one -/
  | fromBytes (i : ι) (bytes : List UInt8)

namespace SumOp

variable {ι A : Type} [DecidableEq ι] (n : Addition A) (decoder : SumDecoder A)

def step (pool : ι → SumAgg A) : SumOp ι → ι → SumAgg A
  | .addBlock i block values => Function.update pool i ((pool i).addBlock n block values)
  | .removeBlock i block => Function.update pool i ((pool i).removeBlock block)
  | .removeBlocksAfter i forkPoint =>
    Function.update pool i ((pool i).removeBlocksAfter forkPoint)
  | .moveBlock i into _ block =>
    let moved := (pool i).moveBlock block (pool into)
    Function.update (Function.update pool i moved.1) into moved.2
  | .finalizeUpTo i block => Function.update pool i ((pool i).finalizeUpTo n block)
  | .readBlock i block bytes =>
    Function.update pool i ((pool i).readBlock decoder block bytes).2
  | .fromBytes i bytes =>
    match SumAgg.fromBytes n decoder bytes with
    | none => pool
    | some a => Function.update pool i a

def run (pool : ι → SumAgg A) (ops : List (SumOp ι)) : ι → SumAgg A :=
  ops.foldl (step n decoder) pool

variable {n decoder}

theorem cached_update {pool : ι → SumAgg A} (h : ∀ i, (pool i).Cached n) (i : ι) {a : SumAgg A}
    (ha : a.Cached n) : ∀ j, (Function.update pool i a j).Cached n := by
  intro j
  rw [Function.update_apply]
  split
  · exact ha
  · exact h j

/-- **One operation** keeps the running folds right. -/
theorem cached_step {pool : ι → SumAgg A} (h : ∀ i, (pool i).Cached n) (op : SumOp ι) :
    ∀ j, (step n decoder pool op j).Cached n := by
  cases op with
  | addBlock i block values =>
    apply cached_update h
    exact FoldAgg.Cached.addBlock (h i) block values
  | removeBlock i block =>
    apply cached_update h
    exact FoldAgg.cached_of_none rfl
  | removeBlocksAfter i forkPoint =>
    apply cached_update h
    exact FoldAgg.cached_of_none rfl
  | moveBlock i into distinct block =>
    apply cached_update
    · apply cached_update h
      exact FoldAgg.cached_of_none rfl
    · exact FoldAgg.cached_of_none rfl
  | finalizeUpTo i block =>
    apply cached_update h
    exact FoldAgg.Cached.finalizeUpTo (h i) block
  | readBlock i block bytes =>
    apply cached_update h
    exact SumAgg.cached_readBlock n decoder (pool i) block bytes
  | fromBytes i bytes =>
    rw [step]
    cases ha : SumAgg.fromBytes n decoder bytes with
    | none => exact h
    | some a => exact cached_update h i (SumAgg.cached_fromBytes n decoder ha)

theorem cached_run {pool : ι → SumAgg A} (h : ∀ i, (pool i).Cached n) (ops : List (SumOp ι)) :
    ∀ j, (run n decoder pool ops j).Cached n := by
  induction ops generalizing pool with
  | nil => exact h
  | cons op ops ih => exact ih (cached_step h op)

end SumOp

/-- **A running fold equals a fresh fold.** Take any addition, any number of new sums and
any run of operations on them. Each sum then shows the fold of its blocks, in block order,
onto its finalized value; a running fold has that total, and without it the sum shows the
same. A sum keeps a running fold only while it has eight blocks or more. -/
theorem running_fold_is_fresh {ι A : Type} [DecidableEq ι] (n : Addition A)
    (decoder : SumDecoder A) (columnTypes : ι → ColumnType) (ops : List (SumOp ι)) (i : ι) :
    let a := SumOp.run n decoder (fun i => SumAgg.new n (columnTypes i)) ops i
    (∀ r, a.agg.running = some r → r.total = a.foldTotal n ∧ 8 ≤ a.agg.blocks.len) ∧
      a.currentValue n = n.toValue (a.foldTotal n) ∧
      ({ a with agg := { a.agg with running := none } } : SumAgg A).currentValue n
        = a.currentValue n := by
  intro a
  have hcached : a.Cached n := SumOp.cached_run (fun i => SumAgg.cached_new n (columnTypes i)) ops i
  have hvalue : a.currentValue n = n.toValue (a.foldTotal n) := FoldAgg.Cached.currentValue hcached
  refine ⟨fun r hr => ⟨FoldAgg.Cached.total hcached hr, (hcached r hr).2⟩, hvalue, ?_⟩
  exact hvalue.symm

/-- Nine blocks with a one each: the eighth brings the running fold, the ninth extends it. -/
example : (((List.range 9).foldl (fun a b => SumAgg.addBlock numAddition a (.ofNat b) [.int64 1])
    (SumAgg.new numAddition .int64)).agg.running.map RunningFold.total) = some (.int 9) := by
  rfl

end Settle
