import Settle.Engine.Blocks

/-!
# Rollback-aware aggregates

The seven aggregates of `src/engine/aggregation.rs`. Each keeps a finalized part and
the data of every unfinal block apart, so that a rollback can drop whole blocks.

`SumAgg`, `CountAgg`, `MinAgg`, `MaxAgg` and `AvgAgg` are one construction, `FoldAgg`,
at five values of a `FoldKind`; `FirstAgg` and `LastAgg` keep bodies of their own.
`Agg` is the trait object `Box<dyn AggregationFunc>`.
-/

namespace Settle

open Std

/-! ## Numbers -/

/-- Whether an aggregation column uses integer, float, or big-integer arithmetic. -/
inductive NumMode where
  | int | float | bigInt
deriving DecidableEq

def NumMode.fromColumnType : ColumnType → NumMode
  | .uint64 | .int64 | .dateTime => .int
  | .uint256 => .bigInt
  | _ => .float

/-- Accumulates numeric values in an `i128`, the bits of an `f64`, or a `U256`. -/
inductive NumAccum where
  | int (v : Int)
  | float (bits : UInt64)
  | bigInt (v : BitVec 256)
deriving DecidableEq

/-- `i128::saturating_add`. -/
def i128SaturatingAdd (a b : Int) : Int := max (-2 ^ 127) (min (2 ^ 127 - 1) (a + b))

/-- `U256::saturating_add`. -/
def u256SaturatingAdd (a b : BitVec 256) : BitVec 256 :=
  BitVec.ofNat 256 (min (2 ^ 256 - 1) (a.toNat + b.toNat))

/-- `f64::min` on bits: a NaN loses against a number. -/
def f64Min (a b : UInt64) : UInt64 :=
  let x := Float.ofBits a
  let y := Float.ofBits b
  if y.isNaN then a else if x ≤ y then a else b

/-- `f64::max` on bits. -/
def f64Max (a b : UInt64) : UInt64 :=
  let x := Float.ofBits a
  let y := Float.ofBits b
  if y.isNaN then a else if y ≤ x then a else b

namespace NumAccum

def zero : NumMode → NumAccum
  | .int => .int 0
  | .float => .float 0
  | .bigInt => .bigInt 0

/-- Extract a numeric value, coercing to the accumulator's mode. -/
def fromValue (mode : NumMode) (v : Value) : Option NumAccum :=
  match mode with
  | .int =>
    match v with
    | .uint64 n => some (.int n.toNat)
    | .int64 n => some (.int n.toInt)
    | .dateTime n => some (.int n.toInt)
    | _ => none
  | .float => v.asF64.map .float
  | .bigInt =>
    match v with
    | .uint256 n => some (.bigInt n)
    | .uint64 n => some (.bigInt (BitVec.ofNat 256 n.toNat))
    | _ => none

-- The last case of `add`, `min` and `max` is `unreachable!`: the mode is fixed at
-- construction.

def add : NumAccum → NumAccum → NumAccum
  | .int a, .int b => .int (i128SaturatingAdd a b)
  | .float a, .float b => .float (Float.ofBits a + Float.ofBits b).toBits
  | .bigInt a, .bigInt b => .bigInt (u256SaturatingAdd a b)
  | a, _ => a

def min : NumAccum → NumAccum → NumAccum
  | .int a, .int b => .int (if a ≤ b then a else b)
  | .float a, .float b => .float (f64Min a b)
  | .bigInt a, .bigInt b => .bigInt (if a ≤ b then a else b)
  | a, _ => a

def max : NumAccum → NumAccum → NumAccum
  | .int a, .int b => .int (if b ≤ a then a else b)
  | .float a, .float b => .float (f64Max a b)
  | .bigInt a, .bigInt b => .bigInt (if b ≤ a then a else b)
  | a, _ => a

def toF64 : NumAccum → Float
  | .int v => Float.ofInt v
  | .float bits => Float.ofBits bits
  | .bigInt v => Float.ofInt v.toNat

def toValue : NumAccum → Value
  | .int v =>
    if 0 ≤ v ∧ v < 2 ^ 64 then .uint64 (UInt64.ofInt v)
    else if -2 ^ 63 ≤ v ∧ v < 2 ^ 63 then .int64 (Int64.ofInt v)
    else .float64 (Float.ofInt v).toBits
  | .float bits => .float64 bits
  | .bigInt v => .uint256 v

end NumAccum

/-! ## The running fold -/

/-- The unfinalized blocks from which an aggregate keeps a `RunningFold`. -/
def RUNNING_FOLD_MIN_BLOCKS : Nat := 8

/-- The blocks folded onto a seed in block order, kept current while writes land on the
newest block. -/
structure RunningFold (T V : Type) where
  /-- the seed and every block below the newest one -/
  belowNewest : T
  newest : Option (BlockNumber × V)
  total : T

namespace RunningFold

variable {T V : Type} (op : T → V → T)

/-- The loop of `new`: each block pushes the newest one so far into `below_newest`. -/
def scan (below : T) (newest : Option (BlockNumber × V)) :
    List (BlockNumber × V) → T × Option (BlockNumber × V)
  | [] => (below, newest)
  | e :: rest =>
    match newest with
    | none => scan below (some e) rest
    | some (_, v) => scan (op below v) (some e) rest

def new (seed : T) (blocks : List (BlockNumber × V)) : RunningFold T V :=
  let (below, newest) := scan op seed none blocks
  { belowNewest := below
    newest := newest
    total := (newest.map fun (_, v) => op below v).getD below }

/-- Account for `block` now holding `value`. None when the write landed below the newest
block: the caller must fold again. -/
def wrote (r : RunningFold T V) (block : BlockNumber) (value : V) : Option (RunningFold T V) :=
  match r.newest with
  | some (newest, below) =>
    if block < newest then none
    else
      let b := if newest < block then op r.belowNewest below else r.belowNewest
      some { belowNewest := b, newest := some (block, value), total := op b value }
  | none =>
    some { belowNewest := r.belowNewest, newest := some (block, value),
           total := op r.belowNewest value }

end RunningFold

/-! ## Folding aggregates -/

/-- What distinguishes the folding aggregates: the finalized part `F`, the total `T`
that a fold of the blocks gives, and the data `V` of one block. -/
structure FoldKind (F T V : Type) where
  /-- the finalized part of a new aggregate -/
  seed : F
  /-- the total that a fold of the unfinal blocks starts from -/
  base : F → T
  /-- fold one block into the total -/
  op : T → V → T
  /-- `finalize_up_to`: fold one block into the finalized part -/
  merge : F → V → F
  /-- `add_block`: the new data of a block, given its data so far; `none` when the values
  hold nothing for the aggregate -/
  write : Option V → List Value → Option V
  /-- whether the finalized part is data -/
  present : F → Bool
  /-- `current_value` of a total -/
  value : T → Value
  /-- what the data of a block satisfies -/
  valid : V → Prop
  base_merge : ∀ f v, base (merge f v) = op (base f) v
  present_seed : present seed = false
  present_merge : ∀ f v, valid v → present (merge f v) = true
  write_valid : ∀ old values v, (∀ o, old = some o → valid o) → write old values = some v → valid v

/-- `move_entry` on two sets of blocks. -/
def moveEntry {V : Type} (src into : Blocks V) (block : BlockNumber) : Blocks V × Blocks V :=
  let (value, rest) := src.remove block
  match value with
  | some v => (rest, into.insert block v)
  | none => (rest, into)

structure FoldAgg (F T V : Type) where
  finalized : F
  blocks : Blocks V
  running : Option (RunningFold T V)

namespace FoldAgg

variable {F T V : Type} (k : FoldKind F T V)

def new : FoldAgg F T V := { finalized := k.seed, blocks := Blocks.new, running := none }

def foldTotal (a : FoldAgg F T V) : T := a.blocks.values.foldl k.op (k.base a.finalized)

/-- Set the running fold, or clear it when the blocks are too few to need one. -/
def refold (a : FoldAgg F T V) : FoldAgg F T V :=
  if a.blocks.len < RUNNING_FOLD_MIN_BLOCKS then { a with running := none }
  else { a with running := some (RunningFold.new k.op (k.base a.finalized) a.blocks.iter) }

def addBlock (a : FoldAgg F T V) (block : BlockNumber) (values : List Value) : FoldAgg F T V :=
  match k.write (a.blocks.get block) values with
  | none => a
  | some value =>
    let a' := { a with blocks := a.blocks.insert block value }
    match a.running.bind fun r => r.wrote k.op block value with
    | some r => { a' with running := some r }
    | none => refold k a'

def removeBlocksAfter (a : FoldAgg F T V) (forkPoint : BlockNumber) : FoldAgg F T V :=
  { a with blocks := (a.blocks.removeAbove forkPoint).2, running := none }

/-- Move the data of `block` into `into`: both aggregates afterwards. -/
def moveBlock (a : FoldAgg F T V) (block : BlockNumber) (into : FoldAgg F T V) :
    FoldAgg F T V × FoldAgg F T V :=
  let (bs, cs) := moveEntry a.blocks into.blocks block
  ({ a with blocks := bs, running := none }, { into with blocks := cs, running := none })

def finalizeUpTo (a : FoldAgg F T V) (block : BlockNumber) : FoldAgg F T V :=
  let (drained, rest) := a.blocks.drainUpTo block
  { finalized := drained.foldl k.merge a.finalized
    blocks := rest
    running := if rest.len < RUNNING_FOLD_MIN_BLOCKS then none else a.running }

def currentValue (a : FoldAgg F T V) : Value :=
  k.value ((a.running.map RunningFold.total).getD (foldTotal k a))

def hasData (a : FoldAgg F T V) : Bool := k.present a.finalized || !a.blocks.isEmpty

end FoldAgg

/-! ### The five kinds -/

/-- `SumAgg`: the finalized sum, with whether a final block reached it. -/
def sumKind (mode : NumMode) : FoldKind (NumAccum × Bool) NumAccum NumAccum where
  seed := (NumAccum.zero mode, false)
  base := Prod.fst
  op := NumAccum.add
  merge f v := (f.1.add v, true)
  write old values :=
    let ns := values.filterMap (NumAccum.fromValue mode)
    if ns.isEmpty then none
    else some ((old.getD (NumAccum.zero mode)).add (ns.foldl NumAccum.add (NumAccum.zero mode)))
  present := Prod.snd
  value := NumAccum.toValue
  valid _ := True
  base_merge _ _ := rfl
  present_seed := rfl
  present_merge _ _ _ := rfl
  write_valid _ _ _ _ _ := trivial

/-- `CountAgg`. A row count stays below 2^64, so it is a `Nat`. -/
def countKind : FoldKind (Nat × Bool) Nat Nat where
  seed := (0, false)
  base := Prod.fst
  op total count := total + count
  merge f v := (f.1 + v, true)
  write old values := some (old.getD 0 + values.countP fun v => !v.isNull)
  present := Prod.snd
  value total := .uint64 (UInt64.ofNat total)
  valid _ := True
  base_merge _ _ := rfl
  present_seed := rfl
  present_merge _ _ _ := rfl
  write_valid _ _ _ _ _ := trivial

/-- `min_into` and `max_into`. -/
def extremumInto (pick : NumAccum → NumAccum → NumAccum) (acc : Option NumAccum)
    (value : NumAccum) : Option NumAccum :=
  some ((acc.map fun a => pick a value).getD value)

/-- `Iterator::reduce`. -/
def reduce (pick : NumAccum → NumAccum → NumAccum) : List NumAccum → Option NumAccum
  | [] => none
  | n :: ns => some (ns.foldl pick n)

/-- `MinAgg` and `MaxAgg`. -/
def extremumKind (pick : NumAccum → NumAccum → NumAccum) (mode : NumMode) :
    FoldKind (Option NumAccum) (Option NumAccum) NumAccum where
  seed := none
  base := id
  op := extremumInto pick
  merge := extremumInto pick
  write old values :=
    (reduce pick (values.filterMap (NumAccum.fromValue mode))).map fun v => pick (old.getD v) v
  present := Option.isSome
  value total := (total.map NumAccum.toValue).getD .null
  valid _ := True
  base_merge _ _ := rfl
  present_seed := rfl
  present_merge _ _ _ := rfl
  write_valid _ _ _ _ _ := trivial

def minKind (mode : NumMode) := extremumKind NumAccum.min mode

def maxKind (mode : NumMode) := extremumKind NumAccum.max mode

/-- The sum and the count of an average. -/
abbrev SumCount := NumAccum × Nat

def addSumCount (total block : SumCount) : SumCount := (total.1.add block.1, total.2 + block.2)

def avgValue : SumCount → Value
  | (_, 0) => .null
  | (.bigInt sum, count) => .uint256 (sum / BitVec.ofNat 256 count)
  | (sum, count) => .float64 (sum.toF64 / (UInt64.ofNat count).toFloat).toBits

/-- The loop of `AvgAgg::add_block`. -/
def sumCountOf (mode : NumMode) (values : List Value) : SumCount :=
  values.foldl (fun acc v =>
    match NumAccum.fromValue mode v with
    | some n => (acc.1.add n, acc.2 + 1)
    | none => acc) (NumAccum.zero mode, 0)

/-- `AvgAgg`, stored as (sum, count) internally. -/
def avgKind (mode : NumMode) : FoldKind SumCount SumCount SumCount where
  seed := (NumAccum.zero mode, 0)
  base := id
  op := addSumCount
  merge := addSumCount
  write old values :=
    let sc := sumCountOf mode values
    if sc.2 = 0 then none else some (addSumCount (old.getD (NumAccum.zero mode, 0)) sc)
  present f := 0 < f.2
  value := avgValue
  valid v := 0 < v.2
  base_merge _ _ := rfl
  present_seed := rfl
  present_merge f v h := by
    have hv : (addSumCount f v).2 = f.2 + v.2 := rfl
    simp only [hv, decide_eq_true_eq]
    omega
  write_valid old values v _ h := by
    dsimp only at h
    split at h
    · cases h
    · next hne =>
      cases h
      show 0 < (old.getD (NumAccum.zero mode, 0)).2 + (sumCountOf mode values).2
      omega

/-! ## First and last -/

/-- The finalized value is immutable once set; per-block first candidates. -/
structure FirstAgg where
  finalized : Option Value
  blocks : Blocks Value

namespace FirstAgg

def new : FirstAgg := { finalized := none, blocks := Blocks.new }

def addBlock (a : FirstAgg) (block : BlockNumber) (values : List Value) : FirstAgg :=
  if (a.blocks.get block).isSome then a -- keep the first value for this block
  else
    match values.find? fun v => !v.isNull with
    | some first => { a with blocks := a.blocks.insert block first }
    | none => a

def finalizeUpTo (a : FirstAgg) (block : BlockNumber) : FirstAgg :=
  let (drained, rest) := a.blocks.drainUpTo block
  { finalized := drained.foldl (fun f v => if f.isNone then some v else f) a.finalized
    blocks := rest }

def currentValue (a : FirstAgg) : Value :=
  match a.finalized with
  | some v => v -- it is the earliest value ever
  | none => a.blocks.values.head?.getD .null

end FirstAgg

/-- Per-block last values; the latest remaining counts. -/
structure LastAgg where
  finalized : Option Value
  blocks : Blocks Value

namespace LastAgg

def new : LastAgg := { finalized := none, blocks := Blocks.new }

def addBlock (a : LastAgg) (block : BlockNumber) (values : List Value) : LastAgg :=
  match values.reverse.find? fun v => !v.isNull with
  | some last => { a with blocks := a.blocks.insert block last }
  | none => a

def finalizeUpTo (a : LastAgg) (block : BlockNumber) : LastAgg :=
  let (drained, rest) := a.blocks.drainUpTo block
  { finalized := drained.foldl (fun _ v => some v) a.finalized
    blocks := rest }

def currentValue (a : LastAgg) : Value :=
  match a.blocks.iter.getLast? with
  | some (_, v) => v
  | none => a.finalized.getD .null

end LastAgg

/-! ## The trait object -/

inductive AggFunc where
  | sum | count | min | max | avg | first | last
deriving DecidableEq

/-- `Box<dyn AggregationFunc>`. -/
inductive Agg where
  | sum (mode : NumMode) (a : FoldAgg (NumAccum × Bool) NumAccum NumAccum)
  | count (a : FoldAgg (Nat × Bool) Nat Nat)
  | min (mode : NumMode) (a : FoldAgg (Option NumAccum) (Option NumAccum) NumAccum)
  | max (mode : NumMode) (a : FoldAgg (Option NumAccum) (Option NumAccum) NumAccum)
  | avg (mode : NumMode) (a : FoldAgg SumCount SumCount SumCount)
  | first (a : FirstAgg)
  | last (a : LastAgg)

/-- The bytes of `write_finalized`, decoded: the finalized part of an aggregate. The
flag of a count is not stored. -/
inductive StoredAgg where
  | sum (mode : NumMode) (finalized : NumAccum) (hasFinalized : Bool)
  | count (finalized : Nat)
  | min (mode : NumMode) (finalized : Option NumAccum)
  | max (mode : NumMode) (finalized : Option NumAccum)
  | avg (mode : NumMode) (finalizedSum : NumAccum) (finalizedCount : Nat)
  | first (finalized : Option Value)
  | last (finalized : Option Value)
deriving DecidableEq

/-- The bytes of `write_block`, decoded: the data of one block. -/
inductive BlockData where
  | num (v : NumAccum)
  | count (v : Nat)
  | sumCount (v : SumCount)
  | value (v : Value)
deriving DecidableEq

/-- Create an aggregate from the schema's function and source column type. -/
def createAgg (func : AggFunc) (columnType : ColumnType) : Agg :=
  let mode := NumMode.fromColumnType columnType
  match func with
  | .sum => .sum mode (FoldAgg.new (sumKind mode))
  | .count => .count (FoldAgg.new countKind)
  | .min => .min mode (FoldAgg.new (minKind mode))
  | .max => .max mode (FoldAgg.new (maxKind mode))
  | .avg => .avg mode (FoldAgg.new (avgKind mode))
  | .first => .first FirstAgg.new
  | .last => .last LastAgg.new

/-- Restore an aggregate from its stored part: none if it is of another kind. -/
def restoreAgg (func : AggFunc) (stored : StoredAgg) : Option Agg :=
  match func, stored with
  | .sum, .sum mode f has =>
    some (.sum mode (FoldAgg.refold (sumKind mode) ⟨(f, has), Blocks.new, none⟩))
  -- Only stored groups decode, and each of them had a final block.
  | .count, .count f => some (.count (FoldAgg.refold countKind ⟨(f, true), Blocks.new, none⟩))
  | .min, .min mode f => some (.min mode (FoldAgg.refold (minKind mode) ⟨f, Blocks.new, none⟩))
  | .max, .max mode f => some (.max mode (FoldAgg.refold (maxKind mode) ⟨f, Blocks.new, none⟩))
  | .avg, .avg mode s c =>
    some (.avg mode (FoldAgg.refold (avgKind mode) ⟨(s, c), Blocks.new, none⟩))
  | .first, .first f => some (.first ⟨f, Blocks.new⟩)
  | .last, .last f => some (.last ⟨f, Blocks.new⟩)
  | _, _ => none

namespace Agg

/-- Feed values from a single block into the aggregation. -/
def addBlock (a : Agg) (block : BlockNumber) (values : List Value) : Agg :=
  match a with
  | .sum mode f => .sum mode (f.addBlock (sumKind mode) block values)
  | .count f => .count (f.addBlock countKind block values)
  | .min mode f => .min mode (f.addBlock (minKind mode) block values)
  | .max mode f => .max mode (f.addBlock (maxKind mode) block values)
  | .avg mode f => .avg mode (f.addBlock (avgKind mode) block values)
  | .first f => .first (f.addBlock block values)
  | .last f => .last (f.addBlock block values)

/-- Remove all blocks after `forkPoint` in one operation (batch rollback). -/
def removeBlocksAfter (a : Agg) (forkPoint : BlockNumber) : Agg :=
  match a with
  | .sum mode f => .sum mode (f.removeBlocksAfter forkPoint)
  | .count f => .count (f.removeBlocksAfter forkPoint)
  | .min mode f => .min mode (f.removeBlocksAfter forkPoint)
  | .max mode f => .max mode (f.removeBlocksAfter forkPoint)
  | .avg mode f => .avg mode (f.removeBlocksAfter forkPoint)
  | .first f => .first { f with blocks := (f.blocks.removeAbove forkPoint).2 }
  | .last f => .last { f with blocks := (f.blocks.removeAbove forkPoint).2 }

/-- Move the data of `block` into `into`, an aggregate of the same kind: both
afterwards. `same_kind` panics on another kind. -/
def moveBlock (a : Agg) (block : BlockNumber) (into : Agg) : Agg × Agg :=
  match a, into with
  | .sum mode f, .sum mode' g =>
    let (f, g) := f.moveBlock block g
    (.sum mode f, .sum mode' g)
  | .count f, .count g =>
    let (f, g) := f.moveBlock block g
    (.count f, .count g)
  | .min mode f, .min mode' g =>
    let (f, g) := f.moveBlock block g
    (.min mode f, .min mode' g)
  | .max mode f, .max mode' g =>
    let (f, g) := f.moveBlock block g
    (.max mode f, .max mode' g)
  | .avg mode f, .avg mode' g =>
    let (f, g) := f.moveBlock block g
    (.avg mode f, .avg mode' g)
  | .first f, .first g =>
    let (bs, cs) := moveEntry f.blocks g.blocks block
    (.first { f with blocks := bs }, .first { g with blocks := cs })
  | .last f, .last g =>
    let (bs, cs) := moveEntry f.blocks g.blocks block
    (.last { f with blocks := bs }, .last { g with blocks := cs })
  | a, into => (a, into)

/-- Finalize all blocks up to and including the given block. -/
def finalizeUpTo (a : Agg) (block : BlockNumber) : Agg :=
  match a with
  | .sum mode f => .sum mode (f.finalizeUpTo (sumKind mode) block)
  | .count f => .count (f.finalizeUpTo countKind block)
  | .min mode f => .min mode (f.finalizeUpTo (minKind mode) block)
  | .max mode f => .max mode (f.finalizeUpTo (maxKind mode) block)
  | .avg mode f => .avg mode (f.finalizeUpTo (avgKind mode) block)
  | .first f => .first (f.finalizeUpTo block)
  | .last f => .last (f.finalizeUpTo block)

/-- The current aggregated value (finalized and all unfinalized blocks). -/
def currentValue : Agg → Value
  | .sum mode f => f.currentValue (sumKind mode)
  | .count f => f.currentValue countKind
  | .min mode f => f.currentValue (minKind mode)
  | .max mode f => f.currentValue (maxKind mode)
  | .avg mode f => f.currentValue (avgKind mode)
  | .first f => f.currentValue
  | .last f => f.currentValue

/-- Whether the aggregation has any data (finalized or unfinalized). -/
def hasData : Agg → Bool
  | .sum mode f => f.hasData (sumKind mode)
  | .count f => f.hasData countKind
  | .min mode f => f.hasData (minKind mode)
  | .max mode f => f.hasData (maxKind mode)
  | .avg mode f => f.hasData (avgKind mode)
  | .first f => f.finalized.isSome || !f.blocks.isEmpty
  | .last f => f.finalized.isSome || !f.blocks.isEmpty

/-- Only the finalized portion: unfinalized blocks are replayed on recovery. -/
def writeFinalized : Agg → StoredAgg
  | .sum mode f => .sum mode f.finalized.1 f.finalized.2
  | .count f => .count f.finalized.1
  | .min mode f => .min mode f.finalized
  | .max mode f => .max mode f.finalized
  | .avg mode f => .avg mode f.finalized.1 f.finalized.2
  | .first f => .first f.finalized
  | .last f => .last f.finalized

/-- The data of `block`: none if the aggregate holds none. -/
def writeBlock (a : Agg) (block : BlockNumber) : Option BlockData :=
  match a with
  | .sum _ f => (f.blocks.get block).map .num
  | .count f => (f.blocks.get block).map .count
  | .min _ f => (f.blocks.get block).map .num
  | .max _ f => (f.blocks.get block).map .num
  | .avg _ f => (f.blocks.get block).map .sumCount
  | .first f => (f.blocks.get block).map .value
  | .last f => (f.blocks.get block).map .value

/-- Add the data of `block` that `write_block` wrote: none if it is of another kind. -/
def readBlock (a : Agg) (block : BlockNumber) (data : BlockData) : Option Agg :=
  match a, data with
  | .sum mode f, .num v => some (.sum mode { f with blocks := f.blocks.insert block v, running := none })
  | .count f, .count v => some (.count { f with blocks := f.blocks.insert block v, running := none })
  | .min mode f, .num v => some (.min mode { f with blocks := f.blocks.insert block v, running := none })
  | .max mode f, .num v => some (.max mode { f with blocks := f.blocks.insert block v, running := none })
  | .avg mode f, .sumCount v =>
    some (.avg mode { f with blocks := f.blocks.insert block v, running := none })
  | .first f, .value v => some (.first { f with blocks := f.blocks.insert block v })
  | .last f, .value v => some (.last { f with blocks := f.blocks.insert block v })
  | _, _ => none

end Agg

/-- Truncate a DateTime (milliseconds) to the start of the given interval. -/
def toStartOfInterval (datetimeMs : Int64) (intervalSeconds : UInt64) : Int64 :=
  let intervalMs := intervalSeconds.toInt64 * 1000
  if intervalMs = 0 then datetimeMs else datetimeMs / intervalMs * intervalMs

end Settle
