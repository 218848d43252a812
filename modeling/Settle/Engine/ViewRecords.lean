import Settle.Engine.AggregationSteps
import Settle.Engine.BlocksMap
import Settle.Engine.View
import Settle.Schema.Validate
import Settle.Storage.ValueCodec

/-!
# The records of a view

The bytes of `src/engine/mv.rs`: `write_mv_group` with its reader `deserialize_mv_group`, for the
finalized part of a group, and `window_record` with `read_window_record`, for one block of a sliding
window.

`View` has the data of these records (`StoredAgg`, `WindowRecord`). Here is their framing: counts,
lengths, keys, and the length zero of an aggregate that holds nothing. The blobs go through
`rmp_serde`, which is `RmpSerde`.
-/

namespace Settle

open Std Wire

/-! ## What is written -/

/-- The types that `write_block` serializes. -/
inductive DataKind where
  | num | count | sumCount | value
deriving DecidableEq

def BlockData.kind : BlockData → DataKind
  | .num _ => .num
  | .count _ => .count
  | .sumCount _ => .sumCount
  | .value _ => .value

def AggFunc.dataKind : AggFunc → DataKind
  | .sum | .min | .max => .num
  | .count => .count
  | .avg => .sumCount
  | .first | .last => .value

/-- The type that `read_entry` deserializes. -/
def Agg.dataKind (a : Agg) : DataKind := a.func.dataKind

/-- `rmp_serde`, on the forms that a view stores. -/
structure RmpSerde where
  agg : StoredAgg → Bytes
  /-- `from_slice` of the aggregate of a function -/
  readAgg : AggFunc → Bytes → Option StoredAgg
  block : BlockData → Bytes
  readBlock : DataKind → Bytes → Option BlockData
  /-- whether `from_slice` reads the last output that older builds stored -/
  readsOutput : Bytes → Bool

namespace RmpSerde

variable (rmp : RmpSerde)

/-- `write_mv_group` of the finalized parts. More than 255 aggregates panic. -/
def serializeMvGroup (aggs : List Agg) : Option Bytes :=
  if 255 < aggs.length then none
  else some (le 1 aggs.length ++
    (aggs.flatMap fun a => lengthPrefixed (rmp.agg a.writeFinalized)) ++ [0])

/-- What `write_block` appends: nothing if the aggregate holds no data of the block. -/
def blockBytes (block : BlockNumber) (agg : Agg) : Bytes :=
  ((agg.writeBlock block).map rmp.block).getD []

/-- One group of a window record. -/
def windowGroup (block : BlockNumber) (e : GroupKey × List Agg) : Bytes :=
  lengthPrefixed (encodeGroupKey e.1) ++
    e.2.flatMap fun a => lengthPrefixed (rmp.blockBytes block a)

/-- `window_record`. A group with no data in the block is cut off again. -/
def windowRecord (block : BlockNumber) (ts : Int64) (groups : List (GroupKey × List Agg)) :
    Bytes :=
  let kept := groups.filter fun e => e.2.any fun a => (a.writeBlock block).isSome
  le 8 ts.toBitVec.toNat ++ (le 4 (kept.length % 2 ^ 32) ++
    kept.flatMap (rmp.windowGroup block))

/-! ## What is read -/

/-- The next bytes, as a number. -/
def readUint (width : Nat) : Reader Unit Nat := do
  let bytes ← take (fun _ => ()) width
  pure (ofLe bytes)

/-- `read_slice`. -/
def readSlice : Reader Unit Bytes := do
  let len ← readUint 4
  take (fun _ => ()) len

/-- `ok_or` without a message. -/
def orFail {α : Type} (o : Option α) : Except Unit α := o.elim (.error ()) .ok

/-- The loop of `deserialize_mv_group`. -/
def readAggs : List AggFunc → Reader Unit (List Agg)
  | [] => pure []
  | func :: rest => do
    let blob ← readSlice
    let a ← check (orFail ((rmp.readAgg func blob).bind (restoreAgg func)))
    let as ← readAggs rest
    pure (a :: as)

/-- The flag of the last output, and the output itself. -/
def readPrev : Reader Unit Unit := do
  let flag ← readUint 1
  match flag with
  | 0 => pure ()
  | 1 => do
    let output ← readSlice
    check (if rmp.readsOutput output then .ok () else .error ())
  | _ => check (.error ())

/-- `deserialize_mv_group`, before it looks for trailing bytes. -/
def readMvGroup (funcs : List AggFunc) : Reader Unit (List Agg) := do
  let n ← readUint 1
  check (if n ≠ funcs.length then .error () else .ok ())
  let aggs ← rmp.readAggs funcs
  rmp.readPrev
  pure aggs

def deserializeMvGroup (funcs : List AggFunc) (bytes : Bytes) : Except Unit (List Agg) :=
  whole (rmp.readMvGroup funcs) (fun _ _ => ()) bytes

/-- `read_block`, with the look at whether there is data. -/
def readBlockBytes (block : BlockNumber) (agg : Agg) (bytes : Bytes) : Option Agg :=
  if bytes.isEmpty then some agg
  else (rmp.readBlock agg.dataKind bytes).bind (agg.readBlock block)

/-- The loop over the aggregates of a group. -/
def readBlocks (block : BlockNumber) : List Agg → Reader Unit (List Agg)
  | [] => pure []
  | agg :: rest => do
    let bytes ← readSlice
    let a ← check (orFail (rmp.readBlockBytes block agg bytes))
    let as ← readBlocks block rest
    pure (a :: as)

variable (serde : JsonText) (v : MVShape)

/-- The loop over the groups of a record. It applies each group as it reads it. -/
def readWindowGroups (block : BlockNumber) : Nat → MVEngine → Reader Unit MVEngine
  | 0, m => pure m
  | n + 1, m => do
    let bytes ← readSlice
    let key ← check (orFail (serde.decodeValues bytes).toOption)
    let group := m.groups[key]?.getD (Group.new v.createAggVec)
    let aggs ← rmp.readBlocks block group.aggs
    readWindowGroups block n { m with
      groups := m.groups.insert key { group with aggs := aggs }
      blockGroups := m.blockGroups.alter block fun keys => some ((keys.getD ∅).insert key) }

/-- `read_window_record`, before it looks for trailing bytes. -/
def readWindow (block : BlockNumber) (m : MVEngine) : Reader Unit MVEngine := do
  let ts ← readUint 8
  let groupCount ← readUint 4
  readWindowGroups rmp serde v block groupCount
    { m with blockTimes := m.blockTimes.insert block (Int64.ofBitVec (BitVec.ofNat 64 ts)) }

/-- `read_window_record`. The caller discards the engine when it fails. -/
def readWindowRecord (m : MVEngine) (block : BlockNumber) (record : Bytes) : Except Unit MVEngine :=
  whole (rmp.readWindow serde v block m) (fun _ _ => ()) record

end RmpSerde

/-! ## Reading a group back -/

namespace RmpSerde

theorem local_readUint (width : Nat) : Local (readUint width) :=
  (local_take _ width).bind fun _ => Local.pure _

theorem local_readSlice : Local readSlice := (local_readUint 4).bind fun n => local_take _ n

theorem reads_uint {width n : Nat} (hn : n < 256 ^ width) :
    Reads (readUint width) (le width n) n := by
  have h := (reads_take (fun _ => ()) (le width n)).map ofLe
  rw [ofLe_le hn, length_le] at h
  exact h

theorem reads_slice {bytes : Bytes} (hlen : bytes.length < 2 ^ 32) :
    Reads readSlice (lengthPrefixed bytes) bytes := by
  rw [lengthPrefixed, Nat.mod_eq_of_lt hlen]
  exact (reads_uint hlen).bind (reads_take _ bytes)

theorem reads_orFail {α : Type} {o : Option α} {a : α} (h : o = some a) :
    Reads (check (orFail o)) [] a := by
  rw [h]
  exact reads_check a

/-- A slice, what it decodes to, and then the rest of a list. -/
theorem reads_entry {α : Type} (decode : Bytes → Option α) {bytes more : Bytes} {a : α}
    {rest : Reader Unit (List α)} {as : List α} (hlen : bytes.length < 2 ^ 32)
    (hdecode : decode bytes = some a) (hrest : Reads rest more as) :
    Reads (do
        let bytes ← readSlice
        let a ← check (orFail (decode bytes))
        let as ← rest
        pure (a :: as))
      (lengthPrefixed bytes ++ more) (a :: as) :=
  (reads_slice hlen).bind ((reads_orFail hdecode).bind (hrest.map fun as => a :: as))

theorem local_entry {α : Type} (decode : Bytes → Option α) {rest : Reader Unit (List α)}
    (hrest : Local rest) :
    Local (do
        let bytes ← readSlice
        let a ← check (orFail (decode bytes))
        let as ← rest
        pure (a :: as)) :=
  local_readSlice.bind fun _ => (local_check _).bind fun _ => hrest.bind fun _ => Local.pure _

variable (rmp : RmpSerde)

/-- `rmp_serde` reads back the form of an aggregate, which has fewer than 2³² bytes. -/
structure KeepsAgg (s : StoredAgg) : Prop where
  back : rmp.readAgg s.func (rmp.agg s) = some s
  length : (rmp.agg s).length < 2 ^ 32

/-- `rmp_serde` reads back the data of a block, which has at least one byte (every MessagePack
value has) and fewer than 2³². -/
structure KeepsBlock (d : BlockData) : Prop where
  back : rmp.readBlock d.kind (rmp.block d) = some d
  ne_nil : rmp.block d ≠ []
  length : (rmp.block d).length < 2 ^ 32

variable {rmp}

theorem local_readAggs (funcs : List AggFunc) : Local (rmp.readAggs funcs) := by
  induction funcs with
  | nil => exact Local.pure []
  | cons func funcs ih =>
    exact local_entry (fun blob => (rmp.readAgg func blob).bind (restoreAgg func)) ih

theorem local_readPrev : Local rmp.readPrev := by
  refine (local_readUint 1).bind fun flag => ?_
  split
  · exact Local.pure ()
  · exact local_readSlice.bind fun _ => local_check _
  · exact local_check _

theorem local_readMvGroup (funcs : List AggFunc) : Local (rmp.readMvGroup funcs) :=
  (local_readUint 1).bind fun _ => (local_check _).bind fun _ =>
    (local_readAggs funcs).bind fun _ => local_readPrev.bind fun _ => Local.pure _

theorem reads_aggs {feeds : List AggFeed} {aggs : List Agg}
    (h : List.Forall₂ (fun (f : AggFeed) (a : Agg) => a.FinalOnly f.func f.columnType) feeds aggs)
    (hrmp : ∀ a ∈ aggs, rmp.KeepsAgg a.writeFinalized) :
    ∃ aggs', Reads (rmp.readAggs (feeds.map AggFeed.func))
        (aggs.flatMap fun a => lengthPrefixed (rmp.agg a.writeFinalized)) aggs' ∧
      List.Forall₂ Agg.Alike aggs aggs' := by
  induction h with
  | nil => exact ⟨[], Reads.pure [], .nil⟩
  | @cons f a feeds aggs hfinal hrest ih =>
    obtain ⟨aggs', hreads, halike⟩ := ih fun b hb => hrmp b (List.mem_cons_of_mem a hb)
    obtain ⟨a', hrestore, ha⟩ := hfinal.restoreAgg
    obtain ⟨hback, hlen⟩ := hrmp a List.mem_cons_self
    rw [Agg.func_writeFinalized, hfinal.func_eq] at hback
    have hdecode : (rmp.readAgg f.func (rmp.agg a.writeFinalized)).bind (restoreAgg f.func)
        = some a' := by
      rw [hback]
      exact hrestore
    refine ⟨a' :: aggs', ?_, .cons ha halike⟩
    rw [List.flatMap_cons]
    exact reads_entry (fun blob => (rmp.readAgg f.func blob).bind (restoreAgg f.func))
      hlen hdecode hreads

theorem reads_mvGroup {feeds : List AggFeed} {aggs : List Agg} (hcount : feeds.length ≤ 255)
    (h : List.Forall₂ (fun (f : AggFeed) (a : Agg) => a.FinalOnly f.func f.columnType) feeds aggs)
    (hrmp : ∀ a ∈ aggs, rmp.KeepsAgg a.writeFinalized) :
    ∃ bytes aggs', rmp.serializeMvGroup aggs = some bytes ∧
      Reads (rmp.readMvGroup (feeds.map AggFeed.func)) bytes aggs' ∧
      List.Forall₂ Agg.Alike aggs aggs' := by
  have hlen : aggs.length = feeds.length := h.length_eq.symm
  obtain ⟨aggs', hreads, halike⟩ := reads_aggs h hrmp
  refine ⟨_, aggs', if_neg (by omega), ?_, halike⟩
  have hprev : Reads rmp.readPrev [0] () :=
    (reads_uint (by decide : 0 < 256 ^ 1)).bind (Reads.pure ())
  have hcheck : Reads (check (if aggs.length ≠ (feeds.map AggFeed.func).length then .error ()
      else .ok ())) [] () := by
    rw [if_neg (by rw [List.length_map, hlen]; simp)]
    exact reads_check ()
  have hn : aggs.length < 256 ^ 1 := by omega
  rw [List.append_assoc]
  exact (reads_uint hn).bind (hcheck.bind (hreads.bind (hprev.map fun _ => aggs')))

end RmpSerde

/-! ## Reading a block of a window back -/

namespace Agg

variable {a : Agg}

theorem writeBlock_kind {block : BlockNumber} {d : BlockData} (h : a.writeBlock block = some d) :
    d.kind = a.dataKind := by
  cases a <;> obtain ⟨_, -, rfl⟩ := Option.map_eq_some_iff.mp h <;> rfl

/-- What `read_block` does: the data is that of its block, and of no other. -/
theorem readBlock_spec {d : BlockData} (h : a.dataKind = d.kind) (block : BlockNumber) :
    ∃ a', a.readBlock block d = some a' ∧ a'.func = a.func ∧ a'.writeBlock block = some d ∧
      ∀ b, b ≠ block → a'.writeBlock b = a.writeBlock b := by
  have hself : ∀ {V : Type} (bs : Blocks V) (x : V), (bs.insert block x).get block = some x := by
    intro V bs x
    rw [Blocks.get_eq, Blocks.toMap_insert, ExtTreeMap.getElem?_insert_self]
  have hother : ∀ {V : Type} (bs : Blocks V) (x : V) (b : BlockNumber), b ≠ block →
      (bs.insert block x).get b = bs.get b := by
    intro V bs x b hb
    rw [Blocks.get_eq, Blocks.toMap_insert, Blocks.get_eq]
    grind
  cases a <;> cases d <;> try cases h
  all_goals
    refine ⟨_, rfl, rfl, ?_, ?_⟩
    · simp only [Agg.writeBlock, hself, Option.map_some]
    · intro b hb
      simp only [Agg.writeBlock, hother _ _ b hb]

theorem writeBlock_create (func : AggFunc) (ct : ColumnType) (block : BlockNumber) :
    (createAgg func ct).writeBlock block = none := by
  cases func <;> rfl

end Agg

namespace MVEngine

variable (v : MVShape)

/-- The aggregates of a group are those of the view. -/
def Shaped (aggs : List Agg) : Prop := aggs.map Agg.func = v.feeds.map AggFeed.func

/-- A group that is in memory has the aggregates of the view, and no data of `block`. -/
def ReadyAt (block : BlockNumber) (m : MVEngine) (key : GroupKey) : Prop :=
  ∀ g, m.groups[key]? = some g → Shaped v g.aggs ∧ ∀ a ∈ g.aggs, a.writeBlock block = none

/-- The engine before the record of `block`: none of its groups has data of the block. -/
def Ready (block : BlockNumber) (m : MVEngine) : Prop := ∀ key, ReadyAt v block m key

theorem ready_empty (block : BlockNumber) : Ready v block {} := by
  intro key g hg
  have hnone : (∅ : FxHashMap GroupKey Group)[key]? = none := by simp
  rw [show ({} : MVEngine).groups[key]? = none from hnone] at hg
  cases hg

/-- The groups of a record are in the engine that read it, with exactly their data of the block. -/
structure Restored (block : BlockNumber) (groups : List (GroupKey × List Agg)) (m m' : MVEngine) :
    Prop where
  times : m'.blockTimes = m.blockTimes
  held : ∀ e ∈ groups, ∃ g, m'.groups[e.1]? = some g ∧
    g.aggs.map (·.writeBlock block) = e.2.map (·.writeBlock block)
  others : ∀ key, key ∉ groups.map Prod.fst → m'.groups[key]? = m.groups[key]?
  keys : ∀ key, key ∈ m'.blockGroups[block]?.getD ∅ ↔
    key ∈ m.blockGroups[block]?.getD ∅ ∨ key ∈ groups.map Prod.fst
  ready : ∀ b, b ≠ block → Ready v b m → Ready v b m'

end MVEngine

namespace RmpSerde

variable {rmp : RmpSerde} {serde : JsonText} {v : MVShape}

/-- What the record of a block needs of a group: a key that the value format holds, the
aggregates of the view, and data that `rmp_serde` keeps. -/
structure KeepsGroup (rmp : RmpSerde) (serde : JsonText) (v : MVShape) (block : BlockNumber)
    (e : GroupKey × List Agg) : Prop where
  fits : ∀ x ∈ e.1, serde.Fits x
  count : e.1.length < 2 ^ 32
  length : (encodeGroupKey e.1).length < 2 ^ 32
  shaped : MVEngine.Shaped v e.2
  keeps : ∀ a ∈ e.2, ∀ d, a.writeBlock block = some d → rmp.KeepsBlock d

theorem local_readBlocks (block : BlockNumber) (aggs : List Agg) :
    Local (rmp.readBlocks block aggs) := by
  induction aggs with
  | nil => exact Local.pure []
  | cons agg aggs ih => exact local_entry (rmp.readBlockBytes block agg) ih

theorem local_readWindowGroups (block : BlockNumber) (n : Nat) (m : MVEngine) :
    Local (rmp.readWindowGroups serde v block n m) := by
  induction n generalizing m with
  | zero => exact Local.pure m
  | succ n ih =>
    exact local_readSlice.bind fun _ => (local_check _).bind fun _ =>
      (local_readBlocks block _).bind fun _ => ih _

theorem local_readWindow (block : BlockNumber) (m : MVEngine) :
    Local (rmp.readWindow serde v block m) :=
  (local_readUint 8).bind fun _ => (local_readUint 4).bind fun _ => local_readWindowGroups block _ _

/-- One aggregate: the data of the one that wrote, in the one that reads. -/
theorem readBlock_back {block : BlockNumber} {a o : Agg} (hfunc : a.func = o.func)
    (hnone : a.writeBlock block = none)
    (hkeeps : ∀ d, o.writeBlock block = some d → rmp.KeepsBlock d) :
    ∃ a', rmp.readBlockBytes block a (rmp.blockBytes block o) = some a' ∧
      (rmp.blockBytes block o).length < 2 ^ 32 ∧
      MVEngine.readEntry block (a, o.writeBlock block) = some a' ∧ a'.func = a.func ∧
      a'.writeBlock block = o.writeBlock block ∧
      ∀ b, b ≠ block → a'.writeBlock b = a.writeBlock b := by
  cases ho : o.writeBlock block with
  | none =>
    have hbytes : rmp.blockBytes block o = [] := by rw [blockBytes, ho]; rfl
    refine ⟨a, ?_, ?_, rfl, rfl, hnone, fun _ _ => rfl⟩
    · rw [hbytes]
      rfl
    · rw [hbytes]
      decide
  | some d =>
    have hbytes : rmp.blockBytes block o = rmp.block d := by rw [blockBytes, ho]; rfl
    have hk := hkeeps d ho
    have hkind : a.dataKind = d.kind := by
      rw [Agg.writeBlock_kind ho, Agg.dataKind, Agg.dataKind, hfunc]
    obtain ⟨a', hread, hfunc', hself, hother⟩ := Agg.readBlock_spec hkind block
    refine ⟨a', ?_, ?_, hread, hfunc', hself, hother⟩
    · rw [hbytes, readBlockBytes, if_neg (by simpa using hk.ne_nil), hkind, hk.back]
      exact hread
    · rw [hbytes]
      exact hk.length

/-- The aggregates of one group. -/
theorem reads_blocks {block : BlockNumber} {as os : List Agg}
    (hfunc : as.map Agg.func = os.map Agg.func) (hnone : ∀ a ∈ as, a.writeBlock block = none)
    (hkeeps : ∀ o ∈ os, ∀ d, o.writeBlock block = some d → rmp.KeepsBlock d) :
    ∃ as', Reads (rmp.readBlocks block as)
        (os.flatMap fun o => lengthPrefixed (rmp.blockBytes block o)) as' ∧
      (as.zip (os.map (·.writeBlock block))).mapM (MVEngine.readEntry block) = some as' ∧
      as'.map Agg.func = as.map Agg.func ∧
      as'.map (·.writeBlock block) = os.map (·.writeBlock block) ∧
      ∀ b, b ≠ block → as'.map (·.writeBlock b) = as.map (·.writeBlock b) := by
  induction as generalizing os with
  | nil =>
    have hos : os = [] := List.map_eq_nil_iff.mp hfunc.symm
    subst hos
    exact ⟨[], Reads.pure [], rfl, rfl, rfl, fun _ _ => rfl⟩
  | cons a as ih =>
    cases os with
    | nil => cases hfunc
    | cons o os =>
      rw [List.map_cons, List.map_cons, List.cons.injEq] at hfunc
      obtain ⟨a', hread, hlen, hentry, hf, hself, hother⟩ := readBlock_back hfunc.1
        (hnone a List.mem_cons_self) (hkeeps o List.mem_cons_self)
      obtain ⟨as', hreads, hmap, hfs, hselfs, hothers⟩ := ih hfunc.2
        (fun b hb => hnone b (List.mem_cons_of_mem a hb))
        (fun b hb => hkeeps b (List.mem_cons_of_mem o hb))
      refine ⟨a' :: as', ?_, ?_, ?_, ?_, ?_⟩
      · rw [List.flatMap_cons]
        exact reads_entry (rmp.readBlockBytes block a) hlen hread hreads
      · rw [List.map_cons, List.zip_cons_cons, List.mapM_cons, hentry, hmap]
        rfl
      · rw [List.map_cons, List.map_cons, hf, hfs]
      · rw [List.map_cons, List.map_cons, hself, hselfs]
      · intro b hb
        rw [List.map_cons, List.map_cons, hother b hb, hothers b hb]

/-- The aggregates that a group is read into. -/
theorem ready_group {block : BlockNumber} {m : MVEngine} {key : GroupKey}
    (h : MVEngine.ReadyAt v block m key) :
    MVEngine.Shaped v (m.groups[key]?.getD (Group.new v.createAggVec)).aggs ∧
      ∀ a ∈ (m.groups[key]?.getD (Group.new v.createAggVec)).aggs, a.writeBlock block = none := by
  cases hg : m.groups[key]? with
  | some g => exact h g hg
  | none =>
    constructor
    · show v.createAggVec.map Agg.func = v.feeds.map AggFeed.func
      rw [MVShape.createAggVec, List.map_map]
      exact List.map_congr_left fun f _ => Agg.func_create f.func f.columnType
    · intro a ha
      obtain ⟨f, -, rfl⟩ := List.mem_map.mp (show a ∈ v.createAggVec from ha)
      exact Agg.writeBlock_create f.func f.columnType block

theorem decode_key {serde : JsonText} {key : GroupKey} (hfit : ∀ x ∈ key, serde.Fits x)
    (hcount : key.length < 2 ^ 32) :
    (serde.decodeValues (encodeGroupKey key)).toOption = some key := by
  have hframed : Framed serde.decodeValues (encodeValues key) key :=
    framed_whole JsonText.local_readValues fun len => JsonText.reads_values len hfit hcount
  rw [← encodeValues, hframed.back]
  rfl

/-- **The groups of a record**, each applied as it is read. -/
theorem reads_windowGroups {block : BlockNumber} {groups : List (GroupKey × List Agg)}
    {m : MVEngine} (hkeys : (groups.map Prod.fst).Nodup)
    (hkeeps : ∀ e ∈ groups, KeepsGroup rmp serde v block e)
    (hready : ∀ e ∈ groups, MVEngine.ReadyAt v block m e.1) :
    ∃ m', Reads (rmp.readWindowGroups serde v block groups.length m)
        (groups.flatMap (rmp.windowGroup block)) m' ∧
      (groups.map fun e => (e.1, e.2.map (·.writeBlock block))).foldlM
        (MVEngine.readWindowGroup v block) m = some m' ∧
      MVEngine.Restored v block groups m m' := by
  induction groups generalizing m with
  | nil =>
    refine ⟨m, Reads.pure m, rfl, rfl, ?_, fun _ _ => rfl, ?_, fun _ _ h => h⟩
    · intro e he
      cases he
    · intro key
      simp
  | cons e groups ih =>
    obtain ⟨key, os⟩ := e
    rw [List.map_cons, List.nodup_cons] at hkeys
    obtain ⟨hnew, hkeys⟩ := hkeys
    have hk := hkeeps (key, os) List.mem_cons_self
    obtain ⟨hshaped, hnone⟩ := ready_group (hready (key, os) List.mem_cons_self)
    obtain ⟨as', hreads, hmap, hfunc, hself, hother⟩ := reads_blocks
      (hshaped.trans hk.shaped.symm) hnone hk.keeps
    let group := m.groups[key]?.getD (Group.new v.createAggVec)
    let m₁ : MVEngine := { m with
      groups := m.groups.insert key { group with aggs := as' }
      blockGroups := m.blockGroups.alter block fun keys => some ((keys.getD ∅).insert key) }
    have hgroup : m₁.groups[key]? = some { group with aggs := as' } :=
      ExtTreeMap.getElem?_insert_self
    have hgroups : ∀ k, k ≠ key → m₁.groups[k]? = m.groups[k]? := by
      intro k hne
      show (m.groups.insert key _)[k]? = _
      grind
    have hblock : m₁.blockGroups[block]? = some ((m.blockGroups[block]?.getD ∅).insert key) :=
      ExtTreeMap.getElem?_alter_self
    -- the other groups of the record are as they were
    have hready₁ : ∀ e ∈ groups, MVEngine.ReadyAt v block m₁ e.1 := by
      intro e he g hg
      have hne : e.1 ≠ key := by
        intro heq
        have hmem : e.1 ∈ groups.map Prod.fst := List.mem_map_of_mem he
        rw [heq] at hmem
        exact hnew hmem
      rw [hgroups e.1 hne] at hg
      exact hready e (List.mem_cons_of_mem _ he) g hg
    obtain ⟨m', hreads', hfold, hr⟩ := ih hkeys
      (fun e he => hkeeps e (List.mem_cons_of_mem _ he)) hready₁
    refine ⟨m', ?_, ?_, ?_⟩
    · rw [List.flatMap_cons, windowGroup, List.append_assoc]
      exact (reads_slice hk.length).bind
        ((reads_orFail (decode_key hk.fits hk.count)).bind (hreads.bind hreads'))
    · rw [List.map_cons, List.foldlM_cons, MVEngine.readWindowGroup]
      dsimp only
      rw [hmap]
      exact hfold
    · refine ⟨hr.times, ?_, ?_, ?_, ?_⟩
      · intro e he
        rcases List.mem_cons.mp he with rfl | he
        · exact ⟨_, (hr.others key hnew).trans hgroup, hself⟩
        · exact hr.held e he
      · intro k hk'
        rw [List.map_cons, List.mem_cons, not_or] at hk'
        rw [hr.others k hk'.2, hgroups k hk'.1]
      · intro k
        rw [hr.keys k, hblock, Option.getD_some, ExtTreeSet.mem_insert,
          Std.compare_eq_iff_eq, List.map_cons, List.mem_cons]
        constructor
        · rintro ((rfl | h) | h)
          · exact Or.inr (Or.inl rfl)
          · exact Or.inl h
          · exact Or.inr (Or.inr h)
        · rintro (h | rfl | h)
          · exact Or.inl (Or.inr h)
          · exact Or.inl (Or.inl rfl)
          · exact Or.inr h
      · intro b hb hbefore
        refine hr.ready b hb ?_
        intro k g hg
        by_cases hkey : k = key
        · subst hkey
          rw [hgroup] at hg
          cases hg
          refine ⟨hfunc.trans hshaped, ?_⟩
          intro a ha
          have hmem : a.writeBlock b ∈ as'.map (·.writeBlock b) := List.mem_map_of_mem ha
          rw [hother b hb] at hmem
          obtain ⟨a₀, ha₀, heq⟩ := List.mem_map.mp hmem
          rw [← heq]
          exact (ready_group (hbefore k)).2 a₀ ha₀
        · rw [hgroups k hkey] at hg
          exact hbefore k g hg

/-- The groups that hold data of a block: the others are left out of its record. -/
def withData (block : BlockNumber) (groups : List (GroupKey × List Agg)) :
    List (GroupKey × List Agg) :=
  groups.filter fun e => e.2.any fun a => (a.writeBlock block).isSome

theorem reads_window {block : BlockNumber} {ts : Int64} {groups : List (GroupKey × List Agg)}
    {m : MVEngine} (hkeys : (groups.map Prod.fst).Nodup)
    (hcount : (withData block groups).length < 2 ^ 32)
    (hkeeps : ∀ e ∈ groups, KeepsGroup rmp serde v block e) (hready : MVEngine.Ready v block m) :
    ∃ m', Reads (rmp.readWindow serde v block m) (rmp.windowRecord block ts groups) m' ∧
      MVEngine.readWindowRecord v m block (MVEngine.windowRecord block ts groups) = some m' ∧
      MVEngine.Restored v block (withData block groups)
        { m with blockTimes := m.blockTimes.insert block ts } m' := by
  have hsub : (withData block groups).Sublist groups := List.filter_sublist
  obtain ⟨m', hreads, hfold, hr⟩ := reads_windowGroups
    (m := { m with blockTimes := m.blockTimes.insert block ts })
    (hkeys.sublist (hsub.map Prod.fst)) (fun e he => hkeeps e (hsub.subset he))
    (fun e _ => hready e.1)
  refine ⟨m', ?_, ?_, hr⟩
  · have hts : Int64.ofBitVec (BitVec.ofNat 64 ts.toBitVec.toNat) = ts := by
      rw [BitVec.ofNat_toNat, BitVec.setWidth_eq, Int64.ofBitVec_toBitVec]
    have hlen : (withData block groups).length < 256 ^ 4 := hcount
    show Reads _ (le 8 ts.toBitVec.toNat ++
      (le 4 ((withData block groups).length % 2 ^ 32) ++
      (withData block groups).flatMap (rmp.windowGroup block))) m'
    rw [Nat.mod_eq_of_lt hcount]
    rw [← hts] at hreads
    exact (reads_uint ts.toBitVec.isLt).bind ((reads_uint hlen).bind hreads)
  · have hgroups : (MVEngine.windowRecord block ts groups).groups
        = (withData block groups).map fun e => (e.1, e.2.map (·.writeBlock block)) := by
      show List.filter _ (List.map _ groups) = List.map _ (List.filter _ groups)
      rw [List.filter_map]
      refine congrArg (List.map _) (List.filter_congr ?_)
      intro e _
      exact List.any_map
    show List.foldlM _ _ (MVEngine.windowRecord block ts groups).groups = _
    rw [hgroups]
    exact hfold

end RmpSerde

/-- **The records of a view.** A stored group comes back as aggregates that no further step tells
from those that were stored; the record of a window block comes back as its time and exactly the
data that it holds; and a cut or an extension of either is an error. -/
theorem view_records (rmp : RmpSerde) (serde : JsonText) (v : MVShape) :
    (∀ aggs : List Agg, v.feeds.length ≤ maxMvAggregates →
      List.Forall₂ (fun (f : AggFeed) (a : Agg) => a.FinalOnly f.func f.columnType) v.feeds aggs →
      (∀ a ∈ aggs, rmp.KeepsAgg a.writeFinalized) →
      ∃ bytes aggs', rmp.serializeMvGroup aggs = some bytes ∧
        Framed (rmp.deserializeMvGroup (v.feeds.map AggFeed.func)) bytes aggs' ∧
        List.Forall₂ (fun (a a' : Agg) => ∀ steps : List AggStep,
          (a.run steps).currentValue = (a'.run steps).currentValue ∧
          (a.run steps).hasData = (a'.run steps).hasData) aggs aggs') ∧
    ∀ (block : BlockNumber) (ts : Int64) (groups : List (GroupKey × List Agg)) (m : MVEngine),
      (groups.map Prod.fst).Nodup → (RmpSerde.withData block groups).length < 2 ^ 32 →
      (∀ e ∈ groups, RmpSerde.KeepsGroup rmp serde v block e) → MVEngine.Ready v block m →
      ∃ m', Framed (rmp.readWindowRecord serde v m block) (rmp.windowRecord block ts groups) m' ∧
        MVEngine.readWindowRecord v m block (MVEngine.windowRecord block ts groups) = some m' ∧
        MVEngine.Restored v block (RmpSerde.withData block groups)
          { m with blockTimes := m.blockTimes.insert block ts } m' := by
  constructor
  · intro aggs hcount hfinal hrmp
    obtain ⟨bytes, aggs', hwrite, hreads, halike⟩ := RmpSerde.reads_mvGroup hcount hfinal hrmp
    refine ⟨bytes, aggs', hwrite, ?_, ?_⟩
    · exact framed_whole (fun _ => RmpSerde.local_readMvGroup _) fun _ => hreads
    · exact halike.imp fun a a' h steps => (h.run steps).shows
  · intro block ts groups m hkeys hcount hkeeps hready
    obtain ⟨m', hreads, hread, hr⟩ := RmpSerde.reads_window hkeys hcount hkeeps hready
    refine ⟨m', ?_, hread, hr⟩
    exact framed_whole (fun _ => RmpSerde.local_readWindow block m) fun _ => hreads

/-! ### A view with one count -/

/-- A stored count: an array of the total and the map of its blocks, which is empty. -/
def readCount : Reader String Nat := do
  let head ← Blocks.readBe 1
  check (if head = 0x92 then .ok () else .error "expected an array of two")
  let total ← Blocks.readMarked Blocks.uintMarker
  let blocks ← Blocks.readMap
  check (if blocks = [] then .ok () else .error "blocks are left")
  pure total

/-- `rmp_serde` on counts, in MessagePack. -/
def countsPack : RmpSerde where
  agg
    | .count n => ByteKeys.be 1 0x92 ++ Blocks.writeUint n ++ Blocks.writeMapHead 0
    | _ => []
  readAgg
    | .count, bytes => (whole readCount (fun _ _ => "trailing bytes") bytes).toOption.map .count
    | _, _ => none
  block
    | .count n => Blocks.writeUint n
    | _ => []
  readBlock
    | .count, bytes =>
      (whole (Blocks.readMarked Blocks.uintMarker) (fun _ _ => "trailing bytes")
        bytes).toOption.map .count
    | _, _ => none
  readsOutput _ := false

/-- `SELECT k, count() ... GROUP BY k`. -/
def countPerKey : MVShape where
  name := "totals"
  source := "events"
  changeSchema := ChangeSchema.mv "totals" [("k", true), ("n", false)]
  feeds := [⟨.count, none, .float64⟩]
  extractors := [.column "k"]
  slidingWindow := some { intervalSeconds := 3600, timeColumn := "ts" }

/-- A count of 300 rows of block 1. -/
def countOfRows : Agg := (createAgg .count .float64).addBlock 1 (List.replicate 300 (.uint64 7))

theorem view_records_countPerKey :
    (∃ bytes aggs', countsPack.serializeMvGroup [countOfRows.finalizeUpTo 1] = some bytes ∧
      countsPack.deserializeMvGroup [.count] bytes = .ok aggs') ∧
    ∃ m', countsPack.readWindowRecord JsonText.nullOnly countPerKey {} 1
      (countsPack.windowRecord 1 1000 [([.uint64 5], [countOfRows])]) = .ok m' := by
  constructor
  · have hfinal : (countOfRows.finalizeUpTo 1).FinalOnly .count .float64 :=
      ⟨[.add 1 (List.replicate 300 (.uint64 7)), .finalize 1], rfl, by decide, by decide⟩
    have hkeeps : ∀ a ∈ [countOfRows.finalizeUpTo 1], countsPack.KeepsAgg a.writeFinalized := by
      intro a ha
      rw [List.mem_singleton.mp ha]
      exact ⟨by decide +kernel, by decide +kernel⟩
    obtain ⟨bytes, aggs', hwrite, hframed, -⟩ :=
      (view_records countsPack JsonText.nullOnly countPerKey).1 [countOfRows.finalizeUpTo 1]
        (by decide) (.cons hfinal .nil) hkeeps
    exact ⟨bytes, aggs', hwrite, hframed.back⟩
  · have hkeeps : ∀ e ∈ [(([.uint64 5] : GroupKey), [countOfRows])],
        RmpSerde.KeepsGroup countsPack JsonText.nullOnly countPerKey 1 e := by
      intro e he
      rw [List.mem_singleton.mp he]
      refine ⟨?_, by decide, by decide, rfl, ?_⟩
      · intro x hx
        rw [List.mem_singleton.mp hx]
        trivial
      · intro a ha d hd
        rw [List.mem_singleton.mp ha] at hd
        have hcount : countOfRows.writeBlock 1 = some (.count 300) := by decide +kernel
        rw [hcount] at hd
        obtain rfl := Option.some.inj hd
        exact ⟨by decide +kernel, by decide +kernel, by decide +kernel⟩
    obtain ⟨m', hframed, -⟩ := (view_records countsPack JsonText.nullOnly countPerKey).2 1 1000
      [([.uint64 5], [countOfRows])] {} (by simp) (by decide) hkeeps
      (MVEngine.ready_empty countPerKey 1)
    exact ⟨m', hframed.back⟩

/-- A count of groups that wraps to zero: what follows it is left over. -/
theorem RmpSerde.readWindowRecord_of_wrapped {rmp : RmpSerde} {serde : JsonText} {v : MVShape}
    {block : BlockNumber} {ts : Int64} {groups : List (GroupKey × List Agg)} {m : MVEngine}
    (hne : RmpSerde.withData block groups ≠ [])
    (hcount : (RmpSerde.withData block groups).length % 2 ^ 32 = 0) :
    rmp.readWindowRecord serde v m block (rmp.windowRecord block ts groups) = .error () := by
  have hreads : Reads (rmp.readWindow serde v block m)
      (le 8 ts.toBitVec.toNat ++ le 4 0) _ :=
    (RmpSerde.reads_uint ts.toBitVec.isLt).bind
      ((RmpSerde.reads_uint (by decide : 0 < 256 ^ 4)).bind (Reads.pure _))
  have hframed : Framed (rmp.readWindowRecord serde v m block)
      (le 8 ts.toBitVec.toNat ++ le 4 0) _ :=
    framed_whole (fun _ => RmpSerde.local_readWindow block m) fun _ => hreads
  have hbody : (RmpSerde.withData block groups).flatMap (rmp.windowGroup block) ≠ [] := by
    intro hnil
    cases hdata : RmpSerde.withData block groups with
    | nil => exact hne hdata
    | cons e rest =>
      rw [hdata, List.flatMap_cons] at hnil
      have hlen := congrArg List.length (List.append_eq_nil_iff.mp hnil).1
      simp [RmpSerde.windowGroup, lengthPrefixed] at hlen
  obtain ⟨e, he⟩ := hframed.extended _ hbody
  rw [List.append_assoc] at he
  show rmp.readWindowRecord serde v m block (le 8 ts.toBitVec.toNat ++
    (le 4 ((RmpSerde.withData block groups).length % 2 ^ 32) ++
      (RmpSerde.withData block groups).flatMap (rmp.windowGroup block))) = _
  rw [hcount, he]

end Settle
