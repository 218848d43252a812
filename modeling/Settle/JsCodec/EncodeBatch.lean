import Settle.JsCodec.Encoder

/-!
# The items of a change batch

`encode_batch` of `src/js_codec/mod.rs`. It writes the items of the batch (`encodeBatch_wrote`), and
it succeeds on every batch whose counts and strings are below 2^32 in all (`encodeBatch_succeeds`).
-/

namespace Settle

open Std Wire

namespace JsCodec

variable {ω : Type}

/-! ## The batch -/

inductive PerfNodeKind where
  | pipeline
  | rawTable
  | reducer
  | mv
  | parallel
deriving DecidableEq

/-- `Vec<PerfNode>`: the first node, with its children, and the nodes after it. -/
inductive PerfNodes where
  | nil
  | cons (kind : PerfNodeKind) (name : String) (durationMs : UInt64) (children rest : PerfNodes)

def PerfNodes.length : PerfNodes → Nat
  | .nil => 0
  | .cons _ _ _ _ rest => rest.length + 1

/-- A `ChangeBatch` as it is sent: the tables in the order of their iteration, and each record with
the address of its schema. -/
structure SentBatch where
  sequence : UInt64
  finalizedHead : Option BlockCursor
  latestHead : Option BlockCursor
  tables : List (String × List (Nat × ChangeRecord))
  perf : PerfNodes

/-- `perf_kind`. -/
def perfKind : PerfNodeKind → UInt32
  | .pipeline => 0
  | .rawTable => 1
  | .reducer => 2
  | .mv => 3
  | .parallel => 4

/-- The flags of a record. -/
def recordFlags (operation : ChangeOp) (hasPrev newSchema : Bool) : UInt32 :=
  let operation : UInt32 := match operation with
    | .insert => 0
    | .update => 1
    | .delete => 2
  let bit (b : Bool) : UInt32 := if b then 1 else 0
  operation ||| (bit hasPrev <<< 2) ||| (bit newSchema <<< 3)

/-- `ChangeRecord::resolve`; a key position past the key is a panic. -/
def resolve (r : ChangeRecord) (slot : Slot) (values : List Value) : Option Value :=
  match slot with
  | .key i => r.key[i]?
  | .value i => some (values[i]?.getD .null)

namespace Encoder

/-- A head. -/
def head (e : Encoder) : Option BlockCursor → Option Encoder
  | some cursor => ((e.int 1).number (f64OfNat cursor.number.toNat)).string cursor.hash
  | none => some (e.int 0)

/-- A new schema. -/
def schema (e : Encoder) (s : ChangeSchema) : Option Encoder := do
  let e ← e.count s.keyColumns.length
  let e ← e.count s.columns.length
  let e ← e.string s.table
  let e ← s.keyColumns.foldlM string e
  s.columns.foldlM (fun e column => e.string column.1) e

/-- The columns of a record. -/
def columns (e : Encoder) (r : ChangeRecord) (values : List Value) : Option Encoder :=
  r.schema.columns.foldlM (fun e column => do
    let v ← resolve r column.2 values
    e.value v) e

/-- The key, the values and the previous values of a record. -/
def row (e : Encoder) (r : ChangeRecord) : Option Encoder := do
  let e ← (r.schema.keyColumns.zip r.key).foldlM (fun e kv => e.value kv.2) e
  let e ← e.columns r r.values
  match r.prevValues with
  | some prev => e.columns r prev
  | none => some e

/-- The records of a table; `schema` is the address of the last schema. -/
def records (schema : Option Nat) : List (Nat × ChangeRecord) → Encoder → Option Encoder
  | [], e => some e
  | (address, r) :: rest, e => do
    let newSchema := schema != some address
    let e := e.int (recordFlags r.operation r.prevValues.isSome newSchema)
    let e ← (if newSchema then e.schema r.schema else some e : Option Encoder)
    let e ← e.row r
    records (some address) rest e

def table (e : Encoder) (t : String × List (Nat × ChangeRecord)) : Option Encoder := do
  let e ← e.string t.1
  let e ← e.count t.2.length
  records none t.2 e

/-- `encode_perf` of each node. -/
def perf : PerfNodes → Encoder → Option Encoder
  | .nil, e => some e
  | .cons kind name durationMs children rest, e => do
    let e ← (e.int (perfKind kind)).count children.length
    let e ← e.string name
    let e ← perf children (e.number durationMs)
    perf rest e

end Encoder

/-- `encode_batch`. -/
def encodeBatch (batch : SentBatch) : Option Encoder := do
  let e := Encoder.number { bytesAsHex := false } (f64OfNat batch.sequence.toNat)
  let e ← e.head batch.finalizedHead
  let e ← e.head batch.latestHead
  let e ← e.count batch.tables.length
  let e ← batch.tables.foldlM Encoder.table e
  let e ← e.count batch.perf.length
  Encoder.perf batch.perf e

/-! ## The items of a batch -/

section

variable (host : Value → ω)

def jsValue (v : Value) : SlotValue ω := Value.toJs host false v

/-- The value of a column. -/
def columnValue (r : ChangeRecord) (values : List Value) (column : String × Slot) : Value :=
  (resolve r column.2 values).getD .null

def textItem (s : String) : Item ω := .slot (.string (utf16 s))

def headItems : Option BlockCursor → List (Item ω)
  | some cursor => [.int 1, .slot (.number (f64OfNat cursor.number.toNat)), textItem cursor.hash]
  | none => [.int 0]

def schemaItems (s : ChangeSchema) : List (Item ω) :=
  [.int s.keyColumns.length, .int s.columns.length, textItem s.table] ++
    s.keyColumns.map textItem ++ s.columns.map fun column => textItem column.1

def columnItems (r : ChangeRecord) (values : List Value) : List (Item ω) :=
  r.schema.columns.map fun column => .slot (jsValue host (columnValue r values column))

def rowItems (r : ChangeRecord) : List (Item ω) :=
  ((r.schema.keyColumns.zip r.key).map fun kv => .slot (jsValue host kv.2)) ++
    columnItems host r r.values ++ (r.prevValues.map (columnItems host r)).getD []

def recordsItems (schema : Option Nat) : List (Nat × ChangeRecord) → List (Item ω)
  | [] => []
  | (address, r) :: rest =>
    let newSchema := schema != some address
    .int (recordFlags r.operation r.prevValues.isSome newSchema).toNat ::
      ((if newSchema then schemaItems r.schema else []) ++ rowItems host r ++
        recordsItems (some address) rest)

def tableItems (t : String × List (Nat × ChangeRecord)) : List (Item ω) :=
  textItem t.1 :: .int t.2.length :: recordsItems host none t.2

def perfItems : PerfNodes → List (Item ω)
  | .nil => []
  | .cons kind name durationMs children rest =>
    [.int (perfKind kind).toNat, .int children.length, textItem name, .slot (.number durationMs)] ++
      perfItems children ++ perfItems rest

def batchItems (batch : SentBatch) : List (Item ω) :=
  .slot (.number (f64OfNat batch.sequence.toNat)) :: (headItems batch.finalizedHead ++
    headItems batch.latestHead ++ .int batch.tables.length ::
      (batch.tables.flatMap (tableItems host) ++ .int batch.perf.length :: perfItems batch.perf))

end

namespace Encoder

variable {host : Value → ω} {e e' : Encoder} {strings : List (List UInt16)}
  {items : List (Item ω)}

theorem Wrote.head {cursor : Option BlockCursor} (h : Wrote host false e strings items)
    (he : e.head cursor = some e') :
    ∃ strings', Wrote host false e' strings' (items ++ headItems cursor) := by
  cases cursor with
  | none =>
    obtain rfl := Option.some.inj he
    exact ⟨_, h.int 0⟩
  | some cursor =>
    obtain ⟨strings', h⟩ := Wrote.string ((h.int 1).slot rfl) he
    rw [List.append_assoc, List.append_assoc] at h
    exact ⟨strings', h⟩

theorem Wrote.schema {s : ChangeSchema} (h : Wrote host false e strings items)
    (he : e.schema s = some e') :
    ∃ strings', Wrote host false e' strings' (items ++ schemaItems s) := by
  obtain ⟨e₁, h₁, he⟩ := Option.bind_eq_some_iff.mp he
  obtain ⟨e₂, h₂, he⟩ := Option.bind_eq_some_iff.mp he
  obtain ⟨e₃, h₃, he⟩ := Option.bind_eq_some_iff.mp he
  obtain ⟨e₄, h₄, he⟩ := Option.bind_eq_some_iff.mp he
  obtain ⟨_, h⟩ := ((h.count h₁).count h₂).string h₃
  obtain ⟨_, h⟩ := h.foldlM (f := Encoder.string) (g := fun s => [textItem s])
    (fun _ _ _ _ _ _ => Wrote.string) h₄
  obtain ⟨_, h⟩ := h.foldlM (f := fun e (column : String × Slot) => e.string column.1)
    (g := fun column => [textItem column.1]) (fun _ _ _ _ _ _ => Wrote.string) he
  rw [← List.map_eq_flatMap, ← List.map_eq_flatMap, List.append_assoc, List.append_assoc,
    List.append_assoc, List.append_assoc] at h
  exact ⟨_, h⟩

theorem Wrote.columns {r : ChangeRecord} {values : List Value}
    (h : Wrote host false e strings items) (he : e.columns r values = some e') :
    ∃ strings', Wrote host false e' strings' (items ++ columnItems host r values) := by
  have hcolumn : ∀ column ∈ r.schema.columns, ∀ (e e' : Encoder) strings items,
      Wrote host false e strings items →
      (do let v ← resolve r column.2 values; e.value v) = some e' →
      ∃ strings', Wrote host false e' strings'
        (items ++ [.slot (jsValue host (columnValue r values column))]) := by
    intro column _ e e' strings items h he
    obtain ⟨v, hv, he⟩ := Option.bind_eq_some_iff.mp he
    rw [columnValue, hv]
    exact h.value he
  obtain ⟨_, h⟩ := Wrote.foldlM hcolumn h he
  rw [← List.map_eq_flatMap] at h
  exact ⟨_, h⟩

theorem Wrote.row {r : ChangeRecord} (h : Wrote host false e strings items)
    (he : e.row r = some e') :
    ∃ strings', Wrote host false e' strings' (items ++ rowItems host r) := by
  obtain ⟨e₁, h₁, he⟩ := Option.bind_eq_some_iff.mp he
  obtain ⟨e₂, h₂, he⟩ := Option.bind_eq_some_iff.mp he
  obtain ⟨_, h⟩ := h.foldlM (f := fun e (kv : String × Value) => e.value kv.2)
    (g := fun kv => [.slot (jsValue host kv.2)]) (fun _ _ _ _ _ _ => Wrote.value) h₁
  obtain ⟨_, h⟩ := h.columns h₂
  rw [← List.map_eq_flatMap, List.append_assoc] at h
  unfold rowItems
  cases hprev : r.prevValues with
  | none =>
    rw [hprev] at he
    obtain rfl := Option.some.inj he
    rw [Option.map_none, Option.getD_none, List.append_nil]
    exact ⟨_, h⟩
  | some prev =>
    rw [hprev] at he
    obtain ⟨_, h⟩ := h.columns he
    rw [List.append_assoc] at h
    exact ⟨_, h⟩

theorem Wrote.records {schema : Option Nat} {rs : List (Nat × ChangeRecord)}
    (h : Wrote host false e strings items) (he : records schema rs e = some e') :
    ∃ strings', Wrote host false e' strings' (items ++ recordsItems host schema rs) := by
  induction rs generalizing schema e strings items with
  | nil =>
    obtain rfl := Option.some.inj he
    exact ⟨strings, by rwa [recordsItems, List.append_nil]⟩
  | cons r rs ih =>
    obtain ⟨address, r⟩ := r
    unfold Encoder.records at he
    obtain ⟨e₁, h₁, he⟩ := Option.bind_eq_some_iff.mp he
    obtain ⟨e₂, h₂, he⟩ := Option.bind_eq_some_iff.mp he
    have h := h.int (recordFlags r.operation r.prevValues.isSome (schema != some address))
    have hschema : ∃ strings', Wrote host false e₁ strings'
        ((items ++ [.int (recordFlags r.operation r.prevValues.isSome
          (schema != some address)).toNat]) ++
          (if schema != some address then schemaItems r.schema else [])) := by
      split at h₁
      · next hnew =>
        rw [if_pos hnew]
        exact h.schema h₁
      · next hold =>
        rw [if_neg hold, List.append_nil]
        obtain rfl := Option.some.inj h₁
        exact ⟨_, h⟩
    obtain ⟨_, h⟩ := hschema
    obtain ⟨_, h⟩ := h.row h₂
    obtain ⟨_, h⟩ := ih h he
    exact ⟨_, by simpa [recordsItems] using h⟩

theorem Wrote.table {t : String × List (Nat × ChangeRecord)} (h : Wrote host false e strings items)
    (he : e.table t = some e') :
    ∃ strings', Wrote host false e' strings' (items ++ tableItems host t) := by
  obtain ⟨e₁, h₁, he⟩ := Option.bind_eq_some_iff.mp he
  obtain ⟨e₂, h₂, he⟩ := Option.bind_eq_some_iff.mp he
  obtain ⟨_, h⟩ := h.string h₁
  obtain ⟨_, h⟩ := (h.count h₂).records he
  rw [List.append_assoc, List.append_assoc] at h
  exact ⟨_, h⟩

theorem Wrote.perf {nodes : PerfNodes} (h : Wrote host false e strings items)
    (he : perf nodes e = some e') :
    ∃ strings', Wrote host false e' strings' (items ++ perfItems nodes) := by
  induction nodes generalizing e e' strings items with
  | nil =>
    obtain rfl := Option.some.inj he
    exact ⟨strings, by rwa [perfItems, List.append_nil]⟩
  | cons kind name durationMs children rest ihChildren ihRest =>
    obtain ⟨e₁, h₁, he⟩ := Option.bind_eq_some_iff.mp he
    obtain ⟨e₂, h₂, he⟩ := Option.bind_eq_some_iff.mp he
    obtain ⟨e₃, h₃, he⟩ := Option.bind_eq_some_iff.mp he
    obtain ⟨_, h⟩ := ((h.int (perfKind kind)).count h₁).string h₂
    obtain ⟨_, h⟩ := ihChildren (h.slot rfl) h₃
    obtain ⟨strings', h⟩ := ihRest h he
    exact ⟨strings', by simpa [perfItems, textItem] using h⟩

end Encoder

/-- **What `encode_batch` writes.** -/
theorem encodeBatch_wrote {host : Value → ω} {batch : SentBatch} {e : Encoder}
    (he : encodeBatch batch = some e) :
    ∃ strings, e.Wrote host false strings (batchItems host batch) := by
  obtain ⟨e₁, h₁, he⟩ := Option.bind_eq_some_iff.mp he
  obtain ⟨e₂, h₂, he⟩ := Option.bind_eq_some_iff.mp he
  obtain ⟨e₃, h₃, he⟩ := Option.bind_eq_some_iff.mp he
  obtain ⟨e₄, h₄, he⟩ := Option.bind_eq_some_iff.mp he
  obtain ⟨e₅, h₅, he⟩ := Option.bind_eq_some_iff.mp he
  have hstart : Encoder.Wrote host false
      (Encoder.number { bytesAsHex := false } (f64OfNat batch.sequence.toNat)) []
      ([] ++ [.slot (.number (f64OfNat batch.sequence.toNat))]) :=
    Encoder.wrote_empty.slot rfl
  obtain ⟨_, h⟩ := hstart.head h₁
  obtain ⟨_, h⟩ := h.head h₂
  obtain ⟨_, h⟩ := (h.count h₃).foldlM (f := Encoder.table) (g := tableItems host)
    (fun _ _ _ _ _ _ => Encoder.Wrote.table) h₄
  obtain ⟨strings, h⟩ := (h.count h₅).perf he
  exact ⟨strings, by simpa [batchItems] using h⟩

/-! ## No count is too large -/

def textSize (s : String) : Nat := (utf16 s).length + 2

/-- The slot of a value, and the string that it can add to the table. -/
def valueSize : Value → Nat
  | .string s => textSize s
  | .uint256 b => textSize ("0x" ++ hex (le 32 b.toNat).reverse)
  | .base58 b => textSize (hex b)
  | .bytes b => textSize (hex b)
  | _ => 1

/-- A record that fits its schema: a key value for each key column, and the slots of the key are
in the key. -/
structure WellFormed (r : ChangeRecord) : Prop where
  key : r.key.length = r.schema.keyColumns.length
  slots : ∀ name i, (name, Slot.key i) ∈ r.schema.columns → i < r.schema.keyColumns.length

theorem WellFormed.resolve {r : ChangeRecord} (h : WellFormed r) {column : String × Slot}
    (hcolumn : column ∈ r.schema.columns) (values : List Value) :
    ∃ v, JsCodec.resolve r column.2 values = some v := by
  obtain ⟨name, slot⟩ := column
  cases slot with
  | key i =>
    have hlt : i < r.key.length := h.key ▸ h.slots name i hcolumn
    exact ⟨_, List.getElem?_eq_getElem hlt⟩
  | value i => exact ⟨_, rfl⟩

def headSize : Option BlockCursor → Nat
  | some cursor => 1 + (1 + textSize cursor.hash)
  | none => 1

def schemaSize (s : ChangeSchema) : Nat :=
  s.keyColumns.length + 1 + (s.columns.length + 1 + (textSize s.table +
    ((s.keyColumns.map textSize).sum + (s.columns.map fun column => textSize column.1).sum)))

def columnsSize (r : ChangeRecord) (values : List Value) : Nat :=
  (r.schema.columns.map fun column => valueSize (columnValue r values column)).sum

def rowSize (r : ChangeRecord) : Nat :=
  ((r.schema.keyColumns.zip r.key).map fun kv => valueSize kv.2).sum +
    (columnsSize r r.values + (r.prevValues.map (columnsSize r)).getD 0)

def recordsSize (schema : Option Nat) : List (Nat × ChangeRecord) → Nat
  | [] => 0
  | (address, r) :: rest =>
    1 + ((if schema != some address then schemaSize r.schema else 0) +
      (rowSize r + recordsSize (some address) rest))

def tableSize (t : String × List (Nat × ChangeRecord)) : Nat :=
  textSize t.1 + (t.2.length + 1 + recordsSize none t.2)

def perfSize : PerfNodes → Nat
  | .nil => 0
  | .cons _ name _ children rest =>
    1 + (children.length + 1 + (textSize name + (1 + (perfSize children + perfSize rest))))

/-- A bound on every count of a batch. -/
def batchSize (batch : SentBatch) : Nat :=
  1 + (headSize batch.finalizedHead + (headSize batch.latestHead + (batch.tables.length + 1 +
    ((batch.tables.map tableSize).sum + (batch.perf.length + 1 + perfSize batch.perf)))))

/-- The counts of the encoder stay below 2^32 when `k` more of each come. -/
structure Room (e : Encoder) (k : Nat) : Prop where
  nums : e.nums.length + k < 2 ^ 32
  ints : e.ints.length + k < 2 ^ 32
  ends : e.stringEnds.length + k < 2 ^ 32
  units : e.utf16Len + k < 2 ^ 32

/-- With room for `size`, `f` succeeds and takes no more. -/
def Succeeds (f : Encoder → Option Encoder) (size : Nat) : Prop :=
  ∀ e k, Room e (size + k) → ∃ e', f e = some e' ∧ Room e' k

namespace Succeeds

theorem andThen {f g : Encoder → Option Encoder} {a b : Nat} (hf : Succeeds f a)
    (hg : Succeeds g b) : Succeeds (fun e => (f e).bind g) (a + b) := by
  intro e k h
  obtain ⟨e₁, h₁, h⟩ := hf e (b + k) (by rwa [← Nat.add_assoc])
  obtain ⟨e₂, h₂, h⟩ := hg e₁ k h
  refine ⟨e₂, ?_, h⟩
  dsimp only
  rw [h₁]
  exact h₂

theorem nothing : Succeeds some 0 := fun e k h => ⟨e, rfl, by rwa [Nat.zero_add] at h⟩

theorem foldlM {α : Type} {f : Encoder → α → Option Encoder} {size : α → Nat} {as : List α}
    (h : ∀ a ∈ as, Succeeds (f · a) (size a)) :
    Succeeds (fun e => as.foldlM f e) (as.map size).sum := by
  induction as with
  | nil => exact nothing
  | cons a as ih =>
    exact (h a (List.mem_cons_self ..)).andThen (ih fun b hb => h b (List.mem_cons_of_mem _ hb))

theorem int (n : UInt32) : Succeeds (fun e => some (e.int n)) 1 := by
  intro e k ⟨hnums, hints, hends, hunits⟩
  refine ⟨_, rfl, Nat.lt_of_le_of_lt ?_ hnums, ?_, Nat.lt_of_le_of_lt ?_ hends,
    Nat.lt_of_le_of_lt ?_ hunits⟩
  · show e.nums.length + k ≤ _
    omega
  · show (e.ints ++ [n]).length + k < _
    rw [List.length_append, List.length_singleton]
    omega
  · show e.stringEnds.length + k ≤ _
    omega
  · show e.utf16Len + k ≤ _
    omega

theorem count (n : Nat) : Succeeds (fun e => e.count n) (n + 1) := by
  intro e k h
  have hn : n < 2 ^ 32 := by
    have hints := h.ints
    omega
  have hroom : Room e (1 + k) := by
    obtain ⟨hnums, hints, hends, hunits⟩ := h
    exact ⟨by omega, by omega, by omega, by omega⟩
  obtain ⟨e', he, h⟩ := int (UInt32.ofNat n) e k hroom
  refine ⟨e', ?_, h⟩
  show (JsCodec.count n).bind _ = _
  rw [JsCodec.count, if_pos hn]
  exact he

theorem slot (tag : UInt8) (num : UInt64) : Succeeds (fun e => some (e.slot tag num)) 1 := by
  intro e k ⟨hnums, hints, hends, hunits⟩
  refine ⟨_, rfl, ?_, Nat.lt_of_le_of_lt ?_ hints, Nat.lt_of_le_of_lt ?_ hends,
    Nat.lt_of_le_of_lt ?_ hunits⟩
  · show (e.nums ++ [num]).length + k < _
    rw [List.length_append, List.length_singleton]
    omega
  · show e.ints.length + k ≤ _
    omega
  · show e.stringEnds.length + k ≤ _
    omega
  · show e.utf16Len + k ≤ _
    omega

theorem other (v : Value) : Succeeds (fun e => some (e.other v)) 1 := by
  intro e k h
  obtain ⟨e', he, hroom⟩ := slot 5 (f64OfNat e.others.length) e k h
  obtain rfl := Option.some.inj he
  exact ⟨_, rfl, hroom.nums, hroom.ints, hroom.ends, hroom.units⟩

/-- A string takes an end and its units, whether it is ASCII or not. -/
theorem pushString {s : String} {e : Encoder} {k : Nat} (h : Room e (textSize s + k)) :
    ∃ id e', e.pushString s = some (id, e') ∧ Room e' (1 + k) := by
  obtain ⟨hnums, hints, hends, hunits⟩ := h
  unfold textSize at hnums hints hends hunits
  have hlength : (if isAscii s then utf8Len s else (utf16 s).length) = (utf16 s).length := by
    split
    · next hascii => exact utf8Len_ascii hascii
    · rfl
  have hstop : e.utf16Len + (utf16 s).length < 2 ^ 32 := by omega
  have hid : (e.stringEnds ++ [UInt32.ofNat (e.utf16Len + (utf16 s).length)]).length - 1 <
      2 ^ 32 := by
    rw [List.length_append, List.length_singleton]
    omega
  refine ⟨UInt32.ofNat
      ((e.stringEnds ++ [UInt32.ofNat (e.utf16Len + (utf16 s).length)]).length - 1),
    { e with
      strings := e.strings ++ s
      ascii := e.ascii && isAscii s
      utf16Len := e.utf16Len + (utf16 s).length
      stringEnds := e.stringEnds ++ [UInt32.ofNat (e.utf16Len + (utf16 s).length)] }, ?_, ?_⟩
  · unfold Encoder.pushString
    dsimp only
    rw [hlength]
    show (JsCodec.count _).bind _ = _
    rw [JsCodec.count, if_pos hstop]
    show (JsCodec.count _).bind _ = _
    rw [JsCodec.count, if_pos hid]
    rfl
  · refine ⟨?_, ?_, ?_, ?_⟩
    · show e.nums.length + (1 + k) < _
      omega
    · show e.ints.length + (1 + k) < _
      omega
    · show (e.stringEnds ++ [_]).length + (1 + k) < _
      rw [List.length_append, List.length_singleton]
      omega
    · show e.utf16Len + (utf16 s).length + (1 + k) < _
      omega

theorem text (s : String) : Succeeds (fun e => e.text s) (textSize s) := by
  intro e k h
  obtain ⟨id, e₁, hpush, h⟩ := pushString h
  obtain ⟨e₂, he, h⟩ := slot 2 (f64OfNat id.toNat) e₁ k h
  refine ⟨e₂, ?_, h⟩
  show (e.pushString s).bind _ = _
  rw [hpush]
  exact he

theorem string (s : String) : Succeeds (fun e => e.string s) (textSize s) := by
  intro e k h
  have hid : ∃ id e', e.stringId s = some (id, e') ∧ Room e' (1 + k) := by
    unfold Encoder.stringId
    split
    · obtain ⟨hnums, hints, hends, hunits⟩ := h
      unfold textSize at hnums hints hends hunits
      exact ⟨_, e, rfl, by omega, by omega, by omega, by omega⟩
    · obtain ⟨id, e₁, hpush, h⟩ := pushString h
      refine ⟨id, { e₁ with ids := e₁.ids.insert s id }, ?_, ?_⟩
      · rw [hpush]
        rfl
      · exact ⟨h.nums, h.ints, h.ends, h.units⟩
  obtain ⟨id, e₁, hid, h⟩ := hid
  obtain ⟨e₂, he, h⟩ := slot 2 (f64OfNat id.toNat) e₁ k h
  refine ⟨e₂, ?_, h⟩
  show (e.stringId s).bind _ = _
  rw [hid]
  exact he

theorem numberOrHost (safe : Prop) [Decidable safe] (n : UInt64) (v : Value) :
    Succeeds (fun e => if safe then some (e.number n) else some (e.other v)) 1 := by
  by_cases hsafe : safe
  · simp only [if_pos hsafe]
    exact slot 1 n
  · simp only [if_neg hsafe]
    exact other v

theorem value (v : Value) : Succeeds (fun e => e.value v) (valueSize v) := by
  cases v with
  | null => exact slot 0 0
  | boolean b =>
    cases b with
    | true => exact slot 3 0
    | false => exact slot 4 0
  | float64 f => exact slot 1 f
  | string s => exact string s
  | uint256 b => exact text _
  | base58 b => exact text _
  | json t => exact other _
  | uint64 n => exact numberOrHost _ _ _
  | int64 n => exact numberOrHost _ _ _
  | dateTime n => exact numberOrHost _ _ _
  | bytes b =>
    intro e k h
    unfold Encoder.value
    dsimp only
    split
    · exact text _ e k h
    · have hsize : 2 ≤ valueSize (.bytes b) := Nat.le_add_left 2 (utf16 (hex b)).length
      obtain ⟨hnums, hints, hends, hunits⟩ := h
      exact other _ e k ⟨by omega, by omega, by omega, by omega⟩

theorem head (cursor : Option BlockCursor) :
    Succeeds (fun e => e.head cursor) (headSize cursor) := by
  cases cursor with
  | none => exact int 0
  | some cursor => exact (int 1).andThen ((slot 1 _).andThen (string cursor.hash))

theorem schema (s : ChangeSchema) : Succeeds (fun e => e.schema s) (schemaSize s) :=
  (count _).andThen ((count _).andThen ((string s.table).andThen
    ((foldlM fun _ _ => string _).andThen (foldlM fun _ _ => string _))))

theorem columns {r : ChangeRecord} (hslots : WellFormed r) (values : List Value) :
    Succeeds (fun e => e.columns r values) (columnsSize r values) := by
  refine foldlM fun column hcolumn => ?_
  obtain ⟨v, hv⟩ := hslots.resolve hcolumn values
  intro e k h
  rw [columnValue, hv] at h
  obtain ⟨e', he, h⟩ := value v e k h
  refine ⟨e', ?_, h⟩
  rw [hv]
  exact he

theorem row {r : ChangeRecord} (hslots : WellFormed r) :
    Succeeds (fun e => e.row r) (rowSize r) := by
  refine (foldlM fun _ _ => value _).andThen ((columns hslots r.values).andThen ?_)
  cases hprev : r.prevValues with
  | none => exact nothing
  | some prev => exact columns hslots prev

theorem records {rs : List (Nat × ChangeRecord)} (hslots : ∀ r ∈ rs, WellFormed r.2)
    (schema : Option Nat) :
    Succeeds (fun e => Encoder.records schema rs e) (recordsSize schema rs) := by
  induction rs generalizing schema with
  | nil => exact nothing
  | cons r rs ih =>
    obtain ⟨address, r⟩ := r
    have hschema : Succeeds (fun e => if schema != some address then e.schema r.schema else some e)
        (if schema != some address then schemaSize r.schema else 0) := by
      by_cases hnew : (schema != some address) = true
      · simp only [hnew, if_true]
        exact Succeeds.schema r.schema
      · simp only [if_neg hnew]
        exact nothing
    exact (int _).andThen (hschema.andThen ((row (hslots _ (List.mem_cons_self ..))).andThen
      (ih (fun r' hr' => hslots r' (List.mem_cons_of_mem _ hr')) (some address))))

theorem table {t : String × List (Nat × ChangeRecord)} (hslots : ∀ r ∈ t.2, WellFormed r.2) :
    Succeeds (fun e => e.table t) (tableSize t) :=
  (string t.1).andThen ((count t.2.length).andThen (records hslots none))

theorem perf (nodes : PerfNodes) : Succeeds (fun e => Encoder.perf nodes e) (perfSize nodes) := by
  induction nodes with
  | nil => exact nothing
  | cons kind name durationMs children rest ihChildren ihRest =>
    exact (int (perfKind kind)).andThen ((count children.length).andThen ((string name).andThen
      ((slot 1 durationMs).andThen (ihChildren.andThen ihRest))))

end Succeeds

/-- **Below 2^32 in all, no count of a batch is a panic.** -/
theorem encodeBatch_succeeds {batch : SentBatch}
    (hslots : ∀ t ∈ batch.tables, ∀ r ∈ t.2, WellFormed r.2)
    (hsize : batchSize batch < 2 ^ 32) :
    ∃ e buffer, encodeBatch batch = some e ∧ e.write = some buffer := by
  have hbatch : Succeeds (fun e => (some (e.number (f64OfNat batch.sequence.toNat))).bind fun e =>
      (e.head batch.finalizedHead).bind fun e => (e.head batch.latestHead).bind fun e =>
      (e.count batch.tables.length).bind fun e => (batch.tables.foldlM Encoder.table e).bind
      fun e => (e.count batch.perf.length).bind fun e => Encoder.perf batch.perf e)
      (batchSize batch) :=
    (Succeeds.slot 1 _).andThen ((Succeeds.head _).andThen ((Succeeds.head _).andThen
      ((Succeeds.count _).andThen
        ((Succeeds.foldlM fun t ht => Succeeds.table (hslots t ht)).andThen ((Succeeds.count _).andThen (Succeeds.perf batch.perf))))))
  have hroom : Room { bytesAsHex := false } (batchSize batch + 0) := by
    have hempty : 0 + (batchSize batch + 0) < 2 ^ 32 := by omega
    exact ⟨hempty, hempty, hempty, hempty⟩
  obtain ⟨e, he, hroom⟩ := hbatch { bytesAsHex := false } 0 hroom
  have hnums : e.nums.length < 2 ^ 32 := hroom.nums
  have hints : e.ints.length < 2 ^ 32 := hroom.ints
  have hends : e.stringEnds.length < 2 ^ 32 := hroom.ends
  have hwrite : ∃ buffer, e.write = some buffer := by
    unfold Encoder.write
    rw [JsCodec.count, if_pos hnums, JsCodec.count, if_pos hints, JsCodec.count, if_pos hends]
    exact ⟨_, rfl⟩
  obtain ⟨buffer, hbuffer⟩ := hwrite
  exact ⟨e, buffer, he, hbuffer⟩

end JsCodec

end Settle
