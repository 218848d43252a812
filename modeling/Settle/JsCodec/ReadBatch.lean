import Settle.JsCodec.EncodeBatch

/-!
# A change batch in JS

`readBatch` of `bindings/typescript/settle/src/codec.ts` on what `encode_batch` wrote. It reads the
items in the order that they were written, so each read takes the first of those left
(`Input.Left`), and at the end none is left (`batch_codec`).
-/

namespace Settle

namespace JsCodec

variable {ω : Type}

/-! ## What JS reads -/

/-- The fields of an object, in the order of its literal. -/
abbrev Fields (ω : Type) := List (List UInt16 × SlotValue ω)

structure JsRecord (ω : Type) where
  table : List UInt16
  operation : ChangeOp
  key : Fields ω
  values : Fields ω
  prevValues : Option (Fields ω)

inductive JsPerfNodes where
  | nil
  | cons (kind : PerfNodeKind) (name : List UInt16) (durationMs : UInt64)
      (children rest : JsPerfNodes)

structure JsBatch (ω : Type) where
  sequence : UInt64
  finalizedHead : Option (UInt64 × List UInt16)
  latestHead : Option (UInt64 × List UInt16)
  tables : List (List UInt16 × List (JsRecord ω))
  perf : JsPerfNodes

/-- `RecordLayout`. -/
structure RecordLayout where
  table : List UInt16
  keyNames : List (List UInt16)
  columnNames : List (List UInt16)

/-- How far `readBatch` has read. -/
structure Place where
  slot : Nat := 0
  int : Nat := 0

/-- `setOwn`: the field of an object, at its place if the object has it. -/
def setOwn {α : Type} (fields : List (List UInt16 × α)) (name : List UInt16) (value : α) :
    List (List UInt16 × α) :=
  if fields.any fun f => f.1 == name then
    fields.map fun f => if f.1 == name then (name, value) else f
  else fields ++ [(name, value)]

namespace Input

variable (inp : Input ω)

/-- `ints[at++]`; none is undefined, here and below. -/
def int (c : Place) : Option (Nat × Place) := do
  let n ← inp.ints[c.int]?
  some (n.toNat, { c with int := c.int + 1 })

/-- `n[slot++]`. -/
def number (c : Place) : Option (UInt64 × Place) := do
  let n ← inp.nums[c.slot]?
  some (n, { c with slot := c.slot + 1 })

/-- `s[n[slot++]]`. -/
def string (c : Place) : Option (List UInt16 × Place) := do
  let n ← inp.nums[c.slot]?
  let i ← f64ToNat n
  let s ← inp.strings[i]?
  some (s, { c with slot := c.slot + 1 })

/-- `value` at a slot. -/
def slot (c : Place) : Option (SlotValue ω × Place) := do
  let tag ← inp.tags[c.slot]?
  let n ← inp.nums[c.slot]?
  let v ← slotValue inp.strings inp.others tag n
  some (v, { c with slot := c.slot + 1 })

def readHead (c : Place) : Option (Option (UInt64 × List UInt16) × Place) := do
  let (flag, c) ← inp.int c
  if flag = 1 then do
    let (number, c) ← inp.number c
    let (hash, c) ← inp.string c
    some (some (number, hash), c)
  else some (none, c)

def readNames : Nat → Place → Option (List (List UInt16) × Place)
  | 0, c => some ([], c)
  | n + 1, c => do
    let (name, c) ← inp.string c
    let (names, c) ← readNames n c
    some (name :: names, c)

/-- A `Build`: an object with a slot for each name. -/
def readFields : List (List UInt16) → Place → Option (Fields ω × Place)
  | [], c => some ([], c)
  | name :: names, c => do
    let (v, c) ← inp.slot c
    let (fields, c) ← readFields names c
    some ((name, v) :: fields, c)

def readLayout (c : Place) : Option (RecordLayout × Place) := do
  let (keyCount, c) ← inp.int c
  let (columnCount, c) ← inp.int c
  let (table, c) ← inp.string c
  let (keyNames, c) ← inp.readNames keyCount c
  let (columnNames, c) ← inp.readNames columnCount c
  some ({ table := table, keyNames := keyNames, columnNames := columnNames }, c)

/-- A record by its layout. -/
def readRecord (flags : Nat) (l : RecordLayout) (c : Place) : Option (JsRecord ω × Place) := do
  let (key, c) ← inp.readFields l.keyNames c
  let (values, c) ← inp.readFields l.columnNames c
  let (prevValues, c) ← (if flags &&& 4 ≠ 0 then
      (inp.readFields l.columnNames c).map fun r => (some r.1, r.2)
    else some (none, c) : Option (Option (Fields ω) × Place))
  let operation ← [ChangeOp.insert, .update, .delete][flags &&& 3]?
  some ({ table := l.table, operation := operation, key := key, values := values,
          prevValues := prevValues }, c)

def readRecords : Option RecordLayout → Nat → Place → Option (List (JsRecord ω) × Place)
  | _, 0, c => some ([], c)
  | layout, n + 1, c => do
    let (flags, c) ← inp.int c
    let (layout, c) ← (if flags &&& 8 ≠ 0 then (inp.readLayout c).map fun r => (some r.1, r.2)
      else some (layout, c) : Option (Option RecordLayout × Place))
    let l ← layout
    let (record, c) ← inp.readRecord flags l c
    let (records, c) ← readRecords (some l) n c
    some (record :: records, c)

def readTables : Nat → List (List UInt16 × List (JsRecord ω)) → Place →
    Option (List (List UInt16 × List (JsRecord ω)) × Place)
  | 0, tables, c => some (tables, c)
  | n + 1, tables, c => do
    let (name, c) ← inp.string c
    let (count, c) ← inp.int c
    let (records, c) ← inp.readRecords none count c
    readTables n (setOwn tables name records) c

/-- `readPerfNodes`; the nesting is at most `depth`. -/
def readPerfNodes : Nat → Nat → Place → Option (JsPerfNodes × Place)
  | _, 0, c => some (.nil, c)
  | 0, _ + 1, _ => none
  | depth + 1, n + 1, c => do
    let (kind, c) ← inp.int c
    let kind ← [PerfNodeKind.pipeline, .rawTable, .reducer, .mv, .parallel][kind]?
    let (childCount, c) ← inp.int c
    let (name, c) ← inp.string c
    let (durationMs, c) ← inp.number c
    let (children, c) ← readPerfNodes depth childCount c
    let (rest, c) ← readPerfNodes depth n c
    some (.cons kind name durationMs children rest, c)

/-- `readBatch`, with how far it read. A node takes two ints, so no forest has more nodes. -/
def readBatch : Option (JsBatch ω × Place) := do
  let (sequence, c) ← inp.number {}
  let (finalizedHead, c) ← inp.readHead c
  let (latestHead, c) ← inp.readHead c
  let (tableCount, c) ← inp.int c
  let (tables, c) ← inp.readTables tableCount [] c
  let (perfCount, c) ← inp.int c
  let (perf, c) ← inp.readPerfNodes inp.ints.length perfCount c
  some ({ sequence := sequence, finalizedHead := finalizedHead, latestHead := latestHead,
          tables := tables, perf := perf }, c)

end Input

/-! ## What a batch is to JS

`number` are the numbers of JS for the sequence and the heads, and `js` its values. -/

section

variable (number : Nat → UInt64) (js : Value → SlotValue ω)

def recordFields (r : ChangeRecord) (values : List Value) : Fields ω :=
  r.schema.columns.map fun column =>
    (utf16 column.1, js (columnValue r values column))

/-- A record for JS. -/
def jsRecord (r : ChangeRecord) : JsRecord ω where
  table := utf16 r.schema.table
  operation := r.operation
  key := (r.schema.keyColumns.zip r.key).map fun kv => (utf16 kv.1, js kv.2)
  values := recordFields js r r.values
  prevValues := r.prevValues.map (recordFields js r)

def jsHead (cursor : BlockCursor) : UInt64 × List UInt16 :=
  (number cursor.number.toNat, utf16 cursor.hash)

def jsPerf : PerfNodes → JsPerfNodes
  | .nil => .nil
  | .cons kind name durationMs children rest =>
    .cons kind (utf16 name) durationMs (jsPerf children) (jsPerf rest)

/-- A batch for JS. -/
def jsBatch (batch : SentBatch) : JsBatch ω where
  sequence := number batch.sequence.toNat
  finalizedHead := batch.finalizedHead.map (jsHead number)
  latestHead := batch.latestHead.map (jsHead number)
  tables := batch.tables.map fun t => (utf16 t.1, t.2.map fun r => jsRecord js r.2)
  perf := jsPerf batch.perf

end

def layoutOf (s : ChangeSchema) : RecordLayout where
  table := utf16 s.table
  keyNames := s.keyColumns.map utf16
  columnNames := s.columns.map fun column => utf16 column.1

def PerfNodes.size : PerfNodes → Nat
  | .nil => 0
  | .cons _ _ _ children rest => children.size + rest.size + 1

theorem recordFlags_new (operation : ChangeOp) (hasPrev newSchema : Bool) :
    (recordFlags operation hasPrev newSchema).toNat &&& 8 ≠ 0 ↔ newSchema = true := by
  cases operation <;> cases hasPrev <;> cases newSchema <;> decide

theorem recordFlags_prev (operation : ChangeOp) (hasPrev newSchema : Bool) :
    (recordFlags operation hasPrev newSchema).toNat &&& 4 ≠ 0 ↔ hasPrev = true := by
  cases operation <;> cases hasPrev <;> cases newSchema <;> decide

theorem recordFlags_operation (operation : ChangeOp) (hasPrev newSchema : Bool) :
    [ChangeOp.insert, .update, .delete][
      (recordFlags operation hasPrev newSchema).toNat &&& 3]? = some operation := by
  cases operation <;> cases hasPrev <;> cases newSchema <;> rfl

theorem utf16_injective {s t : String} (h : utf16 s = utf16 t) : s = t := by
  have hlist := congrArg fromUtf16Lossy h
  rw [fromUtf16Lossy_utf16, fromUtf16Lossy_utf16] at hlist
  exact String.ext hlist

/-! ## The reads -/

/-- The items left at a place. -/
structure Input.Left (inp : Input ω) (items : List (Item ω)) (c : Place) : Prop where
  ints : (inp.ints.drop c.int).map UInt32.toNat = Item.ints items
  ints_le : c.int ≤ inp.ints.length
  slots : (slotValues inp.strings inp.others inp.tags inp.nums).drop c.slot =
    (Item.slots items).map some
  slots_le : c.slot ≤ inp.tags.length
  nums_length : inp.nums.length = inp.tags.length

namespace Input.Left

variable {inp : Input ω} {items : List (Item ω)} {c : Place}

theorem int {n : Nat} (h : inp.Left (.int n :: items) c) :
    ∃ c', inp.int c = some (n, c') ∧ inp.Left items c' := by
  have hints := h.ints
  cases hdrop : inp.ints.drop c.int with
  | nil =>
    rw [hdrop] at hints
    cases hints
  | cons k rest =>
    rw [hdrop] at hints
    obtain ⟨hk, hrest⟩ := List.cons.inj hints
    obtain ⟨hget, hnext, hle⟩ := drop_cons hdrop
    refine ⟨{ c with int := c.int + 1 }, ?_, ?_⟩
    · rw [Input.int, hget, ← hk]
      rfl
    · exact { h with ints := hnext ▸ hrest, ints_le := hle }

/-- The next slot has a tag and a number that read as the next value. -/
theorem next {v : SlotValue ω} (h : inp.Left (.slot v :: items) c) :
    ∃ tag num, inp.tags[c.slot]? = some tag ∧ inp.nums[c.slot]? = some num ∧
      slotValue inp.strings inp.others tag num = some v ∧
      inp.Left items { c with slot := c.slot + 1 } := by
  obtain ⟨hget, hnext, hle⟩ := drop_cons h.slots
  unfold slotValues at hget hle
  rw [List.length_zipWith, h.nums_length, Nat.min_self] at hle
  obtain ⟨tag, htag⟩ : ∃ tag, inp.tags[c.slot]? = some tag :=
    ⟨_, List.getElem?_eq_getElem hle⟩
  obtain ⟨num, hnum⟩ : ∃ num, inp.nums[c.slot]? = some num :=
    ⟨_, List.getElem?_eq_getElem (h.nums_length ▸ hle)⟩
  rw [List.getElem?_zipWith, htag, hnum] at hget
  exact ⟨tag, num, htag, hnum, Option.some.inj hget,
    { h with slots := hnext, slots_le := hle }⟩

theorem slot {v : SlotValue ω} (h : inp.Left (.slot v :: items) c) :
    ∃ c', inp.slot c = some (v, c') ∧ inp.Left items c' := by
  obtain ⟨tag, num, htag, hnum, hv, h⟩ := h.next
  refine ⟨_, ?_, h⟩
  rw [Input.slot, htag, hnum]
  show (slotValue inp.strings inp.others tag num).bind _ = _
  rw [hv]
  rfl

theorem number {n : UInt64} (h : inp.Left (.slot (.number n) :: items) c) :
    ∃ c', inp.number c = some (n, c') ∧ inp.Left items c' := by
  obtain ⟨tag, num, htag, hnum, hv, h⟩ := h.next
  have hn : num = n := by
    unfold slotValue at hv
    split at hv
    · exact SlotValue.number.inj (Option.some.inj hv)
    · obtain ⟨_, -, hv⟩ := Option.map_eq_some_iff.mp hv
      cases hv
    · cases hv
    · cases hv
    · obtain ⟨_, -, hv⟩ := Option.map_eq_some_iff.mp hv
      cases hv
    · cases hv
  refine ⟨_, ?_, h⟩
  rw [Input.number, hnum, hn]
  rfl

theorem string {s : List UInt16} (h : inp.Left (.slot (.string s) :: items) c) :
    ∃ c', inp.string c = some (s, c') ∧ inp.Left items c' := by
  obtain ⟨tag, num, htag, hnum, hv, h⟩ := h.next
  have hs : (f64ToNat num).bind (inp.strings[·]?) = some s := by
    unfold slotValue at hv
    split at hv
    · cases hv
    · obtain ⟨t, ht, hv⟩ := Option.map_eq_some_iff.mp hv
      rw [ht, SlotValue.string.inj hv]
    · cases hv
    · cases hv
    · obtain ⟨_, -, hv⟩ := Option.map_eq_some_iff.mp hv
      cases hv
    · cases hv
  obtain ⟨i, hi, hget⟩ := Option.bind_eq_some_iff.mp hs
  refine ⟨_, ?_, h⟩
  rw [Input.string, hnum]
  show (f64ToNat num).bind _ = _
  rw [hi]
  show (inp.strings[i]?).bind _ = _
  rw [hget]
  rfl

theorem readHead {cursor : Option BlockCursor} (h : inp.Left (headItems cursor ++ items) c) :
    ∃ c', inp.readHead c = some (cursor.map (jsHead f64OfNat), c') ∧ inp.Left items c' := by
  unfold Input.readHead
  cases cursor with
  | none =>
    obtain ⟨c₁, hflag, h⟩ := h.int
    refine ⟨c₁, ?_, h⟩
    rw [hflag]
    rfl
  | some cursor =>
    obtain ⟨c₁, hflag, h⟩ := h.int
    obtain ⟨c₂, hnumber, h⟩ := h.number
    obtain ⟨c₃, hhash, h⟩ := h.string
    refine ⟨c₃, ?_, h⟩
    rw [hflag]
    show (inp.number c₁).bind _ = _
    rw [hnumber]
    show (inp.string c₂).bind _ = _
    rw [hhash]
    rfl

theorem readNames {α : Type} {f : α → String} {as : List α}
    (h : inp.Left (as.map (fun a => textItem (f a)) ++ items) c) :
    ∃ c', inp.readNames as.length c = some (as.map fun a => utf16 (f a), c') ∧
      inp.Left items c' := by
  induction as generalizing c with
  | nil => exact ⟨c, rfl, h⟩
  | cons a as ih =>
    obtain ⟨c₁, hname, h⟩ := string h
    obtain ⟨c₂, hnames, h⟩ := ih h
    refine ⟨c₂, ?_, h⟩
    show (inp.string c).bind _ = _
    rw [hname]
    show (inp.readNames as.length c₁).bind _ = _
    rw [hnames]
    rfl

theorem readFields {α : Type} (f : α → List UInt16) {v : α → SlotValue ω} {as : List α}
    (h : inp.Left (as.map (fun a => .slot (v a)) ++ items) c) :
    ∃ c', inp.readFields (as.map f) c = some (as.map fun a => (f a, v a), c') ∧
      inp.Left items c' := by
  induction as generalizing c with
  | nil => exact ⟨c, rfl, h⟩
  | cons a as ih =>
    obtain ⟨c₁, hv, h⟩ := slot h
    obtain ⟨c₂, hfields, h⟩ := ih h
    refine ⟨c₂, ?_, h⟩
    show (inp.slot c).bind _ = _
    rw [hv]
    show (inp.readFields (as.map f) c₁).bind _ = _
    rw [hfields]
    rfl

theorem readLayout {s : ChangeSchema} (h : inp.Left (schemaItems s ++ items) c) :
    ∃ c', inp.readLayout c = some (layoutOf s, c') ∧ inp.Left items c' := by
  unfold schemaItems at h
  rw [List.append_assoc, List.append_assoc] at h
  obtain ⟨c₁, hkeys, h⟩ := int h
  obtain ⟨c₂, hcolumns, h⟩ := int h
  obtain ⟨c₃, htable, h⟩ := string h
  obtain ⟨c₄, hkeyNames, h⟩ := readNames (f := fun s => s) h
  obtain ⟨c₅, hnames, h⟩ := readNames h
  refine ⟨c₅, ?_, h⟩
  show (inp.int c).bind _ = _
  rw [hkeys]
  show (inp.int c₁).bind _ = _
  rw [hcolumns]
  show (inp.string c₂).bind _ = _
  rw [htable]
  show (inp.readNames s.keyColumns.length c₃).bind _ = _
  rw [hkeyNames]
  show (inp.readNames s.columns.length c₄).bind _ = _
  rw [hnames]
  rfl

theorem readRecord {host : Value → ω} {r : ChangeRecord} (newSchema : Bool)
    (hkey : r.key.length = r.schema.keyColumns.length)
    (h : inp.Left (rowItems host r ++ items) c) :
    ∃ c', inp.readRecord (recordFlags r.operation r.prevValues.isSome newSchema).toNat
        (layoutOf r.schema) c = some (jsRecord (jsValue host) r, c') ∧ inp.Left items c' := by
  have hnames : (r.schema.keyColumns.zip r.key).map (fun kv => utf16 kv.1) =
      (layoutOf r.schema).keyNames := by
    show _ = r.schema.keyColumns.map utf16
    have hfst := List.map_fst_zip (Nat.le_of_eq hkey.symm)
    conv_rhs => rw [← hfst]
    rw [List.map_map]
    rfl
  have hoperation := recordFlags_operation r.operation r.prevValues.isSome newSchema
  have hprevFlag := recordFlags_prev r.operation r.prevValues.isSome newSchema
  unfold rowItems at h
  rw [List.append_assoc, List.append_assoc] at h
  obtain ⟨c₁, hkeys, h⟩ := readFields (fun kv => utf16 kv.1) h
  rw [hnames] at hkeys
  obtain ⟨c₂, hvalues, h⟩ := readFields (fun column => utf16 column.1) h
  have hread : ∃ c', (if (recordFlags r.operation r.prevValues.isSome newSchema).toNat &&& 4 ≠ 0
        then (inp.readFields (layoutOf r.schema).columnNames c₂).map fun r => (some r.1, r.2)
        else some (none, c₂)) = some (r.prevValues.map (recordFields (jsValue host) r), c') ∧
      inp.Left items c' := by
    cases hprev : r.prevValues with
    | none =>
      rw [hprev] at h hprevFlag
      refine ⟨c₂, ?_, h⟩
      rw [if_neg (fun hne => nomatch hprevFlag.mp hne)]
      rfl
    | some prev =>
      rw [hprev] at h hprevFlag
      obtain ⟨c₃, hprevValues, h⟩ := readFields (fun column => utf16 column.1) h
      refine ⟨c₃, ?_, h⟩
      rw [if_pos (hprevFlag.mpr rfl)]
      show (inp.readFields (r.schema.columns.map _) c₂).map _ = _
      rw [hprevValues]
      rfl
  obtain ⟨c₃, hprevRead, h⟩ := hread
  refine ⟨c₃, ?_, h⟩
  unfold Input.readRecord
  rw [hkeys]
  show (inp.readFields (r.schema.columns.map _) c₁).bind _ = _
  rw [hvalues]
  show Option.bind (if _ then _ else _) _ = _
  rw [hprevRead]
  show Option.bind ([ChangeOp.insert, .update, .delete][_]?) _ = _
  rw [hoperation]
  rfl

/-- The layout of the last new schema is the layout of each record with its address. -/
theorem readRecords {host : Value → ω} {rs : List (Nat × ChangeRecord)} {schema : Option Nat}
    {layout : Option RecordLayout}
    (hkeys : ∀ r ∈ rs, r.2.key.length = r.2.schema.keyColumns.length)
    (hschemas : ∀ r ∈ rs, ∀ r' ∈ rs, r.1 = r'.1 → r.2.schema = r'.2.schema)
    (hlayout : ∀ r ∈ rs, schema = some r.1 → layout = some (layoutOf r.2.schema))
    (h : inp.Left (recordsItems host schema rs ++ items) c) :
    ∃ c', inp.readRecords layout rs.length c = some (rs.map fun r => jsRecord (jsValue host) r.2, c') ∧
      inp.Left items c' := by
  induction rs generalizing schema layout c with
  | nil => exact ⟨c, rfl, h⟩
  | cons r rs ih =>
    obtain ⟨address, r⟩ := r
    rw [recordsItems, List.cons_append, List.append_assoc, List.append_assoc] at h
    obtain ⟨c₁, hflags, h⟩ := int h
    have hnew := recordFlags_new r.operation r.prevValues.isSome (schema != some address)
    -- with or without a new schema, the layout is that of the record
    have hread : ∃ c', (if (recordFlags r.operation r.prevValues.isSome
          (schema != some address)).toNat &&& 8 ≠ 0
          then (inp.readLayout c₁).map fun r => (some r.1, r.2)
          else some (layout, c₁)) = some (some (layoutOf r.schema), c') ∧
        inp.Left (rowItems host r ++ (recordsItems host (some address) rs ++ items)) c' := by
      by_cases hschema : schema = some address
      · have hold : (schema != some address) = false := by
          rw [hschema]
          exact bne_self_eq_false _
        rw [hold] at h hnew ⊢
        refine ⟨c₁, ?_, h⟩
        rw [if_neg (mt hnew.mp Bool.false_ne_true),
          hlayout (address, r) (List.mem_cons_self ..) hschema]
      · have hne : (schema != some address) = true := bne_iff_ne.mpr hschema
        rw [hne] at h hnew ⊢
        obtain ⟨c₂, hlayout, h⟩ := readLayout h
        refine ⟨c₂, ?_, h⟩
        rw [if_pos (hnew.mpr rfl), hlayout]
        rfl
    obtain ⟨c₂, hlayoutRead, h⟩ := hread
    obtain ⟨c₃, hrecord, h⟩ := readRecord (schema != some address)
      (hkeys _ (List.mem_cons_self ..)) h
    have hnext : ∀ r' ∈ rs, some address = some r'.1 →
        some (layoutOf r.schema) = some (layoutOf r'.2.schema) := by
      intro r' hr' heq
      rw [hschemas (address, r) (List.mem_cons_self ..) r' (List.mem_cons_of_mem _ hr')
        (Option.some.inj heq)]
    obtain ⟨c₄, hrecords, h⟩ := ih (fun r' hr' => hkeys r' (List.mem_cons_of_mem _ hr'))
      (fun r' hr' r'' hr'' => hschemas r' (List.mem_cons_of_mem _ hr') r''
        (List.mem_cons_of_mem _ hr'')) hnext h
    refine ⟨c₄, ?_, h⟩
    show (inp.int c).bind _ = _
    rw [hflags]
    show Option.bind (if _ then _ else _) _ = _
    rw [hlayoutRead]
    show (inp.readRecord _ _ c₂).bind _ = _
    rw [hrecord]
    show (inp.readRecords _ rs.length c₃).bind _ = _
    rw [hrecords]
    rfl

theorem setOwn_new {α : Type} {fields : List (List UInt16 × α)} {name : List UInt16} {value : α}
    (h : ∀ f ∈ fields, f.1 ≠ name) : setOwn fields name value = fields ++ [(name, value)] := by
  refine if_neg fun hany => ?_
  obtain ⟨f, hf, heq⟩ := List.any_eq_true.mp hany
  exact h f hf (beq_iff_eq.mp heq)

/-- Tables with names of their own. -/
theorem readTables {host : Value → ω} {ts : List (String × List (Nat × ChangeRecord))}
    {tables : List (List UInt16 × List (JsRecord ω))}
    (hkeys : ∀ t ∈ ts, ∀ r ∈ t.2, r.2.key.length = r.2.schema.keyColumns.length)
    (hschemas : ∀ t ∈ ts, ∀ r ∈ t.2, ∀ r' ∈ t.2, r.1 = r'.1 → r.2.schema = r'.2.schema)
    (hnames : (ts.map Prod.fst).Nodup) (hnew : ∀ t ∈ ts, ∀ f ∈ tables, f.1 ≠ utf16 t.1)
    (h : inp.Left (ts.flatMap (tableItems host) ++ items) c) :
    ∃ c', inp.readTables ts.length tables c = some (tables ++ ts.map fun t =>
        (utf16 t.1, t.2.map fun r => jsRecord (jsValue host) r.2), c') ∧ inp.Left items c' := by
  induction ts generalizing tables c with
  | nil => exact ⟨c, by rw [List.map_nil, List.append_nil]; rfl, h⟩
  | cons t ts ih =>
    rw [List.map_cons, List.nodup_cons] at hnames
    rw [List.flatMap_cons, List.append_assoc] at h
    obtain ⟨c₁, hname, h⟩ := string h
    obtain ⟨c₂, hcount, h⟩ := int h
    have hstart : ∀ r ∈ t.2, (none : Option Nat) = some r.1 →
        (none : Option RecordLayout) = some (layoutOf r.2.schema) :=
      fun _ _ hnone => by cases hnone
    obtain ⟨c₃, hrecords, h⟩ := readRecords (hkeys t (List.mem_cons_self ..))
      (hschemas t (List.mem_cons_self ..)) hstart h
    have hset : setOwn tables (utf16 t.1) (t.2.map fun r => jsRecord (jsValue host) r.2) =
        tables ++ [(utf16 t.1, t.2.map fun r => jsRecord (jsValue host) r.2)] :=
      setOwn_new (hnew t (List.mem_cons_self ..))
    have hnext : ∀ u ∈ ts, ∀ f ∈ tables ++ [(utf16 t.1, t.2.map fun r => jsRecord (jsValue host) r.2)],
        f.1 ≠ utf16 u.1 := by
      intro u hu f hf heq
      cases List.mem_append.mp hf with
      | inl hf => exact hnew u (List.mem_cons_of_mem _ hu) f hf heq
      | inr hf =>
        rw [List.mem_singleton.mp hf] at heq
        have hut : t.1 = u.1 := utf16_injective heq
        exact hnames.1 (hut ▸ List.mem_map_of_mem hu)
    obtain ⟨c₄, htables, h⟩ := ih (fun u hu => hkeys u (List.mem_cons_of_mem _ hu))
      (fun u hu => hschemas u (List.mem_cons_of_mem _ hu)) hnames.2 hnext h
    refine ⟨c₄, ?_, h⟩
    show (inp.string c).bind _ = _
    rw [hname]
    show (inp.int c₁).bind _ = _
    rw [hcount]
    show (inp.readRecords none t.2.length c₂).bind _ = _
    rw [hrecords]
    show inp.readTables ts.length (setOwn tables _ _) c₃ = _
    rw [hset, htables, List.append_assoc]
    rfl

theorem readPerfNodes {nodes : PerfNodes} {depth : Nat} (hdepth : nodes.size ≤ depth)
    (h : inp.Left (perfItems nodes ++ items) c) :
    ∃ c', inp.readPerfNodes depth nodes.length c = some (jsPerf nodes, c') ∧
      inp.Left items c' := by
  induction nodes generalizing depth items c with
  | nil =>
    refine ⟨c, ?_, h⟩
    cases depth <;> rfl
  | cons kind name durationMs children rest ihChildren ihRest =>
    rw [PerfNodes.size] at hdepth
    cases depth with
    | zero => omega
    | succ depth =>
      unfold perfItems at h
      rw [List.append_assoc, List.append_assoc] at h
      obtain ⟨c₁, hkind, h⟩ := int h
      obtain ⟨c₂, hcount, h⟩ := int h
      obtain ⟨c₃, hname, h⟩ := string h
      obtain ⟨c₄, hduration, h⟩ := number h
      have hchildrenDepth : children.size ≤ depth := by omega
      have hrestDepth : rest.size ≤ depth := by omega
      obtain ⟨c₅, hchildren, h⟩ := ihChildren hchildrenDepth h
      obtain ⟨c₆, hrest, h⟩ := ihRest hrestDepth h
      have hkindOf : [PerfNodeKind.pipeline, .rawTable, .reducer, .mv, .parallel][
          (perfKind kind).toNat]? = some kind := by
        cases kind <;> rfl
      refine ⟨c₆, ?_, h⟩
      show (inp.int c).bind _ = _
      rw [hkind]
      show Option.bind ([PerfNodeKind.pipeline, .rawTable, .reducer, .mv, .parallel][_]?) _ = _
      rw [hkindOf]
      show (inp.int c₁).bind _ = _
      rw [hcount]
      show (inp.string c₂).bind _ = _
      rw [hname]
      show (inp.number c₃).bind _ = _
      rw [hduration]
      show (inp.readPerfNodes depth children.length c₄).bind _ = _
      rw [hchildren]
      show (inp.readPerfNodes depth rest.length c₅).bind _ = _
      rw [hrest]
      rfl

theorem readBatch {host : Value → ω} {batch : SentBatch}
    (hkeys : ∀ t ∈ batch.tables, ∀ r ∈ t.2, r.2.key.length = r.2.schema.keyColumns.length)
    (hschemas : ∀ t ∈ batch.tables, ∀ r ∈ t.2, ∀ r' ∈ t.2, r.1 = r'.1 →
      r.2.schema = r'.2.schema)
    (hnames : (batch.tables.map Prod.fst).Nodup) (hdepth : batch.perf.size ≤ inp.ints.length)
    (h : inp.Left (batchItems host batch) {}) :
    ∃ c, inp.readBatch = some (jsBatch f64OfNat (jsValue host) batch, c) ∧ inp.Left [] c := by
  unfold batchItems at h
  have hnew : ∀ t ∈ batch.tables, ∀ f ∈ ([] : List (List UInt16 × List (JsRecord ω))),
      f.1 ≠ utf16 t.1 := fun _ _ _ hf => absurd hf List.not_mem_nil
  obtain ⟨c₁, hsequence, h⟩ := number h
  rw [List.append_assoc] at h
  obtain ⟨c₂, hfinalized, h⟩ := readHead h
  obtain ⟨c₃, hlatest, h⟩ := readHead h
  obtain ⟨c₄, htableCount, h⟩ := int h
  obtain ⟨c₅, htables, h⟩ := readTables hkeys hschemas hnames hnew h
  obtain ⟨c₆, hperfCount, h⟩ := int h
  rw [← List.append_nil (perfItems batch.perf)] at h
  obtain ⟨c₇, hperf, h⟩ := readPerfNodes hdepth h
  refine ⟨c₇, ?_, h⟩
  unfold Input.readBatch
  rw [hsequence]
  show (inp.readHead c₁).bind _ = _
  rw [hfinalized]
  show (inp.readHead c₂).bind _ = _
  rw [hlatest]
  show (inp.int c₃).bind _ = _
  rw [htableCount]
  show (inp.readTables batch.tables.length [] c₄).bind _ = _
  rw [htables]
  show (inp.int c₅).bind _ = _
  rw [hperfCount]
  show (inp.readPerfNodes _ batch.perf.length c₆).bind _ = _
  rw [hperf]
  rfl

/-- At the end of the items every int and every slot is read. -/
theorem finished (h : inp.Left [] c) : c = { slot := inp.tags.length, int := inp.ints.length } := by
  have hints := h.ints
  rw [Item.ints, List.map_eq_nil_iff, List.drop_eq_nil_iff] at hints
  have hslots := h.slots
  rw [Item.slots, List.map_nil, List.drop_eq_nil_iff, slotValues, List.length_zipWith,
    h.nums_length, Nat.min_self] at hslots
  have hint : c.int = inp.ints.length := Nat.le_antisymm h.ints_le hints
  have hslot : c.slot = inp.tags.length := Nat.le_antisymm h.slots_le hslots
  rw [← hint, ← hslot]

end Input.Left

theorem length_ints_perfItems (nodes : PerfNodes) :
    (Item.ints (perfItems nodes : List (Item ω))).length = 2 * nodes.size := by
  induction nodes with
  | nil => rfl
  | cons kind name durationMs children rest ihChildren ihRest =>
    rw [perfItems, Item.ints_append, Item.ints_append, List.length_append, List.length_append,
      ihChildren, ihRest, PerfNodes.size]
    show 2 + _ + _ = _
    omega

/-- **JS reads the batch that was written**, to the last int and slot. -/
theorem readBatch_write {host : Value → ω} {batch : SentBatch} {e : Encoder}
    {buffer : List UInt8} (he : encodeBatch batch = some e) (hw : e.write = some buffer)
    (hkeys : ∀ t ∈ batch.tables, ∀ r ∈ t.2, r.2.key.length = r.2.schema.keyColumns.length)
    (hschemas : ∀ t ∈ batch.tables, ∀ r ∈ t.2, ∀ r' ∈ t.2, r.1 = r'.1 →
      r.2.schema = r'.2.schema)
    (hnames : (batch.tables.map Prod.fst).Nodup) :
    ∃ input, readInput buffer e.joined (e.others.map host) = some input ∧
      input.readBatch = some (jsBatch f64OfNat (jsValue host) batch,
        { slot := input.tags.length, int := input.ints.length }) ∧
      ∃ texts : List String, e.strings.toList = texts.flatMap String.toList ∧
        input.strings = texts.map utf16 := by
  obtain ⟨table, h⟩ := @encodeBatch_wrote ω host batch e he
  refine ⟨_, readInput_write h hw _, ?_, ?_⟩
  · have htags : e.tags.length ≤ 2 ^ 53 := by
      obtain ⟨k, hk, -⟩ := Option.bind_eq_some_iff.mp hw
      have hlt := k.toNat_lt
      rw [count_eq_some hk, h.nums_length] at hlt
      omega
    have hints := congrArg List.length h.ints
    rw [List.length_map] at hints
    have hsize : batch.perf.size ≤ e.ints.length := by
      have hperf := @length_ints_perfItems ω batch.perf
      rw [hints, batchItems]
      simp only [Item.ints, Item.ints_append, List.length_append, List.length_cons, hperf]
      omega
    have hstart : Input.Left ⟨e.tags, e.nums, e.ints, table, e.others.map host⟩
        (batchItems host batch) {} := {
      ints := h.ints
      ints_le := Nat.zero_le _
      slots := h.slots htags
      slots_le := Nat.zero_le _
      nums_length := h.nums_length }
    obtain ⟨c, hread, hleft⟩ := hstart.readBatch hkeys hschemas hnames hsize
    rw [hread, hleft.finished]
  · obtain ⟨texts, htable, htexts⟩ := h.texts
    exact ⟨texts, htexts, htable⟩

/-- **A batch arrives.** What JS reads of an encoded batch is the batch with each value as the one
that JS is to get for it, to the last int and slot, and the strings are cut at their ends. The
buffer has the length that it was made with. No count is a panic below 2^32 in all, and the numbers
of the batch are exact up to 2^53. -/
theorem batch_codec (host : Value → ω) {batch : SentBatch}
    (hrecords : ∀ t ∈ batch.tables, ∀ r ∈ t.2, WellFormed r.2)
    (hschemas : ∀ t ∈ batch.tables, ∀ r ∈ t.2, ∀ r' ∈ t.2, r.1 = r'.1 →
      r.2.schema = r'.2.schema)
    (hnames : (batch.tables.map Prod.fst).Nodup) (hsequence : batch.sequence.toNat ≤ 2 ^ 53)
    (hheads : ∀ cursor, batch.finalizedHead = some cursor ∨ batch.latestHead = some cursor →
      cursor.number.toNat ≤ 2 ^ 53) :
    ∃ (number : Nat → UInt64) (js : Value → SlotValue ω),
      (∀ v, Value.ReadsAs host v (js v)) ∧
      (∀ e buffer, encodeBatch batch = some e → e.write = some buffer →
        buffer.length = e.byteLen ∧
        ∃ input, readInput buffer e.joined (e.others.map host) = some input ∧
          input.readBatch = some (jsBatch number js batch,
            { slot := input.tags.length, int := input.ints.length }) ∧
          ∃ texts : List String, e.strings.toList = texts.flatMap String.toList ∧
            input.strings = texts.map utf16) ∧
      (batchSize batch < 2 ^ 32 → ∃ e buffer, encodeBatch batch = some e ∧
        e.write = some buffer) ∧
      f64ToNat (jsBatch number js batch).sequence = some batch.sequence.toNat ∧
      ∀ cursor, batch.finalizedHead = some cursor ∨ batch.latestHead = some cursor →
        f64ToNat (jsHead number cursor).1 = some cursor.number.toNat := by
  refine ⟨f64OfNat, jsValue host, Value.toJs_readsAs host, ?_, encodeBatch_succeeds hrecords,
    f64ToNat_ofNat hsequence, fun cursor hcursor => f64ToNat_ofNat (hheads cursor hcursor)⟩
  intro e buffer he hw
  exact ⟨length_write hw,
    readBatch_write he hw (fun t ht r hr => (hrecords t ht r hr).key) hschemas hnames⟩

/-- An insert and an update of one schema, whose texts repeat; the update has a negative integer
and bytes as text. -/
theorem batch_codec_trades :
    let schema : ChangeSchema :=
      { table := "trades", keyColumns := ["id"]
        columns := [("id", .key 0), ("note", .value 0), ("change", .value 1), ("by", .value 2)] }
    let batch : SentBatch := {
      sequence := 7
      finalizedHead := none
      latestHead := some { number := 12, hash := "0xé" }
      tables := [("trades", [
        (1, { operation := .insert, schema := schema, key := [.uint64 1],
              values := [.string "0xé", .int64 5, .base58 [0xab]], prevValues := none }),
        (1, { operation := .update, schema := schema, key := [.uint64 1]
              values := [.null, .int64 (-7), .base58 [0xab]]
              prevValues := some [.string "0xé", .int64 5, .base58 [0xab]] })])]
      perf := .cons .pipeline "ingest" 0 (.cons .mv "trades" 0 .nil .nil) .nil }
    ∃ number js e buffer input, (∀ v, Value.ReadsAs id v (js v)) ∧
      encodeBatch batch = some e ∧ e.write = some buffer ∧
      readInput buffer e.joined (e.others.map id) = some input ∧
      (input.readBatch).map Prod.fst = some (jsBatch number js batch) := by
  intro schema batch
  have hrecords : ∀ t ∈ batch.tables, ∀ r ∈ t.2, WellFormed r.2 := by
    intro t ht r hr
    simp only [batch, List.mem_singleton] at ht
    subst ht
    simp only [List.mem_cons, List.not_mem_nil, or_false] at hr
    rcases hr with rfl | rfl <;>
      exact ⟨rfl, fun name i h => by
        simp only [schema, List.mem_cons, Prod.mk.injEq, List.not_mem_nil, or_false] at h
        rcases h with ⟨-, h⟩ | ⟨-, h⟩ | ⟨-, h⟩ | ⟨-, h⟩ <;> cases h
        all_goals decide⟩
  have hschemas : ∀ t ∈ batch.tables, ∀ r ∈ t.2, ∀ r' ∈ t.2, r.1 = r'.1 →
      r.2.schema = r'.2.schema := by
    intro t ht r hr r' hr' _
    simp only [batch, List.mem_singleton] at ht
    subst ht
    simp only [List.mem_cons, List.not_mem_nil, or_false] at hr hr'
    rcases hr with rfl | rfl <;> rcases hr' with rfl | rfl <;> rfl
  have hheads : ∀ cursor, batch.finalizedHead = some cursor ∨ batch.latestHead = some cursor →
      cursor.number.toNat ≤ 2 ^ 53 := by
    intro cursor hcursor
    rcases hcursor with h | h
    · cases h
    · obtain rfl := Option.some.inj h
      decide
  obtain ⟨number, js, hjs, hread, hsucceeds, -⟩ := batch_codec id hrecords hschemas (List.nodup_singleton _)
    (by decide) hheads
  obtain ⟨e, buffer, he, hw⟩ := hsucceeds (by decide +kernel)
  obtain ⟨-, input, hinput, hbatch, -⟩ := hread e buffer he hw
  refine ⟨number, js, e, buffer, input, hjs, he, hw, hinput, ?_⟩
  rw [hbatch]
  rfl

end JsCodec

end Settle
