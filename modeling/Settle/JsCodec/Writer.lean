import Settle.JsCodec.Decoder

/-!
# The writer of an ingest

`Writer` and `TableWriter` of `bindings/typescript/settle/src/codec.ts`. The arrays are kept from
call to call and double as needed, so that past the used part they hold what earlier calls wrote;
so does the number of a slot without one.

What a call leaves in the used part are the values that it put, one slot each (`Wrote.put`).
-/

namespace Settle

namespace JsCodec

/-! ## JS values -/

/-- A JS value, as `put` tells them apart. `H` are the host values: BigInts and objects. -/
inductive JsValue (H : Type) where
  | undefined
  | null
  | number (n : Number)
  /-- a string by its UTF-16 units -/
  | string (units : List UInt16)
  | boolean (b : Bool)
  | host (h : H)

namespace JsValue

variable {H : Type}

/-- The tag of its slot. -/
def tag : JsValue H → UInt8
  | .undefined => 0
  | .null => 0
  | .number _ => 1
  | .string _ => 2
  | .boolean b => if b then 3 else 4
  | .host _ => 5

/-- What it adds to the strings. -/
def strings : JsValue H → List (List UInt16)
  | .string units => [units]
  | _ => []

/-- What it adds to the host values. -/
def hosts : JsValue H → List H
  | .host h => [h]
  | _ => []

end JsValue

/-- The UTF-16 units of a character. -/
def charUnits (c : Char) : List UInt16 :=
  if c.toNat < 0x10000 then [UInt16.ofNat c.toNat]
  else
    let n := c.toNat - 0x10000
    [UInt16.ofNat (0xd800 + n / 0x400), UInt16.ofNat (0xdc00 + n % 0x400)]

/-- The UTF-16 units of a string. -/
def utf16 (s : String) : List UInt16 := s.toList.flatMap charUnits

/-- A length or an index as a JS number; no string or array of JS is longer than 2^53 - 1. -/
def Number.ofCount (n : Nat) : Number :=
  if h : n ≤ maxSafeInteger then .ofNat n h else default

/-- The number of the slot of a value, put after `k` host values. -/
def JsValue.NumOk {H : Type} (k : Nat) : JsValue H → Number → Prop
  | .number n, x => x = n
  | .string units, x => x = .ofCount units.length
  | .host _, x => x = .ofCount k
  | _, _ => True

def NumsOk {H : Type} : Nat → List (JsValue H) → List Number → Prop
  | _, [], [] => True
  | k, v :: vs, x :: xs => v.NumOk k x ∧ NumsOk (k + v.hosts.length) vs xs
  | _, _, _ => False

theorem NumsOk.append {H : Type} {k : Nat} {vs : List (JsValue H)} {xs : List Number}
    {v : JsValue H} {x : Number} (h : NumsOk k vs xs)
    (hx : v.NumOk (k + (vs.flatMap JsValue.hosts).length) x) :
    NumsOk k (vs ++ [v]) (xs ++ [x]) := by
  induction vs generalizing k xs with
  | nil =>
    cases xs with
    | nil => exact ⟨hx, trivial⟩
    | cons y ys => exact h.elim
  | cons u vs ih =>
    cases xs with
    | nil => exact h.elim
    | cons y ys =>
      refine ⟨h.1, ih h.2 ?_⟩
      rwa [List.flatMap_cons, List.length_append, ← Nat.add_assoc] at hx

/-! ## The writer -/

variable {H : Type}

structure Writer (H : Type) where
  tags : List UInt8
  nums : List Number
  ints : List UInt32
  slots : Nat
  intCount : Nat
  /-- string values in slot order -/
  strings : List (List UInt16)
  others : List H

namespace Writer

/-- A new writer. -/
def new : Writer H where
  tags := List.replicate 256 0
  nums := List.replicate 256 default
  ints := List.replicate 256 0
  slots := 0
  intCount := 0
  strings := []
  others := []

/-- Start over, with `header` ints for the counts. -/
def reset (w : Writer H) (header : Nat) : Writer H :=
  { w with slots := 0, intCount := header, strings := [], others := [] }

/-- `growInts`. -/
def growInts (w : Writer H) : Writer H :=
  { w with ints := w.ints ++ List.replicate w.ints.length 0 }

/-- `growSlots`. -/
def growSlots (w : Writer H) : Writer H :=
  { w with
    tags := w.tags ++ List.replicate w.tags.length 0
    nums := w.nums ++ List.replicate w.nums.length default }

/-- `int`. A `Uint32Array` keeps the lower 32 bits. -/
def int (w : Writer H) (n : Nat) : Writer H :=
  let w := if w.intCount = w.ints.length then w.growInts else w
  { w with ints := w.ints.set w.intCount (UInt32.ofNat n), intCount := w.intCount + 1 }

/-- The tag of slot `i`. -/
def setTag (w : Writer H) (i : Nat) (tag : UInt8) : Writer H := { w with tags := w.tags.set i tag }

/-- The number of slot `i`. -/
def setNum (w : Writer H) (i : Nat) (n : Number) : Writer H := { w with nums := w.nums.set i n }

/-- The switch of `put`, for slot `i`. -/
def fill (w : Writer H) (i : Nat) : JsValue H → Writer H
  | .number n => (w.setTag i 1).setNum i n
  | .string units =>
    let w := (w.setTag i 2).setNum i (Number.ofCount units.length)
    { w with strings := w.strings ++ [units] }
  | .boolean b => w.setTag i (if b then 3 else 4)
  | .host h =>
    let w := (w.setTag i 5).setNum i (Number.ofCount w.others.length)
    { w with others := w.others ++ [h] }
  | .null => w.setTag i 0
  | .undefined => w.setTag i 0

/-- `put`. -/
def put (w : Writer H) (v : JsValue H) : Writer H :=
  let i := w.slots
  let w := if i = w.tags.length then w.growSlots else w
  { w with slots := i + 1 }.fill i v

/-! ## The rows of an ingest -/

/-- A row by its fields; a field that it lacks is undefined. -/
abbrev JsRow (H : Type) := String → JsValue H

/-- A known table with its rows and its columns. -/
structure Table (H : Type) where
  name : String
  rows : List (JsRow H)
  columns : List String

/-- The known tables of the data. -/
def knownTables (columnsOf : String → Option (List String)) :
    List (String × List (JsRow H)) → Except String (List (Table H))
  | [] => .ok []
  | (name, rows) :: data =>
    match columnsOf name with
    | none => if rows.isEmpty then knownTables columnsOf data else .error ("unknown table: " ++ name)
    | some columns => do
      let tables ← knownTables columnsOf data
      .ok ({ name := name, rows := rows, columns := columns } :: tables)

/-- `rowWriter`: `block_number` first. -/
def writeRow (columns : List String) (w : Writer H) (row : JsRow H) : Writer H :=
  ("block_number" :: columns).foldl (fun w name => w.put (row name)) w

/-- What a row puts. -/
def rowValues (columns : List String) (row : JsRow H) : List (JsValue H) :=
  ("block_number" :: columns).map row

/-- What a table puts. -/
def Table.values (t : Table H) : List (JsValue H) := t.rows.flatMap (rowValues t.columns)

/-- The sizes of a table. -/
def Table.ints (t : Table H) : List UInt32 :=
  [UInt32.ofNat (utf16 t.name).length, UInt32.ofNat t.rows.length,
    UInt32.ofNat (t.columns.length + 1)]

/-- The sizes of a table, and its name. -/
def writeSizes (w : Writer H) (t : Table H) : Writer H :=
  let w := ((w.int (utf16 t.name).length).int t.rows.length).int (t.columns.length + 1)
  { w with strings := w.strings ++ [utf16 t.name] }

def writeTables (w : Writer H) (tables : List (Table H)) : Writer H :=
  let w := tables.foldl writeSizes (w.int tables.length)
  tables.foldl (fun w t => t.rows.foldl (writeRow t.columns) w) w

/-- `EncodedRows`. -/
structure Encoded (H : Type) where
  ints : List UInt32
  tags : List UInt8
  nums : List Number
  strings : List UInt16
  others : List H

/-- `encode`: the writer after the call, and what the call returns. -/
def encode (w : Writer H) (columnsOf : String → Option (List String))
    (data : List (String × List (JsRow H))) : Writer H × Except String (Encoded H) :=
  let w := w.reset 2
  match knownTables columnsOf data with
  | .error e => (w, .error e)
  | .ok tables =>
    let w := w.writeTables tables
    let w := { w with ints := (w.ints.set 0 (UInt32.ofNat w.intCount)).set 1 (UInt32.ofNat w.slots) }
    (w, .ok {
      ints := w.ints
      tags := w.tags
      nums := w.nums
      strings := w.strings.flatten
      others := w.others })

/-- A writer after any number of calls. -/
inductive Reachable : Writer H → Prop where
  | new : Reachable new
  | encode {w : Writer H} (columnsOf : String → Option (List String))
      (data : List (String × List (JsRow H))) : Reachable w → Reachable (w.encode columnsOf data).1

/-! ## The arrays -/

/-- The used part is inside the arrays, which have room to double. -/
structure Inv (w : Writer H) : Prop where
  nums_length : w.nums.length = w.tags.length
  slots_le : w.slots ≤ w.tags.length
  intCount_le : w.intCount ≤ w.ints.length
  header_le : 2 ≤ w.ints.length
  room : 0 < w.tags.length

def usedTags (w : Writer H) : List UInt8 := w.tags.take w.slots

def usedNums (w : Writer H) : List Number := w.nums.take w.slots

def usedInts (w : Writer H) : List UInt32 := w.ints.take w.intCount

theorem take_set_succ {α : Type} {l : List α} {i : Nat} (hi : i < l.length) (a : α) :
    (l.set i a).take (i + 1) = l.take i ++ [a] := by
  rw [List.take_add_one, List.take_set_of_le (Nat.le_refl i), List.getElem?_set_self hi]
  rfl

theorem inv_new : (new : Writer H).Inv where
  nums_length := List.length_replicate.trans List.length_replicate.symm
  slots_le := Nat.zero_le _
  intCount_le := Nat.zero_le _
  header_le := by
    show 2 ≤ (List.replicate 256 (0 : UInt32)).length
    rw [List.length_replicate]
    omega
  room := by
    show 0 < (List.replicate 256 (0 : UInt8)).length
    rw [List.length_replicate]
    omega

/-! ## What a call wrote -/

/-- A call so far: the ints after the header, the names that it pushed before the values, and the
values that it put. The numbers of the slots without one are unknown. -/
structure Wrote (w : Writer H) (is : List UInt32) (names : List (List UInt16))
    (vs : List (JsValue H)) : Prop extends Inv w where
  ints : w.usedInts.drop 2 = is
  intCount : w.intCount = is.length + 2
  tags : w.usedTags = vs.map JsValue.tag
  nums : NumsOk 0 vs w.usedNums
  strings : w.strings = names ++ vs.flatMap JsValue.strings
  others : w.others = vs.flatMap JsValue.hosts

/-- Nothing that an earlier call left is used. -/
theorem Inv.reset {w : Writer H} (h : w.Inv) : Wrote (w.reset 2) [] [] [] where
  nums_length := h.nums_length
  slots_le := Nat.zero_le _
  intCount_le := h.header_le
  header_le := h.header_le
  room := h.room
  ints := List.drop_eq_nil_of_le (List.length_take_le 2 w.ints)
  intCount := rfl
  tags := rfl
  nums := trivial
  strings := rfl
  others := rfl

variable {w : Writer H} {is : List UInt32} {names : List (List UInt16)} {vs : List (JsValue H)}

theorem Wrote.growInts (h : Wrote w is names vs) :
    Wrote w.growInts is names vs ∧ w.intCount < w.growInts.ints.length := by
  have hheader := h.header_le
  have hle := h.intCount_le
  have hlength : w.growInts.ints.length = w.ints.length + w.ints.length := by
    show (w.ints ++ List.replicate w.ints.length 0).length = _
    rw [List.length_append, List.length_replicate]
  have hused : w.growInts.usedInts = w.usedInts := List.take_append_of_le_length hle
  refine ⟨?_, by omega⟩
  exact {
    nums_length := h.nums_length
    slots_le := h.slots_le
    intCount_le := by show w.intCount ≤ _; omega
    header_le := by omega
    room := h.room
    ints := hused ▸ h.ints
    intCount := h.intCount
    tags := h.tags
    nums := h.nums
    strings := h.strings
    others := h.others }

/-- An int goes after the others. -/
theorem Wrote.int (h : Wrote w is names vs) (n : Nat) :
    Wrote (w.int n) (is ++ [UInt32.ofNat n]) names vs := by
  -- with room for it
  have hset : ∀ {w : Writer H}, Wrote w is names vs → w.intCount < w.ints.length →
      Wrote { w with ints := w.ints.set w.intCount (UInt32.ofNat n), intCount := w.intCount + 1 }
        (is ++ [UInt32.ofNat n]) names vs := by
    intro w h hlt
    have hcount := h.intCount
    have hused : (w.ints.set w.intCount (UInt32.ofNat n)).take (w.intCount + 1) =
        w.usedInts ++ [UInt32.ofNat n] := take_set_succ hlt _
    have htwo : 2 ≤ w.usedInts.length := by
      rw [usedInts, List.length_take]
      omega
    exact {
      nums_length := h.nums_length
      slots_le := h.slots_le
      intCount_le := by
        show w.intCount + 1 ≤ (w.ints.set w.intCount _).length
        rw [List.length_set]
        exact hlt
      header_le := by
        show 2 ≤ (w.ints.set w.intCount _).length
        rw [List.length_set]
        exact h.header_le
      room := h.room
      ints := by
        show ((w.ints.set w.intCount _).take (w.intCount + 1)).drop 2 = _
        rw [hused, List.drop_append_of_le_length htwo, h.ints]
      intCount := by
        show w.intCount + 1 = _
        rw [List.length_append, List.length_singleton]
        omega
      tags := h.tags
      nums := h.nums
      strings := h.strings
      others := h.others }
  by_cases hfull : w.intCount = w.ints.length
  · rw [Writer.int, if_pos hfull]
    exact hset h.growInts.1 h.growInts.2
  · rw [Writer.int, if_neg hfull]
    exact hset h (Nat.lt_of_le_of_ne h.intCount_le hfull)

/-- A name, before the first value. -/
theorem Wrote.name (h : Wrote w is names []) (name : List UInt16) :
    Wrote { w with strings := w.strings ++ [name] } is (names ++ [name]) [] where
  nums_length := h.nums_length
  slots_le := h.slots_le
  intCount_le := h.intCount_le
  header_le := h.header_le
  room := h.room
  ints := h.ints
  intCount := h.intCount
  tags := h.tags
  nums := h.nums
  strings := by
    show w.strings ++ [name] = _
    rw [h.strings, List.flatMap_nil, List.append_nil, List.append_nil]
  others := h.others

theorem Wrote.growSlots (h : Wrote w is names vs) :
    Wrote w.growSlots is names vs ∧ w.slots < w.growSlots.tags.length := by
  have hroom := h.room
  have hle := h.slots_le
  have htags : w.growSlots.tags.length = w.tags.length + w.tags.length := by
    show (w.tags ++ List.replicate w.tags.length 0).length = _
    rw [List.length_append, List.length_replicate]
  have hnums : w.growSlots.nums.length = w.nums.length + w.nums.length := by
    show (w.nums ++ List.replicate w.nums.length default).length = _
    rw [List.length_append, List.length_replicate]
  have husedTags : w.growSlots.usedTags = w.usedTags := List.take_append_of_le_length hle
  have husedNums : w.growSlots.usedNums = w.usedNums :=
    List.take_append_of_le_length (h.nums_length ▸ hle)
  refine ⟨?_, by omega⟩
  exact {
    nums_length := by rw [htags, hnums, h.nums_length]
    slots_le := by show w.slots ≤ _; omega
    intCount_le := h.intCount_le
    header_le := h.header_le
    room := by omega
    ints := h.ints
    intCount := h.intCount
    tags := husedTags ▸ h.tags
    nums := husedNums ▸ h.nums
    strings := h.strings
    others := h.others }

/-- The switch of `put`, in a slot inside the arrays. -/
theorem Wrote.fill (h : Wrote w is names vs) (hroom : w.slots < w.tags.length) (v : JsValue H) :
    Wrote ({ w with slots := w.slots + 1 }.fill w.slots v) is names (vs ++ [v]) := by
  have hnums : w.slots < w.nums.length := h.nums_length ▸ hroom
  -- the arrays after the switch, with `x` as the number of the slot
  have hfill : ∀ (nums : List Number) (x : Number) (strings : List (List UInt16))
      (others : List H), nums.length = w.nums.length →
      nums.take (w.slots + 1) = w.usedNums ++ [x] →
      v.NumOk (vs.flatMap JsValue.hosts).length x →
      strings = w.strings ++ v.strings → others = w.others ++ v.hosts →
      Wrote { w with
        tags := w.tags.set w.slots v.tag
        nums := nums
        slots := w.slots + 1
        strings := strings
        others := others } is names (vs ++ [v]) := by
    intro nums x strings others hlength htake hx hstrings hothers
    exact {
      nums_length := by
        show nums.length = (w.tags.set w.slots v.tag).length
        rw [hlength, h.nums_length, List.length_set]
      slots_le := by
        show w.slots + 1 ≤ (w.tags.set w.slots v.tag).length
        rw [List.length_set]
        exact hroom
      intCount_le := h.intCount_le
      header_le := h.header_le
      room := by
        show 0 < (w.tags.set w.slots v.tag).length
        rw [List.length_set]
        exact h.room
      ints := h.ints
      intCount := h.intCount
      tags := by
        show (w.tags.set w.slots v.tag).take (w.slots + 1) = _
        rw [take_set_succ hroom, List.map_append, ← h.tags]
        rfl
      nums := by
        show NumsOk 0 (vs ++ [v]) (nums.take (w.slots + 1))
        rw [htake]
        exact h.nums.append (by rwa [Nat.zero_add])
      strings := by
        show strings = _
        rw [hstrings, h.strings, List.flatMap_append, List.flatMap_singleton, List.append_assoc]
      others := by
        show others = _
        rw [hothers, h.others, List.flatMap_append, List.flatMap_singleton] }
  -- a slot without a number keeps what it held
  have hkeep : w.nums.take (w.slots + 1) = w.usedNums ++ [w.nums[w.slots]] := by
    rw [List.take_add_one, List.getElem?_eq_getElem hnums]
    rfl
  have hset (x : Number) : (w.nums.set w.slots x).take (w.slots + 1) = w.usedNums ++ [x] :=
    take_set_succ hnums x
  have hset_length (x : Number) : (w.nums.set w.slots x).length = w.nums.length := List.length_set
  have hstrings : w.strings = w.strings ++ [] := (List.append_nil _).symm
  have hothers : w.others = w.others ++ [] := (List.append_nil _).symm
  cases v with
  | undefined => exact hfill w.nums _ _ _ rfl hkeep trivial hstrings hothers
  | null => exact hfill w.nums _ _ _ rfl hkeep trivial hstrings hothers
  | boolean b => exact hfill w.nums _ _ _ rfl hkeep trivial hstrings hothers
  | number n => exact hfill _ n _ _ (hset_length n) (hset n) rfl hstrings hothers
  | string units => exact hfill _ _ _ _ (hset_length _) (hset _) rfl rfl hothers
  | host x =>
    rw [← h.others] at hfill
    exact hfill _ _ _ _ (hset_length _) (hset _) rfl hstrings rfl

/-- **A value goes in the next slot**, whatever the arrays held there. -/
theorem Wrote.put (h : Wrote w is names vs) (v : JsValue H) :
    Wrote (w.put v) is names (vs ++ [v]) := by
  unfold Writer.put
  dsimp only
  by_cases hfull : w.slots = w.tags.length
  · rw [if_pos hfull]
    exact h.growSlots.1.fill h.growSlots.2 v
  · rw [if_neg hfull]
    exact h.fill (Nat.lt_of_le_of_ne h.slots_le hfull) v

/-! ## What an encode writes -/

theorem Wrote.row (h : Wrote w is names vs) (columns : List String) (row : JsRow H) :
    Wrote (writeRow columns w row) is names (vs ++ rowValues columns row) := by
  unfold writeRow rowValues
  generalize "block_number" :: columns = fields
  induction fields generalizing w vs with
  | nil => simpa using h
  | cons field fields ih => simpa using ih (h.put (row field))

theorem Wrote.rows (h : Wrote w is names vs) (columns : List String) (rows : List (JsRow H)) :
    Wrote (rows.foldl (writeRow columns) w) is names (vs ++ rows.flatMap (rowValues columns)) := by
  induction rows generalizing w vs with
  | nil => simpa using h
  | cons row rows ih => simpa using ih (h.row columns row)

theorem Wrote.tableValues (h : Wrote w is names vs) (tables : List (Table H)) :
    Wrote (tables.foldl (fun w t => t.rows.foldl (writeRow t.columns) w) w) is names
      (vs ++ tables.flatMap Table.values) := by
  induction tables generalizing w vs with
  | nil => simpa using h
  | cons t tables ih => simpa [Table.values] using ih (h.rows t.columns t.rows)

theorem Wrote.tableSizes (h : Wrote w is names []) (t : Table H) :
    Wrote (w.writeSizes t) (is ++ t.ints) (names ++ [utf16 t.name]) [] := by
  have hints := ((h.int (utf16 t.name).length).int t.rows.length).int (t.columns.length + 1)
  rw [List.append_assoc, List.append_assoc] at hints
  exact hints.name (utf16 t.name)

theorem Wrote.sizes (h : Wrote w is names []) (tables : List (Table H)) :
    Wrote (tables.foldl writeSizes w) (is ++ tables.flatMap Table.ints)
      (names ++ tables.map fun t => utf16 t.name) [] := by
  induction tables generalizing w is names with
  | nil => simpa using h
  | cons t tables ih => simpa using ih (h.tableSizes t)

theorem Wrote.tables (h : Wrote w [] [] []) (tables : List (Table H)) :
    Wrote (w.writeTables tables) (UInt32.ofNat tables.length :: tables.flatMap Table.ints)
      (tables.map fun t => utf16 t.name) (tables.flatMap Table.values) :=
  ((h.int tables.length).sizes tables).tableValues tables

/-- The header is not part of what was written. -/
theorem Wrote.header (h : Wrote w is names vs) (a b : UInt32) :
    Wrote { w with ints := (w.ints.set 0 a).set 1 b } is names vs where
  nums_length := h.nums_length
  slots_le := h.slots_le
  intCount_le := by
    show w.intCount ≤ ((w.ints.set 0 a).set 1 b).length
    rw [List.length_set, List.length_set]
    exact h.intCount_le
  header_le := by
    show 2 ≤ ((w.ints.set 0 a).set 1 b).length
    rw [List.length_set, List.length_set]
    exact h.header_le
  room := h.room
  ints := by
    show (((w.ints.set 0 a).set 1 b).take w.intCount).drop 2 = is
    rw [← h.ints, usedInts, List.drop_take, List.drop_take, List.drop_set_of_lt (by omega),
      List.drop_set_of_lt (by omega)]
  intCount := h.intCount
  tags := h.tags
  nums := h.nums
  strings := h.strings
  others := h.others

theorem Wrote.slots_eq (h : Wrote w is names vs) : w.slots = vs.length := by
  have hlength : w.usedTags.length = vs.length := by rw [h.tags, List.length_map]
  rwa [usedTags, List.length_take, Nat.min_eq_left h.slots_le] at hlength

theorem knownTables_eq {columnsOf : String → Option (List String)}
    {data : List (String × List (JsRow H))}
    (h : ∀ t ∈ data, columnsOf t.1 = none → t.2 = []) :
    knownTables columnsOf data = .ok (data.filterMap fun t =>
      (columnsOf t.1).map fun columns => { name := t.1, rows := t.2, columns := columns }) := by
  induction data with
  | nil => rfl
  | cons t data ih =>
    have hrest := ih fun u hu => h u (List.mem_cons_of_mem _ hu)
    obtain ⟨name, rows⟩ := t
    rw [knownTables, List.filterMap_cons]
    cases hcolumns : columnsOf name with
    | none =>
      have hrows : rows = [] := h (name, rows) (List.mem_cons_self ..) hcolumns
      rw [hrows]
      exact hrest
    | some columns =>
      dsimp only
      rw [hrest]
      rfl

/-- What `encode` returns: the arrays of a writer that wrote the known tables, with the counts of
their used parts in the header. -/
theorem encode_wrote (h : w.Inv) {columnsOf : String → Option (List String)}
    {data : List (String × List (JsRow H))} {tables : List (Table H)}
    (htables : knownTables columnsOf data = .ok tables) :
    ∃ w', (w.encode columnsOf data) = (w', .ok {
        ints := w'.ints
        tags := w'.tags
        nums := w'.nums
        strings := w'.strings.flatten
        others := w'.others }) ∧
      Wrote w' (UInt32.ofNat tables.length :: tables.flatMap Table.ints)
        (tables.map fun t => utf16 t.name) (tables.flatMap Table.values) ∧
      w'.ints[0]? = some (UInt32.ofNat w'.intCount) ∧
      w'.ints[1]? = some (UInt32.ofNat w'.slots) := by
  have hwrote := h.reset.tables tables
  unfold encode
  dsimp only
  rw [htables]
  dsimp only
  generalize (w.reset 2).writeTables tables = w₁ at hwrote ⊢
  have hheader := hwrote.header_le
  refine ⟨_, rfl, hwrote.header (UInt32.ofNat w₁.intCount) (UInt32.ofNat w₁.slots), ?_, ?_⟩
  · show ((w₁.ints.set 0 _).set 1 _)[0]? = _
    rw [List.getElem?_set_ne (by omega), List.getElem?_set_self (by omega)]
  · show ((w₁.ints.set 0 _).set 1 _)[1]? = _
    rw [List.getElem?_set_self (by rw [List.length_set]; omega)]

/-- **Earlier calls leave the arrays usable.** -/
theorem Reachable.inv (h : Reachable w) : w.Inv := by
  induction h with
  | new => exact inv_new
  | @encode w columnsOf data _ ih =>
    unfold Writer.encode
    dsimp only
    split
    · exact ih.reset.toInv
    · next tables htables => exact ((ih.reset.tables tables).header _ _).toInv

end Writer

end JsCodec

end Settle
