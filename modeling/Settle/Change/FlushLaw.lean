import Settle.Change.Index

/-!
# What a flush does to the target

A target holds rows by table and key (`Image`), and a record puts or removes one row. The records
of a call are **well formed** for a target if each fits the row that it finds there: an insert
finds none, an update and a delete find one, and the values they carry of it are right.

The merge of a flush is a fold for each row (`netRecord`), and `NetOf` says what it gives: the
difference between the row before and the row after. So the batch does to the target what the
records do one by one, with one exception: a flush marks a record that cancelled out by its shape,
a delete with no values, and a true delete of a row without columns has that shape too
(`flush_law_iff`).
-/

namespace Settle

open Std

/-! ## Targets -/

/-- The table and the key of a row of a target. -/
abbrev RowKey := String × GroupKey

/-- The rows of a target. -/
abbrev Image := RowKey → Option (List Value)

namespace ChangeRecord

def row (r : ChangeRecord) : RowKey := (r.table, r.key)

/-- The row after the record. -/
def effect (r : ChangeRecord) : Option (List Value) :=
  match r.operation with
  | .insert | .update => some r.values
  | .delete => none

/-- The record fits the row that it finds: this is how the engine makes its records. A raw
delete carries no previous values. -/
def Fits (r : ChangeRecord) (found : Option (List Value)) : Prop :=
  match r.operation with
  | .insert => found = none ∧ r.prevValues = none
  | .update => ∃ v, found = some v ∧ r.prevValues = some v
  | .delete => ∃ v, found = some v ∧ r.values = v ∧ (r.prevValues = none ∨ r.prevValues = some v)

end ChangeRecord

namespace Image

def apply (T : Image) (r : ChangeRecord) : Image := Function.update T r.row r.effect

/-- The records one by one. -/
def applyAll (T : Image) (records : List ChangeRecord) : Image := records.foldl apply T

end Image

/-- The records of a batch, table by table. -/
def ChangeBatch.records (b : ChangeBatch) : List ChangeRecord :=
  b.tables.toList.flatMap Prod.snd

/-- The target after what a flush returned. -/
def Image.applyBatch (T : Image) (batch : Option ChangeBatch) : Image :=
  T.applyAll ((batch.map ChangeBatch.records).getD [])

/-- Every record fits the target that the records before it leave. -/
def WellFormed (T : Image) : List ChangeRecord → Prop
  | [] => True
  | r :: records => r.Fits (T r.row) ∧ WellFormed (T.apply r) records

/-- What a flush promises, for the records that were pushed and the target before them. -/
structure FlushLaw (hash : RowHash) (T : Image) (b : ChangeBuffer) : Prop where
  /-- the batch does what the records do one by one -/
  image : T.applyBatch (b.flushIndexed hash).2 = T.applyAll b.pending
  single : ∀ batch, (b.flushIndexed hash).2 = some batch →
    (batch.records.map ChangeRecord.row).Nodup
  previous : ∀ batch, (b.flushIndexed hash).2 = some batch →
    ∀ r ∈ batch.records, ∀ v, r.prevValues = some v → T r.row = some v
  /-- no batch: every row that the records touch is absent before and after -/
  none_iff : (b.flushIndexed hash).2 = none ↔
    ∀ r ∈ b.pending, T r.row = none ∧ T.applyAll b.pending r.row = none
  sequence : ∀ batch, (b.flushIndexed hash).2 = some batch → batch.sequence = b.nextSequence
  next_sequence : (b.flushIndexed hash).1.nextSequence
    = b.nextSequence + if (b.flushIndexed hash).2.isSome then 1 else 0
  collisions : ∀ hash', b.flushIndexed hash' = b.flushIndexed hash

/-- The first record of the row is a raw delete and the last one a delete without values. -/
def HidesDelete (records : List ChangeRecord) (row : RowKey) : Prop :=
  ∃ first last, (records.filter (·.row = row)).head? = some first ∧
    (records.filter (·.row = row)).getLast? = some last ∧
    first.operation = .delete ∧ first.prevValues = none ∧
    last.operation = .delete ∧ last.values = []

/-! ## The records of one row -/

/-- The row after its records. -/
def rowAfter (v : Option (List Value)) (own : List ChangeRecord) : Option (List Value) :=
  own.foldl (fun _ r => r.effect) v

/-- The records fit the row one after the other. -/
def RowFits (v : Option (List Value)) : List ChangeRecord → Prop
  | [] => True
  | r :: own => r.Fits v ∧ RowFits r.effect own

theorem rowAfter_concat (v : Option (List Value)) (own : List ChangeRecord) (r : ChangeRecord) :
    rowAfter v (own ++ [r]) = r.effect := by
  rw [rowAfter, List.foldl_concat]

theorem rowFits_concat {v : Option (List Value)} {own : List ChangeRecord} {r : ChangeRecord} :
    RowFits v (own ++ [r]) ↔ RowFits v own ∧ r.Fits (rowAfter v own) := by
  induction own generalizing v with
  | nil => simp [RowFits, rowAfter]
  | cons r' own ih =>
    rw [List.cons_append, RowFits, RowFits, ih, and_assoc]
    rfl

/-- The records of other rows do not matter to a row. -/
theorem applyAll_eq_rowAfter (T : Image) (records : List ChangeRecord) (row : RowKey) :
    T.applyAll records row = rowAfter (T row) (records.filter (·.row = row)) := by
  induction records generalizing T with
  | nil => rfl
  | cons r records ih =>
    show (T.apply r).applyAll records row = _
    rw [ih, List.filter_cons]
    by_cases h : r.row = row
    · subst h
      simp [rowAfter, Image.apply]
    · simp [h, Image.apply, Function.update_of_ne (Ne.symm h)]

theorem WellFormed.rowFits {T : Image} {records : List ChangeRecord} (h : WellFormed T records)
    (row : RowKey) : RowFits (T row) (records.filter (·.row = row)) := by
  induction records generalizing T with
  | nil => trivial
  | cons r records ih =>
    have hrest := ih h.2
    rw [List.filter_cons]
    by_cases hr : r.row = row
    · subst hr
      rw [if_pos (by simp)]
      rw [Image.apply, Function.update_self] at hrest
      exact ⟨h.1, hrest⟩
    · rw [if_neg (by simpa using hr)]
      rwa [Image.apply, Function.update_of_ne (Ne.symm hr)] at hrest

/-- One record into the net record of its row. -/
def netStep : Option ChangeRecord → ChangeRecord → Option ChangeRecord
  | none, r => some r
  | some e, r => mergeInPlace e r

/-- The net record of a row: none if its records cancelled out. -/
def netRecord (own : List ChangeRecord) : Option ChangeRecord := own.foldl netStep none

theorem netRecord_concat (own : List ChangeRecord) (r : ChangeRecord) :
    netRecord (own ++ [r]) = netStep (netRecord own) r := by
  rw [netRecord, List.foldl_concat]
  rfl

/-- The net record of a row against the row before and after its records. -/
inductive NetOf (v : Option (List Value)) (own : List ChangeRecord) :
    Option (List Value) → Option ChangeRecord → Prop
  | untouched (h : own = []) : NetOf v own v none
  | cancelled (hv : v = none) : NetOf v own none none
  | insert (e : ChangeRecord) (hop : e.operation = .insert) (hv : v = none)
      (hprev : e.prevValues = none) : NetOf v own (some e.values) (some e)
  | update (e first : ChangeRecord) (hop : e.operation = .update) (hv : v.isSome)
      (hfirst : own.head? = some first) (hprev : e.prevValues = first.prevValues)
      (hold : e.prevValues = none ∨ e.prevValues = v) : NetOf v own (some e.values) (some e)
  | delete (e first last : ChangeRecord) (hop : e.operation = .delete) (hv : v.isSome)
      (hfirst : own.head? = some first) (hprev : e.prevValues = first.prevValues)
      (hold : e.prevValues = none ∨ e.prevValues = v) (hlast : own.getLast? = some last)
      (hdel : last.operation = .delete) (hvalues : e.values = last.values) :
      NetOf v own none (some e)

/-- The first record of a row. -/
theorem netOf_single {v : Option (List Value)} {r : ChangeRecord} (h : r.Fits v) :
    NetOf v [r] r.effect (some r) := by
  unfold ChangeRecord.Fits at h
  unfold ChangeRecord.effect
  cases hop : r.operation with
  | insert =>
    rw [hop] at h
    exact .insert r hop h.1 h.2
  | update =>
    rw [hop] at h
    obtain ⟨w, hv, hp⟩ := h
    exact .update r r hop (by rw [hv]; rfl) rfl rfl (Or.inr (by rw [hp, hv]))
  | delete =>
    rw [hop] at h
    obtain ⟨w, hv, -, hp⟩ := h
    refine .delete r r r hop (by rw [hv]; rfl) rfl rfl ?_ rfl hop rfl
    rw [hv]
    exact hp

/-- **The net record is the difference between the row before its records and after them.** -/
theorem netOf_netRecord {v : Option (List Value)} {own : List ChangeRecord} (h : RowFits v own) :
    NetOf v own (rowAfter v own) (netRecord own) := by
  -- induction on the records, the newest last
  induction own using List.reverseRecOn with
  | nil => exact .untouched rfl
  | append_singleton own r ih =>
    rw [rowFits_concat] at h
    obtain ⟨hown, hfits⟩ := h
    have ih := ih hown
    rw [netRecord_concat, rowAfter_concat]
    generalize rowAfter v own = cur at ih hfits
    generalize netRecord own = net at ih
    have hhead : ∀ first, own.head? = some first → (own ++ [r]).head? = some first := by
      intro first hf
      rw [List.head?_append, hf]
      rfl
    have hlast : (own ++ [r]).getLast? = some r := List.getLast?_concat
    cases ih with
    | untouched hnil =>
      subst hnil
      exact netOf_single hfits
    | cancelled hv =>
      subst hv
      -- an absent row takes only an insert
      unfold ChangeRecord.Fits at hfits
      cases hop : r.operation with
      | insert =>
        rw [hop] at hfits
        rw [ChangeRecord.effect, hop]
        exact .insert r hop rfl hfits.2
      | update =>
        rw [hop] at hfits
        obtain ⟨w, hw, -⟩ := hfits
        cases hw
      | delete =>
        rw [hop] at hfits
        obtain ⟨w, hw, -⟩ := hfits
        cases hw
    | insert e hope hv hprev =>
      unfold ChangeRecord.Fits at hfits
      rw [netStep, mergeInPlace, hope, ChangeRecord.effect]
      cases hop : r.operation with
      | insert =>
        rw [hop] at hfits
        cases hfits.1
      | update => exact .insert { e with operation := .insert, values := r.values } rfl hv hprev
      | delete => exact .cancelled hv
    | update e first hope hv hfirst hprev hold =>
      unfold ChangeRecord.Fits at hfits
      rw [netStep, mergeInPlace, hope, ChangeRecord.effect]
      cases hop : r.operation with
      | insert =>
        rw [hop] at hfits
        cases hfits.1
      | update =>
        exact .update { e with operation := .update, values := r.values } first rfl hv
          (hhead first hfirst) hprev hold
      | delete =>
        exact .delete { e with operation := .delete, values := r.values } first r rfl hv
          (hhead first hfirst) hprev hold hlast hop rfl
    | delete e first last hope hv hfirst hprev hold hl hdel hvalues =>
      unfold ChangeRecord.Fits at hfits
      rw [netStep, mergeInPlace, hope, ChangeRecord.effect]
      cases hop : r.operation with
      | insert =>
        exact .update { e with operation := .update, values := r.values } first rfl hv
          (hhead first hfirst) hprev hold
      | update =>
        rw [hop] at hfits
        obtain ⟨w, hw, -⟩ := hfits
        cases hw
      | delete =>
        rw [hop] at hfits
        obtain ⟨w, hw, -⟩ := hfits
        cases hw

/-! ## The slots of the merge -/

theorem sameRow_eq (a b : ChangeRecord) : sameRow a b = decide (a.row = b.row) := by
  rw [Bool.eq_iff_iff, sameRow_iff, decide_eq_true_iff, ChangeRecord.row, ChangeRecord.row,
    Prod.mk.injEq]

theorem row_mergeInPlace {e r x : ChangeRecord} (h : mergeInPlace e r = some x)
    (hrow : e.row = r.row) : x.row = e.row := by
  have := sameRow_mergeInPlace h (by rw [sameRow_eq]; simpa using hrow)
  rw [sameRow_eq] at this
  simpa using this

/-- The live records of a row. -/
def liveOf (slots : List MergeSlot) (row : RowKey) : List ChangeRecord :=
  (slots.filter fun s => s.live && s.record.row = row).map MergeSlot.record

/-- The slots after some records: the live record of a row is its net record. -/
structure SlotsOf (records : List ChangeRecord) (slots : List MergeSlot) : Prop where
  live : ∀ row, liveOf slots row = (netRecord (records.filter (·.row = row))).toList
  cancelled : ∀ s ∈ slots, s.live = false → isCancelled s.record

theorem SlotsOf.merge {records : List ChangeRecord} {slots : List MergeSlot}
    (h : SlotsOf records slots) (r : ChangeRecord) :
    SlotsOf (records ++ [r]) (mergeRecord slots r) := by
  have hfilter : ∀ row, (records ++ [r]).filter (·.row = row)
      = records.filter (·.row = row) ++ if r.row = row then [r] else [] := by
    intro row
    rw [List.filter_append, List.filter_singleton]
    by_cases hr : r.row = row <;> simp [hr]
  have hnet : ∀ row, netRecord ((records ++ [r]).filter (·.row = row))
      = if r.row = row then netStep (netRecord (records.filter (·.row = row))) r
        else netRecord (records.filter (·.row = row)) := by
    intro row
    rw [hfilter]
    split
    · exact netRecord_concat _ r
    · rw [List.append_nil]
  rw [mergeRecord]
  cases hfind : slots.findIdx? fun s => s.live && sameRow s.record r with
  | none =>
    have hnone : liveOf slots r.row = [] := by
      rw [liveOf, List.map_eq_nil_iff, List.filter_eq_nil_iff]
      intro s hs
      have := List.findIdx?_eq_none_iff.mp hfind s hs
      rw [sameRow_eq] at this
      simpa using this
    refine ⟨fun row => ?_, fun s hs hdead => ?_⟩
    · rw [hnet]
      by_cases hr : r.row = row
      · subst hr
        have hold := h.live r.row
        rw [hnone] at hold
        have hnil : netRecord (records.filter (·.row = r.row)) = none := by
          cases hn : netRecord (records.filter (·.row = r.row)) with
          | none => rfl
          | some e =>
            rw [hn] at hold
            cases hold
        rw [if_pos rfl, hnil]
        rw [liveOf, List.map_eq_nil_iff] at hnone
        simp [liveOf, hnone, netStep]
      · rw [if_neg hr, ← h.live row]
        simp [liveOf, List.filter_append, hr]
    · rcases List.mem_append.mp hs with hs | hs
      · exact h.cancelled s hs hdead
      · rw [List.mem_singleton.mp hs] at hdead
        cases hdead
  | some i =>
    obtain ⟨pre, s, post, rfl, hlen, hs⟩ := split_of_findIdx? hfind
    rw [Bool.and_eq_true, sameRow_eq, decide_eq_true_iff] at hs
    subst hlen
    -- the slots around the one that the search found
    have hlive : ∀ (s' : MergeSlot) row, liveOf (pre ++ s' :: post) row
        = liveOf pre row ++ ((if s'.live && s'.record.row = row then [s'.record] else []) ++
          liveOf post row) := by
      intro s' row
      simp only [liveOf, List.filter_append, List.map_append, List.filter_cons]
      split <;> simp
    have hold := h.live r.row
    rw [hlive s, if_pos (by simp [hs.1, hs.2])] at hold
    have hnetold : netRecord (records.filter (·.row = r.row)) = some s.record ∧
        liveOf pre r.row = [] ∧ liveOf post r.row = [] := by
      cases hn : netRecord (records.filter (·.row = r.row)) with
      | none =>
        rw [hn] at hold
        simp at hold
      | some e =>
        rw [hn] at hold
        have hlen := congrArg List.length hold
        simp only [List.length_append, List.length_cons, Option.toList_some, List.length_nil] at hlen
        have hp : liveOf pre r.row = [] := List.length_eq_zero_iff.mp (by omega)
        have hq : liveOf post r.row = [] := List.length_eq_zero_iff.mp (by omega)
        rw [hp, hq] at hold
        simp only [List.nil_append, List.append_nil, Option.toList_some, List.cons.injEq] at hold
        exact ⟨by rw [hold.1], hp, hq⟩
    obtain ⟨hnetold, hpre, hpost⟩ := hnetold
    have hmodify : ∀ f : MergeSlot → MergeSlot,
        (pre ++ s :: post).modify pre.length f = pre ++ f s :: post := by
      intro f
      rw [List.modify_eq_set_getElem?]
      simp
    dsimp only
    rw [hmodify]
    -- what the slot becomes
    have hafter : ∀ s' : MergeSlot, s'.record.row = r.row →
        (if s'.live then [s'.record] else []) = (mergeInPlace s.record r).toList →
        (s'.live = false → isCancelled s'.record) →
        SlotsOf (records ++ [r]) (pre ++ s' :: post) := by
      intro s' hrow hrecord hdead
      refine ⟨fun row => ?_, fun x hx hxdead => ?_⟩
      · rw [hlive, hnet]
        by_cases hr : r.row = row
        · subst hr
          rw [if_pos rfl, hpre, hpost, hnetold, netStep, ← hrecord]
          simp [hrow]
        · rw [if_neg hr, ← h.live row, hlive s]
          rw [if_neg (by simp [hrow, hr]), if_neg (by simp [hs.2, hr])]
      · rcases List.mem_append.mp hx with hx | hx
        · exact h.cancelled x (List.mem_append_left _ hx) hxdead
        · rcases List.mem_cons.mp hx with rfl | hx
          · exact hdead hxdead
          · exact h.cancelled x (List.mem_append_right _ (List.mem_cons_of_mem _ hx)) hxdead
    cases hm : mergeInPlace s.record r with
    | some x =>
      refine hafter _ ((row_mergeInPlace hm hs.2).trans hs.2) ?_ ?_
      · simp [hs.1, hm]
      · intro hdead
        rw [hs.1] at hdead
        cases hdead
    | none =>
      refine hafter _ hs.2 ?_ ?_
      · rw [hm]
        rfl
      · intro _
        rfl

theorem slotsOf_foldl (records : List ChangeRecord) :
    SlotsOf records (records.foldl mergeRecord []) := by
  induction records using List.reverseRecOn with
  | nil =>
    refine ⟨fun row => rfl, fun s hs => ?_⟩
    cases hs
  | append_singleton records r ih =>
    rw [List.foldl_concat]
    exact ih.merge r

/-- **The records of a row in the batch**: its net record, unless that looks cancelled. -/
theorem ChangeBuffer.merged_filter_row (b : ChangeBuffer) (row : RowKey) :
    b.merged.filter (·.row = row)
      = (netRecord (b.pending.filter (·.row = row))).toList.filter (!isCancelled ·) := by
  have hslots := slotsOf_foldl b.pending
  rw [← hslots.live row, ChangeBuffer.merged, liveOf]
  generalize b.pending.foldl mergeRecord [] = slots at hslots
  have hdead := hslots.cancelled
  clear hslots
  induction slots with
  | nil => rfl
  | cons s slots ih =>
    have ih := ih fun s' hs' => hdead s' (List.mem_cons_of_mem _ hs')
    have hs := hdead s List.mem_cons_self
    rw [List.map_cons, List.filter_cons, List.filter_cons]
    cases hlive : s.live with
    | false =>
      rw [if_neg (by simp [hs hlive]), if_neg (by simp)]
      exact ih
    | true =>
      by_cases hrow : s.record.row = row
      · simp only [hrow, decide_true, Bool.and_self, if_true, List.map_cons, List.filter_cons, ← ih]
        split
        · simp [hrow]
        · rfl
      · simp only [hrow, decide_false, Bool.and_false, Bool.false_eq_true, if_false]
        split
        · rw [List.filter_cons, if_neg (by simpa using hrow)]
          exact ih
        · exact ih

/-! ## The batch -/

theorem getElem?_groupByTable (records : List ChangeRecord) (table : String) :
    (groupByTable records)[table]?
      = if records.filter (·.table = table) = [] then none
        else some (records.filter (·.table = table)) := by
  induction records using List.reverseRecOn with
  | nil => rfl
  | append_singleton records r ih =>
    rw [groupByTable, List.foldl_concat, ← groupByTable, ExtTreeMap.getElem?_insert,
      List.filter_append]
    simp only [Std.compare_eq_iff_eq]
    by_cases h : r.table = table
    · subst h
      rw [if_pos rfl, ih]
      split
      · next hnil => simp [hnil]
      · simp
    · rw [if_neg h, ih]
      simp [h]

/-- The records of a row in the tables of a batch. -/
theorem filter_row_groupByTable (records : List ChangeRecord) (row : RowKey) :
    ((groupByTable records).toList.flatMap Prod.snd).filter (·.row = row)
      = records.filter (·.row = row) := by
  have hof : ∀ t, (records.filter (·.table = t)).filter (·.row = row)
      = if t = row.1 then records.filter (·.row = row) else [] := by
    intro t
    rw [List.filter_filter]
    split
    · next h =>
      subst h
      refine List.filter_congr fun r _ => ?_
      by_cases hr : r.row = row
      · simp [← hr, ChangeRecord.row]
      · simp [hr]
    · next h =>
      rw [List.filter_eq_nil_iff]
      intro r _
      simp only [Bool.and_eq_true, decide_eq_true_eq, not_and]
      rintro rfl htable
      exact h htable.symm
  rw [List.filter_flatMap, OrdMap.flatMap_toList_eq (k := row.1)]
  · rw [getElem?_groupByTable]
    split
    · next hnil =>
      have := hof row.1
      rw [hnil, if_pos rfl] at this
      exact this
    · exact (hof row.1).trans (if_pos rfl)
  · rintro ⟨t, l⟩ hmem hne
    have hl := ExtTreeMap.mem_toList_iff_getElem?_eq_some.mp hmem
    rw [getElem?_groupByTable] at hl
    split at hl
    · cases hl
    · cases hl
      exact (hof t).trans (if_neg hne)

theorem isEmpty_groupByTable (records : List ChangeRecord) :
    (groupByTable records).isEmpty ↔ records = [] := by
  constructor
  · intro h
    cases records with
    | nil => rfl
    | cons r records =>
      have := getElem?_groupByTable (r :: records) r.table
      rw [ExtTreeMap.isEmpty_iff.mp h, ExtTreeMap.getElem?_empty, if_neg (by simp)] at this
      cases this
  · rintro rfl
    exact ExtTreeMap.isEmpty_empty

namespace ChangeBuffer

variable (b : ChangeBuffer)

theorem merged_of_pending_nil (h : b.pending = []) : b.merged = [] := by
  rw [merged, h]
  rfl

theorem flush_eq_none_iff : b.flush.2 = none ↔ b.merged = [] := by
  rw [flush]
  split
  · next h => simp [b.merged_of_pending_nil (List.isEmpty_iff.mp h)]
  · dsimp only
    split
    · next h => simp [(isEmpty_groupByTable _).mp h]
    · next h =>
      rw [isEmpty_groupByTable] at h
      simp [h]

theorem flush_eq_some {batch : ChangeBatch} (h : b.flush.2 = some batch) :
    batch.tables = groupByTable b.merged ∧ batch.sequence = b.nextSequence ∧
      b.flush.1.nextSequence = b.nextSequence + 1 := by
  unfold flush at h ⊢
  split at h
  · cases h
  · next hp =>
    rw [if_neg hp]
    dsimp only at h ⊢
    split at h
    · cases h
    · next ht =>
      rw [if_neg ht]
      cases h
      exact ⟨rfl, rfl, rfl⟩

/-- The records of a row in what a flush returns. -/
theorem filter_row_flush (row : RowKey) :
    (((b.flush.2).map ChangeBatch.records).getD []).filter (·.row = row)
      = (netRecord (b.pending.filter (·.row = row))).toList.filter (!isCancelled ·) := by
  rw [← merged_filter_row]
  cases h : b.flush.2 with
  | none =>
    rw [b.flush_eq_none_iff.mp h]
    rfl
  | some batch =>
    show batch.records.filter _ = _
    rw [ChangeBatch.records, (b.flush_eq_some h).1, filter_row_groupByTable]

end ChangeBuffer

/-! ## The law -/

section Law

variable {T : Image} {b : ChangeBuffer}

/-- The first record of a row that is present and carries no previous values is a delete. -/
theorem RowFits.first_delete {v : Option (List Value)} {own : List ChangeRecord}
    {first : ChangeRecord} (h : RowFits v own) (hfirst : own.head? = some first) (hv : v.isSome)
    (hprev : first.prevValues = none) : first.operation = .delete := by
  obtain ⟨rest, rfl⟩ := List.head?_eq_some_iff.mp hfirst
  have hfits := h.1
  unfold ChangeRecord.Fits at hfits
  cases hop : first.operation with
  | insert =>
    rw [hop] at hfits
    rw [hfits.1] at hv
    cases hv
  | update =>
    rw [hop] at hfits
    obtain ⟨w, -, hw⟩ := hfits
    rw [hprev] at hw
    cases hw
  | delete => rfl

/-- The net record of a row goes into the batch, unless it hides a delete. -/
theorem not_isCancelled_of_netOf {row : RowKey} {e : ChangeRecord} (hwf : WellFormed T b.pending)
    (hhide : ¬ HidesDelete b.pending row)
    (hnet : NetOf (T row) (b.pending.filter (·.row = row)) (T.applyAll b.pending row) (some e)) :
    isCancelled e = false := by
  rw [Bool.eq_false_iff]
  intro hc
  rw [isCancelled, Bool.and_eq_true, Bool.and_eq_true, beq_iff_eq, Option.isNone_iff_eq_none,
    List.isEmpty_iff] at hc
  obtain ⟨⟨hop, hprev⟩, hvalues⟩ := hc
  generalize T.applyAll b.pending row = after at hnet
  cases hnet with
  | insert _ hop' => rw [hop] at hop'; cases hop'
  | update _ _ hop' => rw [hop] at hop'; cases hop'
  | delete _ first last _ hv hfirst hp _ hlast hdel hvals =>
    have hprev' : first.prevValues = none := hp ▸ hprev
    exact hhide ⟨first, last, hfirst, hlast, (hwf.rowFits row).first_delete hfirst hv hprev',
      hprev', hdel, by rw [← hvals, hvalues]⟩

/-- **The law of a flush.** The batch does to the target what the records do one by one, and is
absent exactly when they cancel out, if and only if no row ends in a delete that looks like a
cancelled record. -/
theorem flush_law_iff (hash : RowHash) (T : Image) (b : ChangeBuffer)
    (hwf : WellFormed T b.pending) :
    FlushLaw hash T b ↔ ∀ row, ¬ HidesDelete b.pending row := by
  have hnetOf : ∀ row, NetOf (T row) (b.pending.filter (·.row = row)) (T.applyAll b.pending row)
      (netRecord (b.pending.filter (·.row = row))) := by
    intro row
    rw [applyAll_eq_rowAfter]
    exact netOf_netRecord (hwf.rowFits row)
  constructor
  · intro hlaw row hhide
    have himage := congrFun hlaw.image row
    have hfilter := b.filter_row_flush row
    rw [b.flushIndexed_eq_flush, Image.applyBatch, applyAll_eq_rowAfter, hfilter] at himage
    obtain ⟨first, last, hfirst, hlast, hdel, hprev, hdel', hvalues⟩ := hhide
    have hpresent : (T row).isSome := by
      obtain ⟨rest, hrest⟩ := List.head?_eq_some_iff.mp hfirst
      have hfits := hwf.rowFits row
      rw [hrest] at hfits
      have := hfits.1
      unfold ChangeRecord.Fits at this
      rw [hdel] at this
      obtain ⟨w, hw, -⟩ := this
      rw [hw]
      rfl
    have hgone : T.applyAll b.pending row = none := by
      obtain ⟨init, hinit⟩ := List.getLast?_eq_some_iff.mp hlast
      rw [applyAll_eq_rowAfter, hinit, rowAfter_concat, ChangeRecord.effect, hdel']
    have hnet := hnetOf row
    rw [hgone] at himage hnet
    generalize netRecord (b.pending.filter (·.row = row)) = net at himage hnet
    generalize T row = v at himage hnet hpresent
    -- only a delete takes a row that is there away
    cases hnet with
    | untouched h => rw [h] at hfirst; cases hfirst
    | cancelled hv => rw [hv] at hpresent; cases hpresent
    | delete e first' last' hop _ hfirst' hp _ hlast' _ hv =>
      rw [hfirst] at hfirst'
      rw [hlast] at hlast'
      cases hfirst'
      cases hlast'
      have hc : isCancelled e = true := by
        rw [isCancelled, hop, hp, hprev, hv, hvalues]
        rfl
      rw [Option.toList_some, List.filter_singleton, hc] at himage
      have himage : v = none := himage
      rw [himage] at hpresent
      cases hpresent
  · intro hhide
    have hkept : ∀ row, ((((b.flush.2).map ChangeBatch.records).getD []).filter (·.row = row))
        = (netRecord (b.pending.filter (·.row = row))).toList := by
      intro row
      rw [b.filter_row_flush row]
      have hnet := hnetOf row
      cases hn : netRecord (b.pending.filter (·.row = row)) with
      | none => rfl
      | some e =>
        rw [hn] at hnet
        simp [not_isCancelled_of_netOf hwf (hhide row) hnet]
    refine ⟨?_, ?_, ?_, ?_, ?_, ?_, ?_⟩
    · funext row
      rw [b.flushIndexed_eq_flush, Image.applyBatch, applyAll_eq_rowAfter, hkept]
      have hnet := hnetOf row
      generalize T.applyAll b.pending row = after at hnet
      generalize netRecord (b.pending.filter (·.row = row)) = net at hnet
      cases hnet with
      | untouched => rfl
      | cancelled hv => exact hv
      | insert e hop => simp [rowAfter, ChangeRecord.effect, hop]
      | update e _ hop => simp [rowAfter, ChangeRecord.effect, hop]
      | delete e _ _ hop => simp [rowAfter, ChangeRecord.effect, hop]
    · intro batch hbatch
      rw [b.flushIndexed_eq_flush] at hbatch
      rw [List.nodup_iff_count_le_one]
      intro row
      have hrow := hkept row
      rw [hbatch] at hrow
      have hcount : (batch.records.map ChangeRecord.row).count row
          = (batch.records.filter (·.row = row)).length := by
        rw [List.count, List.countP_map, List.countP_eq_length_filter]
        congr 1
        refine List.filter_congr fun r _ => ?_
        rw [Bool.eq_iff_iff]
        simp
      rw [hcount, show batch.records.filter (·.row = row) = _ from hrow]
      exact Option.length_toList_le
    · intro batch hbatch r hr v hv
      rw [b.flushIndexed_eq_flush] at hbatch
      have hrow := hkept r.row
      rw [hbatch] at hrow
      have hmem : r ∈ batch.records.filter (·.row = r.row) :=
        List.mem_filter.mpr ⟨hr, by simp⟩
      rw [show batch.records.filter (·.row = r.row) = _ from hrow, Option.mem_toList] at hmem
      have hnet := hnetOf r.row
      rw [hmem] at hnet
      generalize T.applyAll b.pending r.row = after at hnet
      cases hnet with
      | insert _ _ _ hp => rw [hv] at hp; cases hp
      | update _ _ _ _ _ _ hold =>
        rw [hv] at hold
        exact (hold.resolve_left nofun).symm
      | delete _ _ _ _ _ _ _ hold =>
        rw [hv] at hold
        exact (hold.resolve_left nofun).symm
    · rw [b.flushIndexed_eq_flush, b.flush_eq_none_iff]
      constructor
      · intro hnil r hr
        have hnone : netRecord (b.pending.filter (·.row = r.row)) = none := by
          have := hkept r.row
          rw [b.flush_eq_none_iff.mpr hnil] at this
          exact Option.toList_eq_nil_iff.mp this.symm
        have hnet := hnetOf r.row
        rw [hnone] at hnet
        generalize T.applyAll b.pending r.row = after at hnet
        cases hnet with
        | untouched h =>
          have : r ∈ b.pending.filter (·.row = r.row) := List.mem_filter.mpr ⟨hr, by simp⟩
          rw [h] at this
          cases this
        | cancelled hv => exact ⟨hv, rfl⟩
      · intro habsent
        rw [← b.flush_eq_none_iff]
        cases hflush : b.flush.2 with
        | none => rfl
        | some batch =>
          exfalso
          have hne : b.merged ≠ [] := fun h => by
            rw [b.flush_eq_none_iff.mpr h] at hflush
            cases hflush
          obtain ⟨r, hr⟩ := List.exists_mem_of_ne_nil _ hne
          have hrow := b.merged_filter_row r.row
          have hmem : r ∈ b.merged.filter (·.row = r.row) := List.mem_filter.mpr ⟨hr, by simp⟩
          rw [hrow, List.mem_filter, Option.mem_toList] at hmem
          have hnet := hnetOf r.row
          rw [hmem.1] at hnet
          -- a row with a net record has a pushed record
          have hpushed : ∃ r' ∈ b.pending, r'.row = r.row := by
            cases hown : b.pending.filter (·.row = r.row) with
            | nil =>
              rw [hown] at hmem
              cases hmem.1
            | cons r' rest =>
              have : r' ∈ b.pending.filter (·.row = r.row) := by rw [hown]; exact List.mem_cons_self
              rw [List.mem_filter] at this
              exact ⟨r', this.1, by simpa using this.2⟩
          obtain ⟨r', hr', heq⟩ := hpushed
          obtain ⟨hbefore, hafter⟩ := habsent r' hr'
          rw [heq] at hbefore hafter
          rw [hbefore, hafter] at hnet
          cases hnet with
          | delete _ _ _ _ hv => cases hv
    · intro batch hbatch
      rw [b.flushIndexed_eq_flush] at hbatch
      exact (b.flush_eq_some hbatch).2.1
    · rw [b.flushIndexed_eq_flush]
      cases hflush : b.flush.2 with
      | none =>
        rcases b.flush_cases with ⟨-, hseq, -⟩ | ⟨batch, hsome, -⟩
        · simpa using hseq
        · rw [hflush] at hsome
          cases hsome
      | some batch => simpa using (b.flush_eq_some hflush).2.2
    · intro hash'
      rw [b.flushIndexed_eq_flush, b.flushIndexed_eq_flush]

end Law

/-! ## A row rewritten, and a row without columns -/

/-- A raw row of `table` in block 1. -/
def rawRecord (operation : ChangeOp) (table : String) (columns : List String)
    (values : List Value) : ChangeRecord where
  operation := operation
  schema := .rawTable table columns
  key := [.uint64 1, .uint64 0]
  values := values
  prevValues := none

/-- The target that holds one row. -/
def oneRow (r : ChangeRecord) : Image := Function.update (fun _ => none) r.row (some r.values)

/-- A fork replaces the trade of block 1. -/
def retrade : ChangeBuffer where
  pending := [rawRecord .delete "trades" ["price"] [.uint64 5],
    rawRecord .insert "trades" ["price"] [.uint64 7]]

theorem flush_law_retrade :
    WellFormed (oneRow (rawRecord .delete "trades" ["price"] [.uint64 5])) retrade.pending ∧
      FlushLaw (fun _ _ => 0) (oneRow (rawRecord .delete "trades" ["price"] [.uint64 5]))
        retrade := by
  have hwf : WellFormed (oneRow (rawRecord .delete "trades" ["price"] [.uint64 5]))
      retrade.pending := by
    refine ⟨⟨[.uint64 5], ?_, rfl, Or.inl rfl⟩, ⟨?_, rfl⟩, trivial⟩
    · rw [oneRow, Function.update_self]
      rfl
    · show Image.apply _ _ (rawRecord .delete "trades" ["price"] [.uint64 5]).row = none
      rw [Image.apply, Function.update_self]
      rfl
  refine ⟨hwf, (flush_law_iff _ _ _ hwf).mpr ?_⟩
  rintro row ⟨first, last, -, hlast, -, -, hdel, -⟩
  have hmem := List.mem_of_getLast? hlast
  rw [List.mem_filter] at hmem
  obtain ⟨init, hinit⟩ := List.getLast?_eq_some_iff.mp hlast
  have hrow : row = (rawRecord .insert "trades" ["price"] [.uint64 7]).row := by
    have hrow : last.row = row := by simpa using hmem.2
    rw [← hrow]
    rcases List.mem_cons.mp hmem.1 with h | h
    · rw [h]
      rfl
    · rw [List.mem_singleton.mp h]
  subst hrow
  cases hlast
  cases hdel

/-- A fork takes back the row of a table without columns. -/
def unmark : ChangeBuffer where
  pending := [rawRecord .delete "marks" [] []]

/-- **The delete of a row without columns is lost.** -/
theorem flush_loses_delete :
    WellFormed (oneRow (rawRecord .delete "marks" [] [])) unmark.pending ∧
      ¬ FlushLaw (fun _ _ => 0) (oneRow (rawRecord .delete "marks" [] [])) unmark := by
  refine ⟨⟨⟨[], ?_, rfl, Or.inl rfl⟩, trivial⟩, fun hlaw => ?_⟩
  · rw [oneRow, Function.update_self]
    rfl
  · have himage := congrFun hlaw.image (rawRecord .delete "marks" [] []).row
    have hnone : (unmark.flushIndexed fun _ _ => 0).2 = none := by
      rw [ChangeBuffer.flushIndexed_eq_flush, ChangeBuffer.flush_eq_none_iff]
      rfl
    rw [hnone, applyAll_eq_rowAfter] at himage
    simp [Image.applyBatch, Image.applyAll, unmark, rowAfter, oneRow, ChangeRecord.effect, rawRecord, ChangeRecord.row] at himage

end Settle
