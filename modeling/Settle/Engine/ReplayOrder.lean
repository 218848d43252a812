import Settle.Data.StableSort
import Settle.Engine.Wiring

/-!
# The order of a replay

`replay_unfinalized_inner` of `src/engine/dag.rs` reads the raw rows of each table a part at a time
and feeds the lowest block of all tables in each round. **Whatever the parts are, it feeds every
stored entry of the range once, in block order**: the fold of the rows of all tables, sorted by
block (`replayTables_eq`). The tables of one block come in the order of the cursors.

What is still to be fed is `ReplayCursor.remaining`. A refill keeps it, a round takes the entries of
the lowest block from its front, and each round feeds at least one entry.
-/

namespace Settle

open Std

/-- The rows of a table at a block. -/
structure ReplayEntry where
  table : String
  block : BlockNumber
  rows : List Row

/-- The rows of some tables, table by table. -/
def replayEntries (content : String → List (BlockNumber × List Row)) (tables : List String) :
    List ReplayEntry :=
  tables.flatMap fun table => (content table).map fun e => ⟨table, e.1, e.2⟩

/-- The rows of some tables, sorted by block. The entries of one block stay in table order. -/
def replaySchedule (content : String → List (BlockNumber × List Row)) (tables : List String) :
    List ReplayEntry :=
  (replayEntries content tables).mergeSort fun a b => a.block.toNat ≤ b.block.toNat

/-- Feed some entries, until one fails. -/
def feedAll {σ : Type} (feed : σ → String → BlockNumber → List Row → Except Error σ)
    (entries : List ReplayEntry) (s : σ) : Except Error σ :=
  entries.foldlM (fun s e => feed s e.table e.block e.rows) s

/-- What the reads of a replay answer: the rows of each table in the range, in block order, the
first `readBlocks` of them or all. -/
structure ReadsParts (read : RawReader) (readBlocks : Nat) (fromBlock toBlock : BlockNumber)
    (content : String → List (BlockNumber × List Row)) (tables : List String) : Prop where
  pos : 0 < readBlocks
  sorted : ∀ table ∈ tables, (content table).Pairwise fun a b => a.1 < b.1
  within : ∀ table ∈ tables, ∀ e ∈ content table, fromBlock ≤ e.1 ∧ e.1 ≤ toBlock
  part : ∀ table ∈ tables, ∀ b, fromBlock ≤ b → b ≤ toBlock → ∃ part,
    read table b toBlock readBlocks = .ok part ∧
      (part = ((content table).filter (b ≤ ·.1)).take readBlocks ∨
        part = (content table).filter (b ≤ ·.1))

variable {read : RawReader} {readBlocks : Nat} {fromBlock toBlock : BlockNumber}
  {content : String → List (BlockNumber × List Row)} {tables : List String}

/-! ## A cursor -/

namespace ReplayCursor

/-- The rows that a cursor has not fed: those that it read, and those that it has yet to read. -/
def remaining (content : String → List (BlockNumber × List Row)) (c : ReplayCursor) :
    List (BlockNumber × List Row) :=
  c.rows ++ match c.nextFrom with
    | some b => (content c.table).filter (b ≤ ·.1)
    | none => []

/-- A cursor of a replay. Its remaining rows are in block order. -/
structure Ok (content : String → List (BlockNumber × List Row)) (fromBlock toBlock : BlockNumber)
    (tables : List String) (c : ReplayCursor) : Prop where
  table : c.table ∈ tables
  sorted : (c.remaining content).Pairwise fun a b => a.1 < b.1
  within : ∀ b, c.nextFrom = some b → fromBlock ≤ b ∧ b ≤ toBlock

/-- The rows of a table split at a block. -/
theorem filter_above {l part rest : List (BlockNumber × List Row)} {last : BlockNumber × List Row}
    {b : BlockNumber} (hl : l.Pairwise fun a b => a.1 < b.1)
    (hsplit : l.filter (b ≤ ·.1) = part ++ rest) (hlast : part.getLast? = some last)
    (hlt : last.1 < toBlock) : l.filter (last.1 + 1 ≤ ·.1) = rest := by
  have hsucc : ∀ x : BlockNumber, last.1 + 1 ≤ x ↔ last.1 < x := by
    intro x
    have hadd : (last.1 + 1).toNat = last.1.toNat + 1 := by
      have h₁ := UInt64.lt_iff_toNat_lt.mp hlt
      have h₂ := toBlock.toNat_lt
      rw [UInt64.toNat_add]
      exact Nat.mod_eq_of_lt (by simpa using by omega)
    rw [UInt64.le_iff_toNat_le, UInt64.lt_iff_toNat_lt, hadd]
    omega
  have hmem : last ∈ l.filter (b ≤ ·.1) := by
    rw [hsplit]
    exact List.mem_append_left _ (List.mem_of_getLast? hlast)
  have hb : b ≤ last.1 := by simpa using (List.mem_filter.mp hmem).2
  -- the elements above the last one of the part are the rest
  have hfilter : l.filter (last.1 + 1 ≤ ·.1) = (part ++ rest).filter (last.1 + 1 ≤ ·.1) := by
    rw [← hsplit, List.filter_filter]
    refine List.filter_congr ?_
    intro e _
    have hiff : last.1 + 1 ≤ e.1 → b ≤ e.1 := fun h =>
      UInt64.le_of_lt (UInt64.lt_of_le_of_lt hb ((hsucc e.1).mp h))
    by_cases h : last.1 + 1 ≤ e.1
    · simp [h, hiff h]
    · simp [h]
  have hsorted : (part ++ rest).Pairwise fun a b => a.1 < b.1 := by
    rw [← hsplit]
    exact hl.filter _
  obtain ⟨hpart, -, hcross⟩ := List.pairwise_append.mp hsorted
  rw [hfilter, List.filter_append]
  have hnone : part.filter (last.1 + 1 ≤ ·.1) = [] := by
    rw [List.filter_eq_nil_iff]
    intro e he
    simp only [decide_eq_true_eq, hsucc]
    obtain ⟨front, rfl⟩ := List.getLast?_eq_some_iff.mp hlast
    rcases List.mem_append.mp he with he | he
    · have := (List.pairwise_append.mp hpart).2.2 e he last (by simp)
      exact UInt64.not_lt.mpr (UInt64.le_of_lt this)
    · rw [List.mem_singleton.mp he]
      exact UInt64.lt_irrefl _
  have hall : rest.filter (last.1 + 1 ≤ ·.1) = rest := by
    rw [List.filter_eq_self]
    intro e he
    simp only [decide_eq_true_eq, hsucc]
    exact hcross last (List.mem_of_getLast? hlast) e he
  rw [hnone, hall, List.nil_append]

/-- Where the next read of a cursor starts, after it read `part`. -/
def nextRead (readBlocks : Nat) (toBlock : BlockNumber) (part : List (BlockNumber × List Row)) :
    Option BlockNumber :=
  match part.getLast? with
  | some (last, _) => if part.length = readBlocks ∧ last < toBlock then some (last + 1) else none
  | none => none

/-- The next read gives what `part` left. -/
theorem nextRead_spec (hread : ReadsParts read readBlocks fromBlock toBlock content tables)
    {table : String} (htable : table ∈ tables) {b : BlockNumber}
    {part rest : List (BlockNumber × List Row)}
    (hsplit : (content table).filter (b ≤ ·.1) = part ++ rest)
    (hlen : rest ≠ [] → part.length = readBlocks) :
    (ReplayCursor.mk table (nextRead readBlocks toBlock part) part).remaining content
        = part ++ rest ∧
      ∀ b', nextRead readBlocks toBlock part = some b' → fromBlock ≤ b' ∧ b' ≤ toBlock := by
  have hsorted := hread.sorted table htable
  rw [remaining, nextRead]
  cases hlast : part.getLast? with
  | none =>
    have hnil : part = [] := List.getLast?_eq_none_iff.mp hlast
    have hrest : rest = [] := by
      by_contra hne
      have := hlen hne
      rw [hnil, List.length_nil] at this
      exact absurd this.symm (Nat.ne_of_gt hread.pos)
    dsimp only
    exact ⟨by rw [hrest], fun b' hb' => by cases hb'⟩
  | some last =>
    have hlastmem : last ∈ (content table).filter (b ≤ ·.1) := by
      rw [hsplit]
      exact List.mem_append_left _ (List.mem_of_getLast? hlast)
    have hlastIn := hread.within table htable last (List.mem_filter.mp hlastmem).1
    dsimp only
    by_cases hcond : part.length = readBlocks ∧ last.1 < toBlock
    · rw [if_pos hcond]
      dsimp only
      rw [filter_above hsorted hsplit hlast hcond.2]
      refine ⟨rfl, ?_⟩
      intro b' hb'
      cases hb'
      have hadd : (last.1 + 1).toNat = last.1.toNat + 1 := by
        have h₁ := UInt64.lt_iff_toNat_lt.mp hcond.2
        have h₂ := toBlock.toNat_lt
        rw [UInt64.toNat_add]
        exact Nat.mod_eq_of_lt (by simpa using by omega)
      have h₁ := UInt64.le_iff_toNat_le.mp hlastIn.1
      have h₂ := UInt64.lt_iff_toNat_lt.mp hcond.2
      constructor
      · rw [UInt64.le_iff_toNat_le, hadd]
        omega
      · rw [UInt64.le_iff_toNat_le, hadd]
        omega
    · rw [if_neg hcond]
      refine ⟨?_, fun b' hb' => by cases hb'⟩
      cases hrest : rest with
      | nil => rfl
      | cons e more =>
        -- a full part that ends at `toBlock` leaves nothing
        have hfull := hlen (by rw [hrest]; exact List.cons_ne_nil _ _)
        have hmem : e ∈ (content table).filter (b ≤ ·.1) := by
          rw [hsplit, hrest]
          simp
        have hto' := (hread.within table htable e (List.mem_filter.mp hmem).1).2
        have hcross : last.1 < e.1 := by
          have hp : (part ++ rest).Pairwise fun a b => a.1 < b.1 := by
            rw [← hsplit]
            exact hsorted.filter _
          exact (List.pairwise_append.mp hp).2.2 last (List.mem_of_getLast? hlast) e
            (by rw [hrest]; exact List.mem_cons_self)
        exact absurd ⟨hfull, UInt64.lt_of_lt_of_le hcross hto'⟩ hcond

/-- **A refill** keeps what remains, and has a row to feed if there is one. -/
theorem Ok.refill (hread : ReadsParts read readBlocks fromBlock toBlock content tables)
    {c : ReplayCursor} (h : c.Ok content fromBlock toBlock tables) :
    ∃ c', c.refill read readBlocks toBlock = .ok c' ∧ c'.table = c.table ∧
      c'.remaining content = c.remaining content ∧ c'.Ok content fromBlock toBlock tables ∧
      (c'.rows = [] → c'.remaining content = []) := by
  obtain ⟨table, nextFrom, rows⟩ := c
  cases nextFrom with
  | none =>
    refine ⟨_, rfl, rfl, rfl, h, ?_⟩
    intro hrows
    show rows ++ [] = []
    rw [show rows = [] from hrows, List.nil_append]
  | some b =>
    cases rows with
    | cons e rows => exact ⟨_, rfl, rfl, rfl, h, fun hrows => by cases hrows⟩
    | nil =>
      obtain ⟨hfrom, hto⟩ := h.within b rfl
      obtain ⟨part, hpart, hcase⟩ := hread.part table h.table b hfrom hto
      have hsplit : ∃ rest, (content table).filter (b ≤ ·.1) = part ++ rest ∧
          (rest ≠ [] → part.length = readBlocks) := by
        rcases hcase with rfl | rfl
        · refine ⟨((content table).filter (b ≤ ·.1)).drop readBlocks,
            (List.take_append_drop _ _).symm, ?_⟩
          intro hne
          have hlt : readBlocks < ((content table).filter (b ≤ ·.1)).length := by
            by_contra hge
            exact hne (List.drop_eq_nil_of_le (by omega))
          rw [List.length_take]
          omega
        · exact ⟨[], (List.append_nil _).symm, fun hne => absurd rfl hne⟩
      obtain ⟨rest, hsplit, hlen⟩ := hsplit
      have hremaining : (ReplayCursor.mk table (some b) []).remaining content = part ++ rest := by
        rw [remaining, List.nil_append]
        exact hsplit
      obtain ⟨hrem, hwithin⟩ := nextRead_spec hread h.table hsplit hlen
      refine ⟨⟨table, nextRead readBlocks toBlock part, part⟩, ?_, rfl, hrem.trans hremaining.symm,
        ?_, ?_⟩
      · show (read table b toBlock readBlocks >>= _) = _
        rw [hpart]
        rfl
      · refine ⟨h.table, ?_, hwithin⟩
        rw [hrem, ← hremaining]
        exact h.sorted
      · intro hrows
        have hnil : part = [] := hrows
        have hrest : rest = [] := by
          by_contra hne
          have := hlen hne
          rw [hnil, List.length_nil] at this
          exact absurd this.symm (Nat.ne_of_gt hread.pos)
        rw [hrem, hnil, hrest, List.nil_append]

/-- A cursor after a round at `block`. -/
def advance (block : BlockNumber) (c : ReplayCursor) : ReplayCursor :=
  match c.rows with
  | (b, _) :: more => if b = block then { c with rows := more } else c
  | [] => c

/-- What a cursor feeds in a round at `block`. -/
def front (block : BlockNumber) (c : ReplayCursor) : List ReplayEntry :=
  match c.rows with
  | (b, rows) :: _ => if b = block then [⟨c.table, b, rows⟩] else []
  | [] => []

/-- The entries that a cursor has not fed. -/
def entries (content : String → List (BlockNumber × List Row)) (c : ReplayCursor) :
    List ReplayEntry :=
  (c.remaining content).map fun e => ⟨c.table, e.1, e.2⟩

variable {c : ReplayCursor} {block : BlockNumber}

theorem entries_advance (c : ReplayCursor) (block : BlockNumber) :
    c.entries content = c.front block ++ (c.advance block).entries content := by
  obtain ⟨table, nextFrom, rows⟩ := c
  cases rows with
  | nil => rfl
  | cons e more =>
    obtain ⟨b, rows⟩ := e
    by_cases hb : b = block
    · have hadv : (ReplayCursor.mk table nextFrom ((b, rows) :: more)).advance block
          = ⟨table, nextFrom, more⟩ := if_pos hb
      have hfront : (ReplayCursor.mk table nextFrom ((b, rows) :: more)).front block
          = [⟨table, b, rows⟩] := if_pos hb
      rw [hadv, hfront]
      rfl
    · have hadv : (ReplayCursor.mk table nextFrom ((b, rows) :: more)).advance block
          = ⟨table, nextFrom, (b, rows) :: more⟩ := if_neg hb
      have hfront : (ReplayCursor.mk table nextFrom ((b, rows) :: more)).front block = [] :=
        if_neg hb
      rw [hadv, hfront]
      rfl

theorem Ok.advance (h : c.Ok content fromBlock toBlock tables) :
    (c.advance block).Ok content fromBlock toBlock tables := by
  have hsorted := h.sorted
  obtain ⟨table, nextFrom, rows⟩ := c
  cases rows with
  | nil => exact h
  | cons e more =>
    by_cases hb : e.1 = block
    · have hadv : (ReplayCursor.mk table nextFrom (e :: more)).advance block
          = ⟨table, nextFrom, more⟩ := if_pos hb
      rw [hadv]
      refine ⟨h.table, ?_, h.within⟩
      rw [remaining, List.cons_append] at hsorted
      exact (List.pairwise_cons.mp hsorted).2
    · have hadv : (ReplayCursor.mk table nextFrom (e :: more)).advance block
          = ⟨table, nextFrom, e :: more⟩ := if_neg hb
      rw [hadv]
      exact h

theorem mem_front {e : ReplayEntry} (h : e ∈ c.front block) : e.block = block := by
  obtain ⟨table, nextFrom, rows⟩ := c
  cases rows with
  | nil => cases h
  | cons e' more =>
    by_cases hb : e'.1 = block
    · have hfront : (ReplayCursor.mk table nextFrom (e' :: more)).front block
          = [⟨table, e'.1, e'.2⟩] := if_pos hb
      rw [hfront] at h
      rw [List.mem_singleton.mp h]
      exact hb
    · have hfront : (ReplayCursor.mk table nextFrom (e' :: more)).front block = [] := if_neg hb
      rw [hfront] at h
      cases h

/-- After a round at the lowest block, a cursor is above it. -/
theorem advance_above (h : c.Ok content fromBlock toBlock tables)
    (hfilled : c.rows = [] → c.remaining content = [])
    (hmin : ∀ b, c.frontBlock = some b → block ≤ b) {e : ReplayEntry}
    (he : e ∈ (c.advance block).entries content) : block < e.block := by
  have hsorted := h.sorted
  obtain ⟨r, hr, rfl⟩ := List.mem_map.mp he
  obtain ⟨table, nextFrom, rows⟩ := c
  cases rows with
  | nil =>
    have hr : r ∈ (ReplayCursor.mk table nextFrom []).remaining content := hr
    rw [hfilled rfl] at hr
    cases hr
  | cons e' more =>
    have hle := hmin e'.1 rfl
    rw [remaining, List.cons_append] at hsorted
    obtain ⟨habove, -⟩ := List.pairwise_cons.mp hsorted
    by_cases hb : e'.1 = block
    · have hadv : (ReplayCursor.mk table nextFrom (e' :: more)).advance block
          = ⟨table, nextFrom, more⟩ := if_pos hb
      rw [hadv] at hr
      rw [← hb]
      exact habove r hr
    · have hadv : (ReplayCursor.mk table nextFrom (e' :: more)).advance block
          = ⟨table, nextFrom, e' :: more⟩ := if_neg hb
      rw [hadv, remaining, List.cons_append] at hr
      have hlt : block < e'.1 := by
        rw [UInt64.lt_iff_le_and_ne]
        exact ⟨hle, fun heq => hb heq.symm⟩
      rcases List.mem_cons.mp hr with rfl | hr
      · exact hlt
      · exact UInt64.lt_trans hlt (habove r hr)

end ReplayCursor

/-! ## A round -/

section Round

variable {σ : Type} {feed : σ → String → BlockNumber → List Row → Except Error σ}

theorem feedAll_append (xs ys : List ReplayEntry) (s : σ) :
    feedAll feed (xs ++ ys) s = feedAll feed xs s >>= feedAll feed ys := by
  rw [feedAll, List.foldlM_append]
  rfl

/-- A round feeds the entries at the front of the cursors, in their order. -/
theorem feedBlock_eq (block : BlockNumber) (cs : List ReplayCursor) (s : σ) :
    feedBlock feed block cs s = (feedAll feed (cs.flatMap (·.front block)) s).map
      fun s => (cs.map (·.advance block), s) := by
  induction cs generalizing s with
  | nil => rfl
  | cons c cs ih =>
    obtain ⟨table, nextFrom, rows⟩ := c
    rw [List.flatMap_cons, feedAll_append, List.map_cons]
    cases rows with
    | nil =>
      rw [feedBlock]
      dsimp only
      rw [ih s]
      show _ = (feedAll feed (cs.flatMap fun c => ReplayCursor.front block c) s).map _
      generalize feedAll feed (cs.flatMap fun c => ReplayCursor.front block c) s = r
      cases r <;> rfl
    | cons e more =>
      obtain ⟨b, rows⟩ := e
      rw [feedBlock]
      dsimp only
      by_cases hb : b = block
      · have hadv : (ReplayCursor.mk table nextFrom ((b, rows) :: more)).advance block
            = ⟨table, nextFrom, more⟩ := if_pos hb
        have hfront : (ReplayCursor.mk table nextFrom ((b, rows) :: more)).front block
            = [⟨table, b, rows⟩] := if_pos hb
        have hone : feedAll feed [⟨table, b, rows⟩] s = feed s table b rows := by
          show (feed s table b rows >>= pure) = _
          cases feed s table b rows <;> rfl
        rw [if_pos hb, hadv, hfront, hone, ← hb]
        cases feed s table b rows with
        | error e => rfl
        | ok s' =>
          show (feedBlock feed b cs s' >>= _) = (feedAll feed _ s').map _
          rw [hb, ih s']
          generalize feedAll feed (cs.flatMap fun c => ReplayCursor.front block c) s' = r
          cases r <;> rfl
      · have hadv : (ReplayCursor.mk table nextFrom ((b, rows) :: more)).advance block
            = ⟨table, nextFrom, (b, rows) :: more⟩ := if_neg hb
        have hfront : (ReplayCursor.mk table nextFrom ((b, rows) :: more)).front block = [] :=
          if_neg hb
        rw [if_neg hb, hadv, hfront, ih s]
        show _ = (feedAll feed (cs.flatMap fun c => ReplayCursor.front block c) s).map _
        generalize feedAll feed (cs.flatMap fun c => ReplayCursor.front block c) s = r
        cases r <;> rfl

/-- The refill of all cursors. -/
theorem mapM_refill (hread : ReadsParts read readBlocks fromBlock toBlock content tables)
    {cs : List ReplayCursor} (hok : ∀ c ∈ cs, c.Ok content fromBlock toBlock tables) :
    ∃ cs', cs.mapM (ReplayCursor.refill read readBlocks toBlock) = .ok cs' ∧
      cs'.flatMap (·.entries content) = cs.flatMap (·.entries content) ∧
      ∀ c ∈ cs', c.Ok content fromBlock toBlock tables ∧
        (c.rows = [] → c.remaining content = []) := by
  induction cs with
  | nil => exact ⟨[], rfl, rfl, fun c hc => by cases hc⟩
  | cons c cs ih =>
    obtain ⟨c', hrefill, htable, hremaining, hc', hfilled⟩ :=
      (hok c List.mem_cons_self).refill hread
    obtain ⟨cs', hmap, hentries, hcs'⟩ := ih fun d hd => hok d (List.mem_cons_of_mem c hd)
    refine ⟨c' :: cs', ?_, ?_, ?_⟩
    · rw [List.mapM_cons, hrefill, hmap]
      rfl
    · rw [List.flatMap_cons, List.flatMap_cons, hentries, ReplayCursor.entries,
        ReplayCursor.entries, htable, hremaining]
    · intro d hd
      rcases List.mem_cons.mp hd with rfl | hd
      · exact ⟨hc', hfilled⟩
      · exact hcs' d hd

/-! ## The loop -/

/-- No cursor has rows, so nothing remains. -/
theorem entries_none {cs : List ReplayCursor}
    (hcs : ∀ c ∈ cs, c.rows = [] → c.remaining content = [])
    (hmin : (cs.filterMap ReplayCursor.frontBlock).min? = none) :
    cs.flatMap (·.entries content) = [] := by
  rw [List.flatMap_eq_nil_iff]
  intro c hc
  have hfront : c.frontBlock = none := by
    have hnil := List.min?_eq_none_iff.mp hmin
    by_contra hne
    obtain ⟨b, hb⟩ := Option.ne_none_iff_exists'.mp hne
    have hmem : b ∈ cs.filterMap ReplayCursor.frontBlock :=
      List.mem_filterMap.mpr ⟨c, hc, hb⟩
    rw [hnil] at hmem
    cases hmem
  have hrows : c.rows = [] := by
    cases hr : c.rows with
    | nil => rfl
    | cons e more =>
      rw [ReplayCursor.frontBlock, hr] at hfront
      cases hfront
  rw [ReplayCursor.entries, hcs c hc hrows]
  rfl

/-- The entries of `block` are the fronts of the cursors; the others stay. -/
theorem filter_entries (block : BlockNumber) (j : Nat) {cs : List ReplayCursor}
    (habove : ∀ e ∈ (cs.map (·.advance block)).flatMap (·.entries content), block < e.block) :
    (cs.flatMap (·.entries content)).filter (·.block.toNat = j)
      = (cs.flatMap (·.front block)).filter (·.block.toNat = j)
        ++ ((cs.map (·.advance block)).flatMap (·.entries content)).filter (·.block.toNat = j) := by
  by_cases hj : block.toNat = j
  · have hnone : ((cs.map (·.advance block)).flatMap (·.entries content)).filter
        (·.block.toNat = j) = [] := by
      rw [List.filter_eq_nil_iff]
      intro e he
      have := UInt64.lt_iff_toNat_lt.mp (habove e he)
      simp only [decide_eq_true_eq]
      omega
    rw [hnone, List.append_nil]
    induction cs with
    | nil => rfl
    | cons c cs ihc =>
      rw [List.map_cons, List.flatMap_cons, List.filter_append,
        List.append_eq_nil_iff] at hnone
      rw [List.map_cons, List.flatMap_cons] at habove
      rw [List.flatMap_cons, List.flatMap_cons, List.filter_append, List.filter_append,
        ihc (fun e he => habove e (List.mem_append_right _ he)) hnone.2,
        ReplayCursor.entries_advance c block, List.filter_append, hnone.1, List.append_nil]
  · have hnone : ∀ cs : List ReplayCursor,
        (cs.flatMap (·.front block)).filter (·.block.toNat = j) = [] := by
      intro cs
      rw [List.filter_eq_nil_iff]
      intro e he
      obtain ⟨c, -, he⟩ := List.mem_flatMap.mp he
      simp only [decide_eq_true_eq, ReplayCursor.mem_front he]
      exact hj
    rw [hnone, List.nil_append]
    induction cs with
    | nil => rfl
    | cons c cs ihc =>
      have hc := hnone [c]
      rw [List.flatMap_singleton] at hc
      rw [List.map_cons, List.flatMap_cons] at habove
      rw [List.map_cons, List.flatMap_cons, List.flatMap_cons, List.filter_append,
        List.filter_append, ihc fun e he => habove e (List.mem_append_right _ he),
        ReplayCursor.entries_advance c block, List.filter_append, hc, List.nil_append]

theorem length_entries (block : BlockNumber) (cs : List ReplayCursor) :
    (cs.flatMap (·.entries content)).length = (cs.flatMap (·.front block)).length
      + ((cs.map (·.advance block)).flatMap (·.entries content)).length := by
  induction cs with
  | nil => rfl
  | cons c cs ihc =>
    rw [List.map_cons, List.flatMap_cons, List.flatMap_cons, List.flatMap_cons,
      List.length_append, List.length_append, List.length_append, ihc,
      ReplayCursor.entries_advance c block, List.length_append]
    omega

/-- The cursor at the lowest block feeds an entry. -/
theorem length_front_pos {block : BlockNumber} {cs : List ReplayCursor}
    (hmem : block ∈ cs.filterMap ReplayCursor.frontBlock) :
    0 < (cs.flatMap (·.front block)).length := by
  obtain ⟨c, hc, hb⟩ := List.mem_filterMap.mp hmem
  apply List.length_pos_of_ne_nil
  intro hnil
  have hfront := List.flatMap_eq_nil_iff.mp hnil c hc
  obtain ⟨table, nextFrom, rows⟩ := c
  cases rows with
  | nil => cases hb
  | cons e more =>
    have hb : e.1 = block := Option.some.inj hb
    have : (ReplayCursor.mk table nextFrom (e :: more)).front block
        = [⟨table, e.1, e.2⟩] := if_pos hb
    rw [this] at hfront
    cases hfront

/-- **The loop of a replay.** It feeds the remaining entries in block order, those of each block in
the order of the cursors. -/
theorem replayLoop_eq (hread : ReadsParts read readBlocks fromBlock toBlock content tables)
    (feed : σ → String → BlockNumber → List Row → Except Error σ) (fuel : Nat)
    {cs : List ReplayCursor} (hok : ∀ c ∈ cs, c.Ok content fromBlock toBlock tables)
    (hfuel : (cs.flatMap (·.entries content)).length < fuel) :
    ∃ out : List ReplayEntry, (out.Pairwise fun a b => a.block.toNat ≤ b.block.toNat) ∧
      (∀ j, (cs.flatMap (·.entries content)).filter (·.block.toNat = j)
        = out.filter (·.block.toNat = j)) ∧
      ∀ s, replayLoop feed read readBlocks toBlock fuel cs s = some (feedAll feed out s) := by
  induction fuel generalizing cs with
  | zero => exact absurd hfuel (Nat.not_lt_zero _)
  | succ fuel ih =>
    obtain ⟨cs', hmap, hentries, hcs'⟩ := mapM_refill hread hok
    rw [← hentries] at hfuel ⊢
    cases hmin : (cs'.filterMap ReplayCursor.frontBlock).min? with
    | none =>
      have hnone := entries_none (fun c hc => (hcs' c hc).2) hmin
      refine ⟨[], List.Pairwise.nil, fun j => by rw [hnone], ?_⟩
      intro s
      rw [replayLoop, hmap]
      dsimp only
      rw [hmin]
      rfl
    | some block =>
      obtain ⟨hmem, hle⟩ := List.min?_eq_some_iff.mp hmin
      have hlowest : ∀ c ∈ cs', ∀ b, c.frontBlock = some b → block ≤ b := by
        intro c hc b hb
        exact hle b (List.mem_filterMap.mpr ⟨c, hc, hb⟩)
      have habove : ∀ e ∈ (cs'.map (·.advance block)).flatMap (·.entries content),
          block < e.block := by
        intro e he
        obtain ⟨c, hc, he⟩ := List.mem_flatMap.mp he
        obtain ⟨c, hc', rfl⟩ := List.mem_map.mp hc
        exact ReplayCursor.advance_above (hcs' c hc').1 (hcs' c hc').2 (hlowest c hc') he
      have hfed := length_front_pos hmem
      obtain ⟨out, hsorted, hout, hloop⟩ := @ih (cs'.map (·.advance block))
        (fun c hc => by
          obtain ⟨c, hc', rfl⟩ := List.mem_map.mp hc
          exact (hcs' c hc').1.advance)
        (by
          have hlen : (cs'.flatMap (·.entries content)).length = _ := length_entries block cs'
          omega)
      refine ⟨cs'.flatMap (·.front block) ++ out, ?_, ?_, ?_⟩
      · rw [List.pairwise_append]
        have hfronts : ∀ e ∈ cs'.flatMap (·.front block), e.block = block := by
          intro e he
          obtain ⟨c, -, he⟩ := List.mem_flatMap.mp he
          exact ReplayCursor.mem_front he
        refine ⟨?_, hsorted, ?_⟩
        · refine List.pairwise_of_forall_mem_list ?_
          intro a ha b hb
          rw [hfronts a ha, hfronts b hb]
        · intro a ha b hb
          rw [hfronts a ha]
          have hmem : b ∈ (cs'.map (·.advance block)).flatMap (·.entries content) := by
            have hb' : b ∈ out.filter (·.block.toNat = b.block.toNat) := by
              rw [List.mem_filter]
              exact ⟨hb, by simp⟩
            rw [← hout] at hb'
            exact (List.mem_filter.mp hb').1
          exact Nat.le_of_lt (UInt64.lt_iff_toNat_lt.mp (habove b hmem))
      · intro j
        rw [filter_entries block j habove, hout j, List.filter_append]
      · intro s
        rw [replayLoop, hmap]
        dsimp only
        rw [hmin]
        dsimp only
        rw [feedBlock_eq]
        rw [feedAll_append]
        cases hfeed : feedAll feed (cs'.flatMap (·.front block)) s with
        | error e => rfl
        | ok s' => exact hloop s'

end Round

/-- The stored rows of some tables, in table order. -/
theorem entries_init (hread : ReadsParts read readBlocks fromBlock toBlock content tables)
    (hrange : fromBlock ≤ toBlock) :
    (tables.map fun table => ({ table, nextFrom := fromBlock } : ReplayCursor)).flatMap
        (·.entries content) = replayEntries content tables ∧
      ∀ c ∈ tables.map fun table => ({ table, nextFrom := fromBlock } : ReplayCursor),
        c.Ok content fromBlock toBlock tables := by
  have hremaining : ∀ t ∈ tables, ReplayCursor.remaining content
      { table := t, nextFrom := fromBlock } = content t := by
    intro t ht
    show (content t).filter (fromBlock ≤ ·.1) = content t
    rw [List.filter_eq_self]
    intro e he
    exact decide_eq_true (hread.within t ht e he).1
  constructor
  · rw [replayEntries, List.flatMap_map]
    refine List.flatMap_congr ?_
    intro t ht
    rw [ReplayCursor.entries, hremaining t ht]
  · intro c hc
    obtain ⟨t, ht, rfl⟩ := List.mem_map.mp hc
    refine ⟨ht, ?_, ?_⟩
    · rw [hremaining t ht]
      exact hread.sorted t ht
    · intro b hb
      cases hb
      exact ⟨UInt64.le_refl _, hrange⟩

/-- **A replay feeds the schedule**, whatever parts the reads give. -/
theorem replayTables_eq {σ : Type}
    (hread : ReadsParts read readBlocks fromBlock toBlock content tables)
    (feed : σ → String → BlockNumber → List Row → Except Error σ) {fuel : Nat}
    (hfuel : (replayEntries content tables).length < fuel) (s : σ) :
    replayTables feed read readBlocks fuel tables fromBlock toBlock s
      = some (feedAll feed (replaySchedule content tables) s) := by
  rw [replayTables]
  split
  · next hlt =>
    -- an empty range has no rows
    have hnone : replayEntries content tables = [] := by
      rw [replayEntries, List.flatMap_eq_nil_iff]
      intro t ht
      cases hc : content t with
      | nil => rfl
      | cons e more =>
        obtain ⟨hfrom, hto⟩ := hread.within t ht e (by rw [hc]; exact List.mem_cons_self)
        exact absurd (UInt64.le_trans hfrom hto) (UInt64.not_le.mpr hlt)
    have hschedule : replaySchedule content tables = [] := by
      rw [replaySchedule, hnone]
      exact List.mergeSort_nil
    rw [hschedule]
    rfl
  · next hle =>
    obtain ⟨hentries, hok⟩ := entries_init hread (UInt64.not_lt.mp hle)
    obtain ⟨out, hsorted, hout, hloop⟩ := replayLoop_eq hread feed fuel hok (by
      rw [hentries]
      exact hfuel)
    rw [hloop s]
    have hschedule : replaySchedule content tables = out := by
      refine StableSort.mergeSort_eq_of_filter (fun e : ReplayEntry => e.block.toNat) hsorted ?_
      intro j
      rw [← hout j, hentries]
    rw [hschedule]

/-! ## The replay of an engine -/

namespace SettleEngine

variable {R V : Type}

/-- The rows of a table of the engine in a range of blocks, as storage has them. -/
def storedRows (e : SettleEngine R V) (store : Store) (fromBlock toBlock : BlockNumber)
    (table : String) : List (BlockNumber × List Row) :=
  match e.rawTables[table]? with
  | none => []
  | some raw => (store.tableRows raw.name fromBlock toBlock).map fun e =>
    (e.1, (decodeRows raw.registry e.2).toOption.getD [])

/-- The raw tables of an engine under their own names, with rows that decode. -/
structure ReadsBack (e : SettleEngine R V) (store : Store) (fromBlock toBlock : BlockNumber) :
    Prop where
  name : ∀ (table : String) (raw : RawTableEngine), e.rawTables[table]? = some raw →
    raw.name = table
  decode : ∀ (table : String) (raw : RawTableEngine), e.rawTables[table]? = some raw →
    ∀ (block : BlockNumber) data, fromBlock ≤ block → block ≤ toBlock →
    store.raw[(table, block)]? = some data → ∃ rows, decodeRows raw.registry data = .ok rows

/-- The rows above a block are the end of the rows of a range. -/
theorem tableRows_above (store : Store) (table : String) {fromBlock toBlock b : BlockNumber}
    (hb : fromBlock ≤ b) : store.tableRows table b toBlock
      = (store.tableRows table fromBlock toBlock).filter (b ≤ ·.1) := by
  rw [Store.tableRows, Store.tableRows, List.filter_map, Store.rawRange, Store.rawRange,
    List.filter_filter]
  congr 1
  refine List.filter_congr ?_
  rintro ⟨key, data⟩ _
  have hiff : ((compare (table, b) key).isLE && (compare key (table, toBlock)).isLE) = true ↔
      (decide (b ≤ key.2) && ((compare (table, fromBlock) key).isLE &&
        (compare key (table, toBlock)).isLE)) = true := by
    rw [Bool.and_eq_true (decide _), Store.isLE_compare_iff, Store.isLE_compare_iff,
      decide_eq_true_eq]
    constructor
    · rintro ⟨htable, hle, hto⟩
      exact ⟨hle, htable, UInt64.le_trans hb hle, hto⟩
    · rintro ⟨hle, htable, -, hto⟩
      exact ⟨htable, hle, hto⟩
  exact Bool.eq_iff_iff.mpr hiff

theorem mapM_decode {registry : ColumnRegistry} {l : List (BlockNumber × Datum)}
    (h : ∀ e ∈ l, ∃ rows, decodeRows registry e.2 = .ok rows) :
    (l.mapM fun (block, data) => do
        let rows ← decodeRows registry data
        .ok (block, rows))
      = .ok (l.map fun e => (e.1, (decodeRows registry e.2).toOption.getD [])) := by
  induction l with
  | nil => rfl
  | cons e l ih =>
    obtain ⟨rows, hrows⟩ := h e List.mem_cons_self
    rw [List.mapM_cons, List.map_cons, ih fun d hd => h d (List.mem_cons_of_mem _ hd)]
    dsimp only
    rw [hrows]
    rfl

/-- The reads of an engine answer with its stored rows. -/
theorem readsParts_readRows (e : SettleEngine R V) {store : Store}
    {fromBlock toBlock : BlockNumber} (h : e.ReadsBack store fromBlock toBlock) :
    ReadsParts (e.readRows store) replayReadBlocks fromBlock toBlock
      (e.storedRows store fromBlock toBlock) (e.rawTables.toList.map Prod.fst) := by
  have hrows : ∀ (table : String) (raw : RawTableEngine), e.rawTables[table]? = some raw →
      ∀ e' ∈ store.tableRows raw.name fromBlock toBlock,
        ∃ rows, decodeRows raw.registry e'.2 = .ok rows := by
    intro table raw hraw e' he'
    obtain ⟨⟨hfrom, hto⟩, hget⟩ := Store.mem_tableRows.mp
      (show (e'.1, e'.2) ∈ store.tableRows raw.name fromBlock toBlock from he')
    rw [h.name table raw hraw] at hget
    exact h.decode table raw hraw e'.1 e'.2 hfrom hto hget
  have hmem : ∀ table ∈ e.rawTables.toList.map Prod.fst, ∃ raw, e.rawTables[table]? = some raw := by
    intro table ht
    obtain ⟨⟨t, raw⟩, hmem, rfl⟩ := List.mem_map.mp ht
    exact ⟨raw, ExtTreeMap.mem_toList_iff_getElem?_eq_some.mp hmem⟩
  refine ⟨by decide, ?_, ?_, ?_⟩
  · intro table ht
    obtain ⟨raw, hraw⟩ := hmem table ht
    rw [storedRows, hraw]
    rw [List.pairwise_map]
    exact store.sorted_tableRows raw.name fromBlock toBlock
  · intro table ht r hr
    obtain ⟨raw, hraw⟩ := hmem table ht
    rw [storedRows, hraw] at hr
    obtain ⟨⟨b, d⟩, hbd, rfl⟩ := List.mem_map.mp hr
    exact (Store.mem_tableRows.mp hbd).1
  · intro table ht b hfrom hto
    obtain ⟨raw, hraw⟩ := hmem table ht
    have hall := hrows table raw hraw
    refine ⟨_, ?_, Or.inl rfl⟩
    rw [readRows, hraw]
    dsimp only
    rw [Store.getRawRowsLimited_eq, tableRows_above store raw.name hfrom,
      mapM_decode fun e' he' => hall e' (List.mem_filter.mp (List.mem_of_mem_take he')).1,
      storedRows, hraw, List.filter_map, ← List.map_take]
    rfl

/-- A replay has no more entries than storage has raw rows. -/
theorem length_storedRows (e : SettleEngine R V) {store : Store} {fromBlock toBlock : BlockNumber}
    (h : e.ReadsBack store fromBlock toBlock) :
    (replayEntries (e.storedRows store fromBlock toBlock)
      (e.rawTables.toList.map Prod.fst)).length ≤ store.raw.size := by
  -- each entry is a raw row of its table and block
  let keys := fun (table : String) => (store.tableRows table fromBlock toBlock).map fun r =>
    (((table, r.1), r.2) : (String × BlockNumber) × Datum)
  have hlen : ∀ tables : List String, (∀ t ∈ tables, ∃ raw, e.rawTables[t]? = some raw) →
      (replayEntries (e.storedRows store fromBlock toBlock) tables).length
        = (tables.flatMap keys).length := by
    intro tables htables
    induction tables with
    | nil => rfl
    | cons t tables ih =>
      obtain ⟨raw, hraw⟩ := htables t List.mem_cons_self
      rw [replayEntries, List.flatMap_cons, List.flatMap_cons, List.length_append,
        List.length_append, ← replayEntries,
        ih fun t' ht' => htables t' (List.mem_cons_of_mem t ht')]
      congr 1
      rw [List.length_map, List.length_map, storedRows, hraw]
      dsimp only
      rw [h.name t raw hraw]
      exact List.length_map _
  have hmem : ∀ t ∈ e.rawTables.toList.map Prod.fst, ∃ raw, e.rawTables[t]? = some raw := by
    intro t ht
    obtain ⟨⟨t, raw⟩, hmem, rfl⟩ := List.mem_map.mp ht
    exact ⟨raw, ExtTreeMap.mem_toList_iff_getElem?_eq_some.mp hmem⟩
  have hnodup : ((e.rawTables.toList.map Prod.fst).flatMap keys).Nodup := by
    rw [List.nodup_flatMap]
    constructor
    · intro t _
      refine List.Nodup.map ?_ ((store.sorted_tableRows t fromBlock toBlock).imp ?_)
      · intro r r' heq
        injection heq with hkey hdata
        injection hkey with _ hblock
        exact Prod.ext hblock hdata
      · intro r r' hlt heq
        rw [heq] at hlt
        exact UInt64.lt_irrefl _ hlt
    · refine (OrdMap.nodup_keys e.rawTables).imp ?_
      intro t t' hne x hx hx'
      obtain ⟨r, -, rfl⟩ := List.mem_map.mp hx
      obtain ⟨r', -, heq⟩ := List.mem_map.mp hx'
      injection heq with hkey _
      injection hkey with htable _
      exact hne htable.symm
  have hsub : ((e.rawTables.toList.map Prod.fst).flatMap keys) ⊆ store.raw.toList := by
    intro x hx
    obtain ⟨t, -, hx⟩ := List.mem_flatMap.mp hx
    obtain ⟨r, hr, rfl⟩ := List.mem_map.mp hx
    rw [ExtTreeMap.mem_toList_iff_getElem?_eq_some]
    exact (Store.mem_tableRows.mp hr).2
  calc (replayEntries (e.storedRows store fromBlock toBlock)
        (e.rawTables.toList.map Prod.fst)).length
      = ((e.rawTables.toList.map Prod.fst).flatMap keys).length := hlen _ hmem
    _ ≤ store.raw.toList.length := (hnodup.subperm hsub).length_le
    _ = store.raw.size := ExtTreeMap.length_toList

end SettleEngine

/-- **A replay visits what is stored.** Over any reads that give the first so many blocks of a
range or all of it, `replay_unfinalized_inner` feeds each (table, block) of the range exactly once,
in block order, until an entry fails; it ends within one round for each entry. -/
theorem replay_in_block_order {σ : Type} (read : RawReader) (readBlocks : Nat)
    (fromBlock toBlock : BlockNumber) (content : String → List (BlockNumber × List Row))
    (tables : List String) (feed : σ → String → BlockNumber → List Row → Except Error σ)
    (fuel : Nat) (s : σ) (hread : ReadsParts read readBlocks fromBlock toBlock content tables)
    (hfuel : (replayEntries content tables).length < fuel) :
    replayTables feed read readBlocks fuel tables fromBlock toBlock s
      = some (feedAll feed (replaySchedule content tables) s) :=
  replayTables_eq hread feed hfuel s

/-- The blocks of two tables. -/
def twoTables : String → List (BlockNumber × List Row)
  | "trades" => [(1, []), (3, [])]
  | "pools" => [(2, []), (3, [])]
  | _ => []

theorem replay_in_block_order_twoTables :
    replayTables (fun s table block _ => .ok (s ++ [(table, block)]))
        (fun table fromBlock _ n => .ok (((twoTables table).filter (fromBlock ≤ ·.1)).take n)) 1 5
        ["trades", "pools"] 1 3 []
      = some (feedAll (fun s table block _ => .ok (s ++ [(table, block)]))
        (replaySchedule twoTables ["trades", "pools"]) []) := by
  refine replay_in_block_order _ 1 1 3 twoTables ["trades", "pools"] _ 5 [] ?_ (by decide)
  refine ⟨by decide, ?_, ?_, fun _ _ _ _ _ => ⟨_, rfl, Or.inl rfl⟩⟩
  · intro table ht
    rcases List.mem_pair.mp ht with rfl | rfl <;> simp [twoTables]
  · intro table ht e he
    rcases List.mem_pair.mp ht with rfl | rfl
    · rcases List.mem_pair.mp he with rfl | rfl <;> decide
    · rcases List.mem_pair.mp he with rfl | rfl <;> decide

/-- **The replay of an engine** is the fold of its pipeline over the stored rows of the range, in
block order. -/
theorem SettleEngine.replayUnfinalized_eq {R V : Type} [ReducerNode R] [ViewNode V] [NodeBuild R V]
    (e : SettleEngine R V) (store : Store) (fromBlock toBlock : BlockNumber)
    (h : e.ReadsBack store fromBlock toBlock) :
    e.replayUnfinalized store fromBlock toBlock
      = (feedAll (fun nodes table block rows =>
          Nodes.replayTableBlock store block none e.pipeline nodes
            ((∅ : Nodes.OutputRows).insert table rows))
          (replaySchedule (e.storedRows store fromBlock toBlock)
            (e.rawTables.toList.map Prod.fst)) e.nodes).map
        fun nodes => { e with nodes := nodes } := by
  have hfuel := e.length_storedRows h
  rw [SettleEngine.replayUnfinalized]
  rw [replayTables_eq (e.readsParts_readRows h) _ (by omega)]
  rfl

/-- A store with rows of `t` in the blocks 1 and 3. -/
def rowsOfT : Store where
  raw := ((∅ : BTreeMap (String × BlockNumber) Datum).insert ("t", 1)
    (.rows [{ registry := ⟨["block_number", "x"]⟩, values := [.uint64 1, .uint64 5] }])).insert
    ("t", 3) (.rows [{ registry := ⟨["block_number", "x"]⟩, values := [.uint64 3, .uint64 7] },
      { registry := ⟨["block_number", "x"]⟩, values := [.uint64 3, .uint64 8] }])

/-- The groups of the view `w` of `t` and of the reducer `a`: the sum of `x`, the number of rows. -/
def sumAndCount (e : PipelineEngine) : List (List Value) :=
  (e.nodes.mvs["w"]?.toList.flatMap fun v => v.engine.groups.toList.map fun g =>
    g.2.aggs.map Agg.currentValue) ++
  (e.nodes.reducers["a"]?.toList.flatMap fun r => r.engine.all.map ReducerGroup.state)

/-- The replay of both blocks through the pipeline of `twoBranches`. -/
theorem SettleEngine.replayUnfinalized_eq_rowsOfT :
    letI := noViewStorage
    letI := countingNodes
    ∃ e₀ e' : PipelineEngine, SettleEngine.new twoBranches {} true = .ok e₀ ∧
      e₀.replayUnfinalized rowsOfT 1 9 = .ok e' ∧
      sumAndCount e' = [[.uint64 20], [.uint64 3]] ∧
      ((feedAll (fun nodes table block rows =>
          Nodes.replayTableBlock rowsOfT block none e₀.pipeline nodes
            ((∅ : Nodes.OutputRows).insert table rows))
          (replaySchedule (e₀.storedRows rowsOfT 1 9) (e₀.rawTables.toList.map Prod.fst))
          e₀.nodes).map fun nodes => { e₀ with nodes := nodes }) = .ok e' := by
  let := noViewStorage
  let := countingNodes
  have hok : ((SettleEngine.new (R := PipelineReducer) (V := PipelineView) twoBranches {}
      true).toOption.map fun e₀ =>
        (e₀.rawTables.toList.map fun t => (t.1, t.2.name, t.2.registry.names),
          (e₀.replayUnfinalized rowsOfT 1 9).toOption.map sumAndCount))
      = some ([("t", "t", ["block_number", "x"])], some [[.uint64 20], [.uint64 3]]) := by
    decide +kernel
  cases hnew : SettleEngine.new (R := PipelineReducer) (V := PipelineView) twoBranches {} true with
  | error err =>
    rw [hnew] at hok
    cases hok
  | ok e₀ =>
    rw [hnew] at hok
    obtain ⟨htables, hreplay⟩ := Prod.mk.inj (Option.some.inj hok)
    obtain ⟨e', he', hsum⟩ := Option.map_eq_some_iff.mp hreplay
    have hrun : e₀.replayUnfinalized rowsOfT 1 9 = .ok e' := by
      cases hr : e₀.replayUnfinalized rowsOfT 1 9 with
      | error err =>
        rw [hr] at he'
        cases he'
      | ok e =>
        rw [hr] at he'
        exact congrArg Except.ok (Option.some.inj he')
    have htable : ∀ (table : String) (raw : RawTableEngine), e₀.rawTables[table]? = some raw →
        table = "t" ∧ raw.name = "t" ∧ raw.registry.names = ["block_number", "x"] := by
      intro table raw hraw
      have hmem := List.mem_map_of_mem (f := fun t : String × RawTableEngine =>
        (t.1, t.2.name, t.2.registry.names)) (ExtTreeMap.mem_toList_iff_getElem?_eq_some.mpr hraw)
      rw [htables, List.mem_singleton] at hmem
      simpa using hmem
    refine ⟨e₀, e', rfl, hrun, hsum, ?_⟩
    rw [← SettleEngine.replayUnfinalized_eq e₀ rowsOfT 1 9 ?_, hrun]
    constructor
    · intro table raw hraw
      obtain ⟨rfl, hname, -⟩ := htable table raw hraw
      exact hname
    · intro table raw hraw block data _ _ hdata
      obtain ⟨rfl, -, hregistry⟩ := htable table raw hraw
      have hrows : ∃ row rows, data = .rows (row :: rows) ∧
          row.registry.names = ["block_number", "x"] := by
        rw [rowsOfT] at hdata
        dsimp only at hdata
        grind
      obtain ⟨row, rows, rfl, hrow⟩ := hrows
      rw [decodeRows, hrow, hregistry, if_neg (not_not_intro rfl)]
      exact ⟨_, rfl⟩

end Settle
