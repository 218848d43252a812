import Settle.Engine.Aggregation

/-!
# Aggregates as two-level folds

An aggregate stands for a history: the values that each block fed it, in row order, for
the blocks in block order. Its meaning is a *two-level fold*: the values of each block
are folded into the data of the block, and the data of the blocks into the total.

`Agg.Rep` says that an aggregate represents a history whose older blocks are final.
Every operation of the aggregate is an operation of the history
(`Agg.Rep.addBlock`, `Agg.Rep.removeBlocksAfter`, …), and the value that it shows is
the two-level fold of the whole history (`Agg.Rep.currentValue`).
-/

namespace Settle

open Std

/-! ## The running fold -/

namespace RunningFold

variable {T V : Type} {op : T → V → T}

theorem scan_append (below : T) (newest : Option (BlockNumber × V)) (l : List (BlockNumber × V))
    (e : BlockNumber × V) :
    scan op below newest (l ++ [e])
      = ((newest.toList.map Prod.snd ++ l.map Prod.snd).foldl op below, some e) := by
  induction l generalizing below newest with
  | nil => cases newest <;> simp [scan]
  | cons x xs ih => cases newest <;> simp [scan, ih]

theorem new_nil (seed : T) :
    new op seed ([] : List (BlockNumber × V)) = ⟨seed, none, seed⟩ := rfl

theorem new_append (seed : T) (l : List (BlockNumber × V)) (b : BlockNumber) (v : V) :
    new op seed (l ++ [(b, v)])
      = ⟨(l.map Prod.snd).foldl op seed, some (b, v), op ((l.map Prod.snd).foldl op seed) v⟩ := by
  simp [new, scan_append]

/-- The total is the fold of all blocks. -/
theorem new_total (seed : T) (l : List (BlockNumber × V)) :
    (new op seed l).total = (l.map Prod.snd).foldl op seed := by
  rcases List.eq_nil_or_concat l with rfl | ⟨init, ⟨b, v⟩, rfl⟩
  · rfl
  · rw [List.concat_eq_append, new_append]
    simp

/-- The oldest blocks may as well be part of the seed, as long as one block stays. -/
theorem new_append_left (seed : T) (l₁ l₂ : List (BlockNumber × V)) (h : l₂ ≠ []) :
    new op seed (l₁ ++ l₂) = new op ((l₁.map Prod.snd).foldl op seed) l₂ := by
  rcases List.eq_nil_or_concat l₂ with rfl | ⟨init, ⟨b, v⟩, rfl⟩
  · exact absurd rfl h
  · rw [List.concat_eq_append, ← List.append_assoc, new_append, new_append]
    simp

/-- A write that `wrote` accounts for leaves the fold of the blocks with the write. -/
theorem wrote_new {m : BTreeMap BlockNumber V} {seed : T} {block : BlockNumber} {value : V}
    {r : RunningFold T V} (h : (new op seed m.toList).wrote op block value = some r) :
    r = new op seed (m.insert block value).toList := by
  rcases List.eq_nil_or_concat m.toList with hm | ⟨init, ⟨b, v⟩, hm⟩
  · -- the first block
    have he : m = ∅ := ExtTreeMap.toList_eq_nil_iff.mp hm
    subst he
    rw [OrdMap.toList_insert_of_lt (by simp), hm]
    rw [hm, new_nil, wrote] at h
    cases h
    rfl
  · rw [List.concat_eq_append] at hm
    rw [hm, new_append, wrote] at h
    dsimp only at h
    have hsorted := OrdMap.sorted_toList m
    rw [hm] at hsorted
    have hlast : ∀ e ∈ init, e.1 < b := fun e he =>
      (List.pairwise_append.mp hsorted).2.2 e he _ (List.mem_singleton.mpr rfl)
    split at h
    · cases h
    · next hge =>
      cases h
      by_cases hb : b < block
      · -- a block above all others
        have habove : ∀ b' ∈ m, b' < block := by
          intro b' hb'
          obtain ⟨v', hv'⟩ := OrdMap.exists_getElem?_of_mem hb'
          rw [← ExtTreeMap.mem_toList_iff_getElem?_eq_some, hm, List.mem_append] at hv'
          rcases hv' with hv' | hv'
          · have := hlast _ hv'
            grind
          · have := (Prod.mk.inj (List.mem_singleton.mp hv')).1
            grind
        rw [OrdMap.toList_insert_of_lt habove, hm, new_append]
        simp [hb]
      · -- the newest block again
        have hbb : b = block := by grind
        subst hbb
        have hins : (m.insert b value).toList = init ++ [(b, value)] := by
          refine OrdMap.toList_eq_of_sorted ?_ ?_
          · refine List.pairwise_append.mpr
              ⟨(List.pairwise_append.mp hsorted).1, List.pairwise_singleton _ _, ?_⟩
            intro e he e' he'
            obtain rfl := List.mem_singleton.mp he'
            exact hlast e he
          · intro k w
            have hmem : ∀ w, (k, w) ∈ m.toList ↔ m[k]? = some w := fun w =>
              ExtTreeMap.mem_toList_iff_getElem?_eq_some
            simp only [hm, List.mem_append, List.mem_singleton, Prod.mk.injEq] at hmem
            rw [ExtTreeMap.getElem?_insert]
            simp only [List.mem_append, List.mem_singleton, Prod.mk.injEq]
            by_cases hk : b = k
            · subst hk
              simp only [compare_self, ↓reduceIte, Option.some.injEq, true_and]
              constructor
              · rintro (h | h)
                · exact absurd (hlast _ h) (by simp)
                · exact h.symm
              · exact fun h => Or.inr h.symm
            · have := hmem w
              simp only [Ne.symm hk, false_and, or_false] at this ⊢
              simp [hk, this]
        rw [hins, new_append]
        simp

end RunningFold

/-! ## Moving a block -/

section MoveEntry

variable {V : Type}

theorem moveEntry_source (src into : Blocks V) (block : BlockNumber) :
    (moveEntry src into block).1.toMap = src.toMap.erase block := by
  have h := Blocks.toMap_remove src block
  cases hr : src.remove block with
  | mk value rest =>
    rw [hr] at h
    cases value <;> simpa [moveEntry, hr] using h

theorem moveEntry_into (src into : Blocks V) (block : BlockNumber) :
    (moveEntry src into block).2.toMap
      = into.toMap.alter block fun o => src.toMap[block]?.or o := by
  have h := Blocks.remove_fst src block
  cases hr : src.remove block with
  | mk value rest =>
    rw [hr] at h
    rw [← h]
    ext b v
    cases value <;> simp only [moveEntry, hr] <;> grind [Blocks.toMap_insert]

end MoveEntry

/-! ## Folding aggregates -/

namespace FoldKind

variable {F T V : Type} (k : FoldKind F T V)

/-- The data of a block that was fed `values`, one row at a time. -/
def block (values : List Value) : Option V :=
  values.foldl (fun old v => (k.write old [v]).or old) none

/-- The value of a list of blocks, folded from the start. -/
def fold (blocks : List V) : Value := k.value (blocks.foldl k.op (k.base k.seed))

theorem base_foldl (f : F) (blocks : List V) :
    k.base (blocks.foldl k.merge f) = blocks.foldl k.op (k.base f) := by
  induction blocks generalizing f with
  | nil => rfl
  | cons v vs ih => rw [List.foldl_cons, List.foldl_cons, ih, k.base_merge]

theorem present_foldl {blocks : List V} (h : ∀ v ∈ blocks, k.valid v) :
    k.present (blocks.foldl k.merge k.seed) = !blocks.isEmpty := by
  rcases List.eq_nil_or_concat blocks with rfl | ⟨init, v, rfl⟩
  · exact k.present_seed
  · rw [List.concat_eq_append, List.foldl_append, List.foldl_cons, List.foldl_nil,
      k.present_merge _ _ (h v (by simp))]
    simp

theorem block_append (values : List Value) (v : Value) :
    k.block (values ++ [v]) = (k.write (k.block values) [v]).or (k.block values) := by
  rw [block, List.foldl_append]
  rfl

theorem block_valid (values : List Value) : ∀ d, k.block values = some d → k.valid d := by
  induction values using List.reverseRecOn with
  | nil => simp [block]
  | append_singleton vs v ih =>
    intro d hd
    rw [block_append] at hd
    cases hw : k.write (k.block vs) [v] with
    | none => rw [hw, Option.none_or] at hd; exact ih d hd
    | some d' =>
      rw [hw, Option.some_or] at hd
      cases hd
      exact k.write_valid _ _ _ ih hw

end FoldKind

namespace FoldAgg

variable {F T V : Type} {k : FoldKind F T V} {a : FoldAgg F T V}
  {fin : List V} {unf : BTreeMap BlockNumber V}

/-- `a` holds the final blocks `fin`, merged, and the unfinal blocks `unf`. -/
structure Rep (k : FoldKind F T V) (a : FoldAgg F T V) (fin : List V)
    (unf : BTreeMap BlockNumber V) : Prop where
  finalized : a.finalized = fin.foldl k.merge k.seed
  blocks : a.blocks.toMap = unf
  running : ∀ r, a.running = some r → r = RunningFold.new k.op (k.base a.finalized) unf.toList
  validFin : ∀ v ∈ fin, k.valid v
  validUnf : ∀ (b : BlockNumber) v, unf[b]? = some v → k.valid v

theorem rep_new : (new k).Rep k [] ∅ where
  finalized := rfl
  blocks := rfl
  running := by simp [new]
  validFin := by simp
  validUnf := by simp

/-- Without a running fold, what matters is the finalized part and the blocks. -/
theorem Rep.mk' {f : F} {bs : Blocks V} (hf : f = fin.foldl k.merge k.seed) (hb : bs.toMap = unf)
    (hvf : ∀ v ∈ fin, k.valid v) (hvu : ∀ (b : BlockNumber) v, unf[b]? = some v → k.valid v) :
    Rep k ⟨f, bs, none⟩ fin unf :=
  ⟨hf, hb, by simp, hvf, hvu⟩

theorem Rep.refold (h : a.Rep k fin unf) : (a.refold k).Rep k fin unf := by
  rw [FoldAgg.refold]
  split
  · exact Rep.mk' h.finalized h.blocks h.validFin h.validUnf
  · refine ⟨h.finalized, h.blocks, ?_, h.validFin, h.validUnf⟩
    intro r hr
    cases hr
    rw [Blocks.iter_eq, h.blocks]

/-- The unfinal blocks after `add_block`. -/
def fed (k : FoldKind F T V) (unf : BTreeMap BlockNumber V) (block : BlockNumber)
    (values : List Value) : BTreeMap BlockNumber V :=
  match k.write unf[block]? values with
  | none => unf
  | some v => unf.insert block v

theorem Rep.addBlock (h : a.Rep k fin unf) (block : BlockNumber) (values : List Value) :
    (a.addBlock k block values).Rep k fin (fed k unf block values) := by
  rw [FoldAgg.addBlock, fed, Blocks.get_eq, h.blocks]
  cases hw : k.write unf[block]? values with
  | none => exact h
  | some v =>
    have hvalid : ∀ (b : BlockNumber) w, (unf.insert block v)[b]? = some w → k.valid w := by
      have hv := k.write_valid _ _ _ (fun o ho => h.validUnf block o ho) hw
      intro b w hb
      have := h.validUnf b w
      grind
    have hb : (a.blocks.insert block v).toMap = unf.insert block v := by
      rw [Blocks.toMap_insert, h.blocks]
    dsimp only
    split
    · next r hr =>
      refine ⟨h.finalized, hb, ?_, h.validFin, hvalid⟩
      intro r' hr'
      cases hr'
      cases hrun : a.running with
      | none => rw [hrun] at hr; cases hr
      | some r₀ =>
        rw [hrun, Option.bind_some] at hr
        rw [h.running r₀ hrun] at hr
        exact RunningFold.wrote_new hr
    · -- the cache is rebuilt, whatever it was
      have hrep : Rep k ⟨a.finalized, a.blocks.insert block v, none⟩ fin (unf.insert block v) :=
        Rep.mk' h.finalized hb h.validFin hvalid
      exact hrep.refold

theorem Rep.removeBlocksAfter (h : a.Rep k fin unf) (p : BlockNumber) :
    (a.removeBlocksAfter p).Rep k fin (OrdMap.keep unf (· ≤ p)) := by
  refine Rep.mk' h.finalized ?_ h.validFin ?_
  · rw [Blocks.toMap_removeAbove, h.blocks]
  · intro b v hb
    have := h.validUnf b v
    grind

theorem Rep.moveBlock_source (h : a.Rep k fin unf) (block : BlockNumber) (c : FoldAgg F T V) :
    (a.moveBlock block c).1.Rep k fin (unf.erase block) := by
  refine ⟨h.finalized, ?_, by simp [FoldAgg.moveBlock], h.validFin, ?_⟩
  · show (moveEntry a.blocks c.blocks block).1.toMap = _
    rw [moveEntry_source, h.blocks]
  · intro b v hb
    have := h.validUnf b v
    grind

theorem Rep.moveBlock_into (h : a.Rep k fin unf) {c : FoldAgg F T V} {finC : List V}
    {unfC : BTreeMap BlockNumber V} (hc : c.Rep k finC unfC) (block : BlockNumber) :
    (a.moveBlock block c).2.Rep k finC (unfC.alter block fun o => unf[block]?.or o) := by
  refine ⟨hc.finalized, ?_, by simp [FoldAgg.moveBlock], hc.validFin, ?_⟩
  · show (moveEntry a.blocks c.blocks block).2.toMap = _
    rw [moveEntry_into, h.blocks, hc.blocks]
  · intro b v hb
    have := h.validUnf b v
    have := hc.validUnf b v
    grind

theorem Rep.finalizeUpTo (h : a.Rep k fin unf) (p : BlockNumber) :
    (a.finalizeUpTo k p).Rep k (fin ++ (OrdMap.keep unf (· ≤ p)).toList.map Prod.snd)
      (OrdMap.keep unf (p < ·)) := by
  have hsplit := toList_split_at unf p
  have hfin : (a.finalizeUpTo k p).finalized
      = (fin ++ (OrdMap.keep unf (· ≤ p)).toList.map Prod.snd).foldl k.merge k.seed := by
    rw [List.foldl_append, ← h.finalized, ← h.blocks]
    simp [FoldAgg.finalizeUpTo]
  refine ⟨hfin, ?_, ?_, ?_, ?_⟩
  · simp [FoldAgg.finalizeUpTo, h.blocks]
  · intro r hr
    rw [FoldAgg.finalizeUpTo] at hr
    dsimp only at hr
    split at hr
    · cases hr
    · next hlen =>
      -- draining the oldest blocks into the seed performs the same additions
      have hne : (OrdMap.keep unf (p < ·)).toList ≠ [] := by
        intro hnil
        rw [Blocks.len_eq, Blocks.toMap_drainUpTo, h.blocks, hnil] at hlen
        exact hlen (by simp [RUNNING_FOLD_MIN_BLOCKS])
      rw [h.running r hr, hsplit, RunningFold.new_append_left _ _ _ hne, hfin, List.foldl_append,
        k.base_foldl, ← h.finalized]
  · intro v hv
    rcases List.mem_append.mp hv with hv | hv
    · exact h.validFin v hv
    · obtain ⟨⟨b, w⟩, hw, rfl⟩ := List.mem_map.mp hv
      rw [ExtTreeMap.mem_toList_iff_getElem?_eq_some] at hw
      exact h.validUnf b w (by grind)
  · intro b v hb
    have := h.validUnf b v
    grind

/-- The value shown is the fold of all blocks from the start. -/
theorem Rep.currentValue (h : a.Rep k fin unf) :
    a.currentValue k = k.fold (fin ++ unf.toList.map Prod.snd) := by
  have htotal : ((a.running.map RunningFold.total).getD (a.foldTotal k))
      = (unf.toList.map Prod.snd).foldl k.op (k.base a.finalized) := by
    cases hr : a.running with
    | none => rw [Option.map_none, Option.getD_none, foldTotal, Blocks.values_eq, h.blocks]
    | some r => rw [Option.map_some, Option.getD_some, h.running r hr, RunningFold.new_total]
  rw [FoldAgg.currentValue, htotal, FoldKind.fold, List.foldl_append, h.finalized, k.base_foldl]

theorem Rep.hasData (h : a.Rep k fin unf) :
    a.hasData k = !(fin ++ unf.toList.map Prod.snd).isEmpty := by
  rw [FoldAgg.hasData, h.finalized, k.present_foldl h.validFin, Blocks.isEmpty_eq, h.blocks]
  cases fin <;> cases unf.toList <;> rfl

/-! ### Histories of values -/

/-- `a` holds what `k` folds from the values of the final and of the unfinal blocks. -/
def Holds (k : FoldKind F T V) (a : FoldAgg F T V) (fin : List (List Value))
    (unf : BTreeMap BlockNumber (List Value)) : Prop :=
  a.Rep k (fin.filterMap k.block) (OrdMap.mapEntries unf fun _ => k.block)

end FoldAgg

/-- The history after one more value of `block`. -/
def feed (unf : BTreeMap BlockNumber (List Value)) (block : BlockNumber) (v : Value) :
    BTreeMap BlockNumber (List Value) :=
  unf.insert block (unf[block]?.getD [] ++ [v])

section Histories

variable {V : Type} (f : List Value → Option V) (unf : BTreeMap BlockNumber (List Value))

/-- The data of the blocks after one more value of `block`, when `f` of the values gives
the data of a block. -/
theorem mapEntries_feed (block : BlockNumber) (v : Value) :
    OrdMap.mapEntries (feed unf block v) (fun _ => f)
      = (OrdMap.mapEntries unf fun _ => f).alter block
          fun _ => f (unf[block]?.getD [] ++ [v]) := by
  ext b d
  simp only [feed]
  grind

theorem mapEntries_values :
    (OrdMap.mapEntries unf fun _ => f).toList.map Prod.snd
      = (unf.toList.map Prod.snd).filterMap f := by
  rw [OrdMap.toList_mapEntries, List.map_filterMap, List.filterMap_map]
  congr 1
  ext e
  simp

theorem mapEntries_erase (block : BlockNumber) :
    OrdMap.mapEntries (unf.erase block) (fun _ => f)
      = (OrdMap.mapEntries unf fun _ => f).erase block := by
  ext b d
  grind

theorem getElem?_mapEntries_getD (hnil : f [] = none) (block : BlockNumber) :
    (OrdMap.mapEntries unf fun _ => f)[block]? = f (unf[block]?.getD []) := by
  rw [OrdMap.getElem?_mapEntries]
  cases unf[block]? <;> simp [hnil]

/-- Putting the values of a block back puts its data back. -/
theorem mapEntries_insert_of_not_mem {block : BlockNumber} (h : block ∉ unf) (vs : List Value) :
    OrdMap.mapEntries (unf.insert block vs) (fun _ => f)
      = (OrdMap.mapEntries unf fun _ => f).alter block fun o => (f vs).or o := by
  have hnone : unf[block]? = none := by grind
  ext b d
  grind

end Histories

namespace FoldAgg

variable {F T V : Type} {k : FoldKind F T V} {a : FoldAgg F T V}
  {fin : List (List Value)} {unf : BTreeMap BlockNumber (List Value)}

theorem Holds.addBlock (h : a.Holds k fin unf) (block : BlockNumber) (v : Value) :
    (a.addBlock k block [v]).Holds k fin (feed unf block v) := by
  have hfed : fed k (OrdMap.mapEntries unf fun _ => k.block) block [v]
      = OrdMap.mapEntries (feed unf block v) fun _ => k.block := by
    rw [mapEntries_feed, fed, getElem?_mapEntries_getD k.block unf rfl, k.block_append]
    have hold := getElem?_mapEntries_getD k.block unf rfl block
    cases k.write (k.block (unf[block]?.getD [])) [v] with
    | none => ext b d; grind
    | some d => ext b d; grind
  rw [Holds, ← hfed]
  exact Rep.addBlock h block [v]

theorem Holds.removeBlocksAfter (h : a.Holds k fin unf) (p : BlockNumber) :
    (a.removeBlocksAfter p).Holds k fin (OrdMap.keep unf (· ≤ p)) := by
  rw [Holds, OrdMap.mapEntries_keep]
  exact Rep.removeBlocksAfter h p

theorem Holds.finalizeUpTo (h : a.Holds k fin unf) (p : BlockNumber) :
    (a.finalizeUpTo k p).Holds k (fin ++ (OrdMap.keep unf (· ≤ p)).toList.map Prod.snd)
      (OrdMap.keep unf (p < ·)) := by
  rw [Holds, OrdMap.mapEntries_keep, List.filterMap_append, ← mapEntries_values,
    OrdMap.mapEntries_keep]
  exact Rep.finalizeUpTo h p

theorem Holds.moveBlock_source (h : a.Holds k fin unf) (block : BlockNumber)
    (c : FoldAgg F T V) : (a.moveBlock block c).1.Holds k fin (unf.erase block) := by
  rw [Holds, mapEntries_erase]
  exact Rep.moveBlock_source h block c

theorem Holds.moveBlock_into (h : a.Holds k fin unf) {c : FoldAgg F T V}
    {finC : List (List Value)} {unfC : BTreeMap BlockNumber (List Value)}
    (hc : c.Holds k finC unfC) {block : BlockNumber} {vs : List Value}
    (hvs : unf[block]?.getD [] = vs) (hn : block ∉ unfC) :
    (a.moveBlock block c).2.Holds k finC (unfC.insert block vs) := by
  have := Rep.moveBlock_into h hc block
  rw [getElem?_mapEntries_getD k.block unf rfl, hvs] at this
  rwa [Holds, mapEntries_insert_of_not_mem _ _ hn]

theorem Holds.currentValue (h : a.Holds k fin unf) :
    a.currentValue k = k.fold ((fin ++ unf.toList.map Prod.snd).filterMap k.block) := by
  rw [Rep.currentValue h, mapEntries_values, List.filterMap_append]

theorem Holds.hasData (h : a.Holds k fin unf) :
    a.hasData k = (fin ++ unf.toList.map Prod.snd).any fun vs => (k.block vs).isSome := by
  rw [Rep.hasData h, mapEntries_values, ← List.filterMap_append]
  generalize fin ++ unf.toList.map Prod.snd = l
  induction l with
  | nil => rfl
  | cons vs rest ih => cases hb : k.block vs <;> simp_all

end FoldAgg

/-! ## First and last -/

/-- The first value of a block that is not NULL. -/
def firstBlock (values : List Value) : Option Value := values.find? fun v => !v.isNull

/-- The last value of a block that is not NULL. -/
def lastBlock (values : List Value) : Option Value := values.reverse.find? fun v => !v.isNull

theorem firstBlock_append (values : List Value) (v : Value) :
    firstBlock (values ++ [v]) = (firstBlock values).or (firstBlock [v]) := by
  simp [firstBlock, List.find?_append]

theorem lastBlock_append (values : List Value) (v : Value) :
    lastBlock (values ++ [v]) = (lastBlock [v]).or (lastBlock values) := by
  rw [lastBlock, lastBlock, lastBlock, List.reverse_append, List.find?_append]

private theorem keepFirst_foldl (f : Option Value) (vs : List Value) :
    vs.foldl (fun f v => if f.isNone then some v else f) f = f.or vs.head? := by
  induction vs generalizing f with
  | nil => simp
  | cons v vs ih => rw [List.foldl_cons, ih]; cases f <;> simp

private theorem keepLast_foldl (f : Option Value) (vs : List Value) :
    vs.foldl (fun _ v => some v) f = vs.getLast?.or f := by
  induction vs generalizing f with
  | nil => simp
  | cons v vs ih => rw [List.foldl_cons, ih, List.getLast?_cons]; cases vs.getLast? <;> simp

namespace FirstAgg

variable {a : FirstAgg} {fin : List (List Value)} {unf : BTreeMap BlockNumber (List Value)}

/-- `a` holds the first values of the final and of the unfinal blocks. -/
structure Holds (a : FirstAgg) (fin : List (List Value))
    (unf : BTreeMap BlockNumber (List Value)) : Prop where
  finalized : a.finalized = (fin.filterMap firstBlock).head?
  blocks : a.blocks.toMap = OrdMap.mapEntries unf fun _ => firstBlock

theorem Holds.addBlock (h : a.Holds fin unf) (block : BlockNumber) (v : Value) :
    (a.addBlock block [v]).Holds fin (feed unf block v) := by
  have hold := getElem?_mapEntries_getD firstBlock unf rfl block
  have hget : a.blocks.get block = firstBlock (unf[block]?.getD []) := by
    rw [Blocks.get_eq, h.blocks, hold]
  refine ⟨?_, ?_⟩
  · rw [FirstAgg.addBlock]
    split
    · exact h.finalized
    · split <;> exact h.finalized
  · rw [mapEntries_feed, firstBlock_append, ← h.blocks, FirstAgg.addBlock, hget]
    rw [← h.blocks] at hold
    split
    · next hs => ext b d; grind
    · next hs =>
      have hv : (List.find? (fun v => !v.isNull) [v]) = firstBlock [v] := rfl
      rw [hv]
      split
      · ext b d; rw [Blocks.toMap_insert]; grind
      · ext b d; grind

theorem Holds.finalizeUpTo (h : a.Holds fin unf) (p : BlockNumber) :
    (a.finalizeUpTo p).Holds (fin ++ (OrdMap.keep unf (· ≤ p)).toList.map Prod.snd)
      (OrdMap.keep unf (p < ·)) := by
  refine ⟨?_, ?_⟩
  · show (a.blocks.drainUpTo p).1.foldl _ _ = _
    rw [keepFirst_foldl, Blocks.drainUpTo_fst, h.blocks, ← OrdMap.mapEntries_keep,
      mapEntries_values, h.finalized, List.filterMap_append, List.head?_append]
  · show (a.blocks.drainUpTo p).2.toMap = _
    rw [Blocks.toMap_drainUpTo, h.blocks, OrdMap.mapEntries_keep]

theorem Holds.currentValue (h : a.Holds fin unf) :
    a.currentValue = ((fin ++ unf.toList.map Prod.snd).filterMap firstBlock).head?.getD .null := by
  rw [FirstAgg.currentValue, h.finalized, List.filterMap_append, List.head?_append,
    Blocks.values_eq, h.blocks, mapEntries_values]
  cases (fin.filterMap firstBlock).head? <;> rfl

end FirstAgg

namespace LastAgg

variable {a : LastAgg} {fin : List (List Value)} {unf : BTreeMap BlockNumber (List Value)}

/-- `a` holds the last values of the final and of the unfinal blocks. -/
structure Holds (a : LastAgg) (fin : List (List Value))
    (unf : BTreeMap BlockNumber (List Value)) : Prop where
  finalized : a.finalized = (fin.filterMap lastBlock).getLast?
  blocks : a.blocks.toMap = OrdMap.mapEntries unf fun _ => lastBlock

theorem Holds.addBlock (h : a.Holds fin unf) (block : BlockNumber) (v : Value) :
    (a.addBlock block [v]).Holds fin (feed unf block v) := by
  have hold := getElem?_mapEntries_getD lastBlock unf rfl block
  have hv : (List.find? (fun v => !v.isNull) [v].reverse) = lastBlock [v] := rfl
  refine ⟨?_, ?_⟩
  · rw [LastAgg.addBlock]
    split <;> exact h.finalized
  · rw [mapEntries_feed, lastBlock_append, ← h.blocks, LastAgg.addBlock, hv]
    rw [← h.blocks] at hold
    split
    · ext b d; rw [Blocks.toMap_insert]; grind
    · ext b d; grind

theorem Holds.finalizeUpTo (h : a.Holds fin unf) (p : BlockNumber) :
    (a.finalizeUpTo p).Holds (fin ++ (OrdMap.keep unf (· ≤ p)).toList.map Prod.snd)
      (OrdMap.keep unf (p < ·)) := by
  refine ⟨?_, ?_⟩
  · show (a.blocks.drainUpTo p).1.foldl _ _ = _
    rw [keepLast_foldl, Blocks.drainUpTo_fst, h.blocks, ← OrdMap.mapEntries_keep,
      mapEntries_values, h.finalized, List.filterMap_append, List.getLast?_append]
  · show (a.blocks.drainUpTo p).2.toMap = _
    rw [Blocks.toMap_drainUpTo, h.blocks, OrdMap.mapEntries_keep]

theorem Holds.currentValue (h : a.Holds fin unf) :
    a.currentValue
      = ((fin ++ unf.toList.map Prod.snd).filterMap lastBlock).getLast?.getD .null := by
  have hlast : (a.blocks.iter.getLast?).map Prod.snd
      = ((unf.toList.map Prod.snd).filterMap lastBlock).getLast? := by
    rw [← mapEntries_values, ← h.blocks, ← Blocks.iter_eq, List.getLast?_map]
  rw [LastAgg.currentValue, List.filterMap_append, List.getLast?_append, ← hlast, h.finalized]
  cases a.blocks.iter.getLast? <;> rfl

end LastAgg

/-! ## The trait object -/

namespace AggFunc

/-- The two-level fold: the value of an aggregate that was fed the given values, one list
for each block, in block order. -/
def fold (func : AggFunc) (ct : ColumnType) (blocks : List (List Value)) : Value :=
  let mode := NumMode.fromColumnType ct
  match func with
  | .sum => (sumKind mode).fold (blocks.filterMap (sumKind mode).block)
  | .count => countKind.fold (blocks.filterMap countKind.block)
  | .min => (minKind mode).fold (blocks.filterMap (minKind mode).block)
  | .max => (maxKind mode).fold (blocks.filterMap (maxKind mode).block)
  | .avg => (avgKind mode).fold (blocks.filterMap (avgKind mode).block)
  | .first => (blocks.filterMap firstBlock).head?.getD .null
  | .last => (blocks.filterMap lastBlock).getLast?.getD .null

/-- The data of a block that fed the aggregate `values`; none if they hold nothing for it. -/
def blockData (func : AggFunc) (ct : ColumnType) (values : List Value) : Option BlockData :=
  let mode := NumMode.fromColumnType ct
  match func with
  | .sum => ((sumKind mode).block values).map .num
  | .count => (countKind.block values).map .count
  | .min => ((minKind mode).block values).map .num
  | .max => ((maxKind mode).block values).map .num
  | .avg => ((avgKind mode).block values).map .sumCount
  | .first => (firstBlock values).map .value
  | .last => (lastBlock values).map .value

/-- Whether some block fed the aggregate data. -/
def hasData (func : AggFunc) (ct : ColumnType) (blocks : List (List Value)) : Bool :=
  blocks.any fun vs => (func.blockData ct vs).isSome

theorem blockData_nil (func : AggFunc) (ct : ColumnType) : func.blockData ct [] = none := by
  cases func <;> rfl

end AggFunc

namespace Agg

variable {func : AggFunc} {ct : ColumnType} {a : Agg} {fin : List (List Value)}
  {unf : BTreeMap BlockNumber (List Value)}

/-- `a` is an aggregate of `func` over a column of type `ct` that was fed the values `fin`
of the final blocks and the values `unf` of the unfinal ones. -/
def Rep (func : AggFunc) (ct : ColumnType) (a : Agg) (fin : List (List Value))
    (unf : BTreeMap BlockNumber (List Value)) : Prop :=
  match func, a with
  | .sum, .sum mode f => mode = NumMode.fromColumnType ct ∧ f.Holds (sumKind mode) fin unf
  | .count, .count f => f.Holds countKind fin unf
  | .min, .min mode f => mode = NumMode.fromColumnType ct ∧ f.Holds (minKind mode) fin unf
  | .max, .max mode f => mode = NumMode.fromColumnType ct ∧ f.Holds (maxKind mode) fin unf
  | .avg, .avg mode f => mode = NumMode.fromColumnType ct ∧ f.Holds (avgKind mode) fin unf
  | .first, .first f => f.Holds fin unf
  | .last, .last f => f.Holds fin unf
  | _, _ => False

private theorem holds_new {F T V : Type} (k : FoldKind F T V) :
    (FoldAgg.new k).Holds k [] ∅ := by
  rw [FoldAgg.Holds, OrdMap.mapEntries_empty]
  exact FoldAgg.rep_new

theorem rep_create (func : AggFunc) (ct : ColumnType) : (createAgg func ct).Rep func ct [] ∅ := by
  cases func with
  | sum => exact ⟨rfl, holds_new _⟩
  | count => exact holds_new _
  | min => exact ⟨rfl, holds_new _⟩
  | max => exact ⟨rfl, holds_new _⟩
  | avg => exact ⟨rfl, holds_new _⟩
  | first => exact ⟨rfl, (OrdMap.mapEntries_empty _).symm⟩
  | last => exact ⟨rfl, (OrdMap.mapEntries_empty _).symm⟩

theorem Rep.addBlock (h : a.Rep func ct fin unf) (block : BlockNumber) (v : Value) :
    (a.addBlock block [v]).Rep func ct fin (feed unf block v) := by
  cases func <;> cases a <;> first | exact h.elim | skip
  case sum.sum => exact ⟨h.1, h.2.addBlock block v⟩
  case count.count => exact FoldAgg.Holds.addBlock h block v
  case min.min => exact ⟨h.1, h.2.addBlock block v⟩
  case max.max => exact ⟨h.1, h.2.addBlock block v⟩
  case avg.avg => exact ⟨h.1, h.2.addBlock block v⟩
  case first.first => exact FirstAgg.Holds.addBlock h block v
  case last.last => exact LastAgg.Holds.addBlock h block v

theorem Rep.removeBlocksAfter (h : a.Rep func ct fin unf) (p : BlockNumber) :
    (a.removeBlocksAfter p).Rep func ct fin (OrdMap.keep unf (· ≤ p)) := by
  cases func <;> cases a <;> first | exact h.elim | skip
  case sum.sum => exact ⟨h.1, h.2.removeBlocksAfter p⟩
  case count.count => exact FoldAgg.Holds.removeBlocksAfter h p
  case min.min => exact ⟨h.1, h.2.removeBlocksAfter p⟩
  case max.max => exact ⟨h.1, h.2.removeBlocksAfter p⟩
  case avg.avg => exact ⟨h.1, h.2.removeBlocksAfter p⟩
  case first.first => exact ⟨h.finalized, by rw [Blocks.toMap_removeAbove, h.blocks, OrdMap.mapEntries_keep]⟩
  case last.last => exact ⟨h.finalized, by rw [Blocks.toMap_removeAbove, h.blocks, OrdMap.mapEntries_keep]⟩

theorem Rep.finalizeUpTo (h : a.Rep func ct fin unf) (p : BlockNumber) :
    (a.finalizeUpTo p).Rep func ct (fin ++ (OrdMap.keep unf (· ≤ p)).toList.map Prod.snd)
      (OrdMap.keep unf (p < ·)) := by
  cases func <;> cases a <;> first | exact h.elim | skip
  case sum.sum => exact ⟨h.1, h.2.finalizeUpTo p⟩
  case count.count => exact FoldAgg.Holds.finalizeUpTo h p
  case min.min => exact ⟨h.1, h.2.finalizeUpTo p⟩
  case max.max => exact ⟨h.1, h.2.finalizeUpTo p⟩
  case avg.avg => exact ⟨h.1, h.2.finalizeUpTo p⟩
  case first.first => exact FirstAgg.Holds.finalizeUpTo h p
  case last.last => exact LastAgg.Holds.finalizeUpTo h p

theorem Rep.moveBlock_source {c : Agg} {finC : List (List Value)}
    {unfC : BTreeMap BlockNumber (List Value)} (h : a.Rep func ct fin unf)
    (hc : c.Rep func ct finC unfC) (block : BlockNumber) :
    (a.moveBlock block c).1.Rep func ct fin (unf.erase block) := by
  cases func <;> cases a <;> first | exact h.elim | (cases c <;> first | exact hc.elim | skip)
  case sum.sum.sum => exact ⟨h.1, h.2.moveBlock_source block _⟩
  case count.count.count => exact FoldAgg.Holds.moveBlock_source h block _
  case min.min.min => exact ⟨h.1, h.2.moveBlock_source block _⟩
  case max.max.max => exact ⟨h.1, h.2.moveBlock_source block _⟩
  case avg.avg.avg => exact ⟨h.1, h.2.moveBlock_source block _⟩
  case first.first.first f g =>
    refine ⟨h.finalized, ?_⟩
    show (moveEntry f.blocks g.blocks block).1.toMap = _
    rw [moveEntry_source, h.blocks, mapEntries_erase]
  case last.last.last f g =>
    refine ⟨h.finalized, ?_⟩
    show (moveEntry f.blocks g.blocks block).1.toMap = _
    rw [moveEntry_source, h.blocks, mapEntries_erase]

theorem Rep.moveBlock_into {c : Agg} {finC : List (List Value)}
    {unfC : BTreeMap BlockNumber (List Value)} (h : a.Rep func ct fin unf)
    (hc : c.Rep func ct finC unfC) {block : BlockNumber} {vs : List Value}
    (hvs : unf[block]?.getD [] = vs) (hn : block ∉ unfC) :
    (a.moveBlock block c).2.Rep func ct finC (unfC.insert block vs) := by
  cases func <;> cases a <;> first | exact h.elim | (cases c <;> first | exact hc.elim | skip)
  case sum.sum.sum =>
    obtain ⟨rfl, h⟩ := h
    obtain ⟨rfl, hc⟩ := hc
    exact ⟨rfl, h.moveBlock_into hc hvs hn⟩
  case count.count.count => exact FoldAgg.Holds.moveBlock_into h hc hvs hn
  case min.min.min =>
    obtain ⟨rfl, h⟩ := h
    obtain ⟨rfl, hc⟩ := hc
    exact ⟨rfl, h.moveBlock_into hc hvs hn⟩
  case max.max.max =>
    obtain ⟨rfl, h⟩ := h
    obtain ⟨rfl, hc⟩ := hc
    exact ⟨rfl, h.moveBlock_into hc hvs hn⟩
  case avg.avg.avg =>
    obtain ⟨rfl, h⟩ := h
    obtain ⟨rfl, hc⟩ := hc
    exact ⟨rfl, h.moveBlock_into hc hvs hn⟩
  case first.first.first f g =>
    refine ⟨hc.finalized, ?_⟩
    show (moveEntry f.blocks g.blocks block).2.toMap = _
    rw [moveEntry_into, hc.blocks, h.blocks, getElem?_mapEntries_getD firstBlock unf rfl, hvs,
      mapEntries_insert_of_not_mem _ _ hn]
  case last.last.last f g =>
    refine ⟨hc.finalized, ?_⟩
    show (moveEntry f.blocks g.blocks block).2.toMap = _
    rw [moveEntry_into, hc.blocks, h.blocks, getElem?_mapEntries_getD lastBlock unf rfl, hvs,
      mapEntries_insert_of_not_mem _ _ hn]

/-- **The value shown is the two-level fold of the whole history.** -/
theorem Rep.currentValue (h : a.Rep func ct fin unf) :
    a.currentValue = func.fold ct (fin ++ unf.toList.map Prod.snd) := by
  cases func <;> cases a <;> first | exact h.elim | skip
  case sum.sum => obtain ⟨rfl, h⟩ := h; exact h.currentValue
  case count.count => exact FoldAgg.Holds.currentValue h
  case min.min => obtain ⟨rfl, h⟩ := h; exact h.currentValue
  case max.max => obtain ⟨rfl, h⟩ := h; exact h.currentValue
  case avg.avg => obtain ⟨rfl, h⟩ := h; exact h.currentValue
  case first.first => exact FirstAgg.Holds.currentValue h
  case last.last => exact LastAgg.Holds.currentValue h

private theorem isSome_or_not_isEmpty {V : Type} (f : List Value → Option V) (o : Option V)
    (bs : Blocks V) (ho : o.isSome = !(fin.filterMap f).isEmpty)
    (hb : bs.toMap = OrdMap.mapEntries unf fun _ => f) :
    (o.isSome || !bs.isEmpty) = (fin ++ unf.toList.map Prod.snd).any fun vs => (f vs).isSome := by
  have hval := mapEntries_values f unf
  rw [ho, Blocks.isEmpty_eq, hb]
  have hmap : ∀ l : List (BlockNumber × V), l.isEmpty = (l.map Prod.snd).isEmpty := by simp
  have hany : ∀ l : List (List Value), (!(l.filterMap f).isEmpty) = l.any fun vs => (f vs).isSome := by
    intro l
    induction l with
    | nil => rfl
    | cons vs rest ih => cases hf : f vs <;> simp_all
  rw [hmap, hval, hany, hany, List.any_append]

theorem Rep.hasData (h : a.Rep func ct fin unf) :
    a.hasData = func.hasData ct (fin ++ unf.toList.map Prod.snd) := by
  cases func <;> cases a <;> first | exact h.elim | skip
  case sum.sum =>
    obtain ⟨rfl, h⟩ := h
    simpa [Agg.hasData, AggFunc.hasData, AggFunc.blockData] using h.hasData
  case count.count =>
    simpa [Agg.hasData, AggFunc.hasData, AggFunc.blockData] using FoldAgg.Holds.hasData h
  case min.min =>
    obtain ⟨rfl, h⟩ := h
    simpa [Agg.hasData, AggFunc.hasData, AggFunc.blockData] using h.hasData
  case max.max =>
    obtain ⟨rfl, h⟩ := h
    simpa [Agg.hasData, AggFunc.hasData, AggFunc.blockData] using h.hasData
  case avg.avg =>
    obtain ⟨rfl, h⟩ := h
    simpa [Agg.hasData, AggFunc.hasData, AggFunc.blockData] using h.hasData
  case first.first f =>
    have := isSome_or_not_isEmpty firstBlock f.finalized f.blocks
      (by rw [h.finalized]; cases fin.filterMap firstBlock <;> rfl) h.blocks
    simpa [Agg.hasData, AggFunc.hasData, AggFunc.blockData] using this
  case last.last f =>
    have := isSome_or_not_isEmpty lastBlock f.finalized f.blocks
      (by rw [h.finalized]; cases fin.filterMap lastBlock <;> simp [List.getLast?_cons]) h.blocks
    simpa [Agg.hasData, AggFunc.hasData, AggFunc.blockData] using this

/-! ### Only the data counts -/

private theorem filterMap_congr_data {V : Type} {c : V → BlockData} (hc : Function.Injective c)
    {f : List Value → Option V} {l l' : List (List Value)}
    (h : (l.filterMap fun vs => (f vs).map c) = l'.filterMap fun vs => (f vs).map c) :
    l.filterMap f = l'.filterMap f := by
  have hm : ∀ l : List (List Value), (l.filterMap f).map c = l.filterMap fun vs => (f vs).map c :=
    fun l => List.map_filterMap
  rw [← hm, ← hm] at h
  exact List.map_injective_iff.mpr hc h

private theorem mapEntries_congr_data {V : Type} {c : V → BlockData} (hc : Function.Injective c)
    {f : List Value → Option V} {unf unf' : BTreeMap BlockNumber (List Value)}
    (h : ∀ b : BlockNumber, unf[b]?.bind (fun vs => (f vs).map c)
      = unf'[b]?.bind fun vs => (f vs).map c) :
    (OrdMap.mapEntries unf fun _ => f) = OrdMap.mapEntries unf' fun _ => f := by
  refine ExtTreeMap.ext_getElem? fun b => ?_
  rw [OrdMap.getElem?_mapEntries, OrdMap.getElem?_mapEntries]
  refine Option.map_injective hc ?_
  rw [Option.map_bind, Option.map_bind]
  exact h b

/-- **Only the data counts**: values that hold nothing for the aggregate may come and go. -/
theorem Rep.congr (h : a.Rep func ct fin unf) {fin' : List (List Value)}
    {unf' : BTreeMap BlockNumber (List Value)}
    (hfin : fin.filterMap (func.blockData ct) = fin'.filterMap (func.blockData ct))
    (hunf : ∀ b : BlockNumber, unf[b]?.bind (func.blockData ct) = unf'[b]?.bind (func.blockData ct)) :
    a.Rep func ct fin' unf' := by
  have hnum : Function.Injective BlockData.num := fun _ _ h => BlockData.num.inj h
  have hval : Function.Injective BlockData.value := fun _ _ h => BlockData.value.inj h
  cases func <;> cases a <;> first | exact h.elim | skip
  case sum.sum =>
    obtain ⟨rfl, h⟩ := h
    refine ⟨rfl, ?_⟩
    rw [FoldAgg.Holds] at h ⊢
    rwa [← filterMap_congr_data hnum hfin, ← mapEntries_congr_data hnum hunf]
  case count.count f =>
    have hc : Function.Injective BlockData.count := fun _ _ h => BlockData.count.inj h
    show FoldAgg.Holds _ _ _ _
    have h : f.Holds countKind fin unf := h
    rw [FoldAgg.Holds] at h ⊢
    rwa [← filterMap_congr_data hc hfin, ← mapEntries_congr_data hc hunf]
  case min.min =>
    obtain ⟨rfl, h⟩ := h
    refine ⟨rfl, ?_⟩
    rw [FoldAgg.Holds] at h ⊢
    rwa [← filterMap_congr_data hnum hfin, ← mapEntries_congr_data hnum hunf]
  case max.max =>
    obtain ⟨rfl, h⟩ := h
    refine ⟨rfl, ?_⟩
    rw [FoldAgg.Holds] at h ⊢
    rwa [← filterMap_congr_data hnum hfin, ← mapEntries_congr_data hnum hunf]
  case avg.avg =>
    have hc : Function.Injective BlockData.sumCount := fun _ _ h => BlockData.sumCount.inj h
    obtain ⟨rfl, h⟩ := h
    refine ⟨rfl, ?_⟩
    rw [FoldAgg.Holds] at h ⊢
    rwa [← filterMap_congr_data hc hfin, ← mapEntries_congr_data hc hunf]
  case first.first =>
    exact ⟨by rw [← filterMap_congr_data hval hfin]; exact h.finalized,
      by rw [← mapEntries_congr_data hval hunf]; exact h.blocks⟩
  case last.last =>
    exact ⟨by rw [← filterMap_congr_data hval hfin]; exact h.finalized,
      by rw [← mapEntries_congr_data hval hunf]; exact h.blocks⟩

/-! ### The stored forms -/

private theorem restored_rep {F T V : Type} {k : FoldKind F T V} {f : F}
    (hf : f = (fin.filterMap k.block).foldl k.merge k.seed) :
    (FoldAgg.refold k ⟨f, Blocks.new, none⟩).Holds k fin ∅ := by
  refine FoldAgg.Rep.refold ?_
  rw [OrdMap.mapEntries_empty]
  refine FoldAgg.Rep.mk' hf rfl ?_ (by simp)
  intro v hv
  obtain ⟨vs, _, hvs⟩ := List.mem_filterMap.mp hv
  exact k.block_valid vs v hvs

/-- The finalized part, read back, is the aggregate of the final blocks alone. A count
reads back as fed, so a block must have fed it. -/
theorem Rep.restoreAgg (h : a.Rep func ct fin unf)
    (hcount : func = .count → func.hasData ct fin = true) :
    ∃ a', Settle.restoreAgg func a.writeFinalized = some a' ∧ a'.Rep func ct fin ∅ := by
  cases func <;> cases a <;> first | exact h.elim | skip
  case sum.sum mode f =>
    obtain ⟨rfl, h⟩ := h
    exact ⟨_, rfl, rfl, restored_rep h.finalized⟩
  case count.count f =>
    refine ⟨_, rfl, restored_rep ?_⟩
    have hfin : f.finalized = (fin.filterMap countKind.block).foldl countKind.merge countKind.seed :=
      FoldAgg.Rep.finalized h
    -- the flag is not stored; a block reached the count, so it was set
    have hflag : f.finalized.2 = true := by
      have hp := countKind.present_foldl
        (fun v (_ : v ∈ fin.filterMap countKind.block) => trivial)
      rw [← hfin] at hp
      have hd := hcount rfl
      simp only [AggFunc.hasData, AggFunc.blockData, Option.isSome_map, List.any_eq_true] at hd
      obtain ⟨vs, hvs, hs⟩ := hd
      obtain ⟨d, hd⟩ := Option.isSome_iff_exists.mp hs
      have hmem : d ∈ fin.filterMap countKind.block := List.mem_filterMap.mpr ⟨vs, hvs, hd⟩
      have : (fin.filterMap countKind.block).isEmpty = false := by
        cases hl : fin.filterMap countKind.block with
        | nil => rw [hl] at hmem; cases hmem
        | cons _ _ => rfl
      rw [this] at hp
      exact hp
    rw [← hfin]
    exact Prod.ext rfl hflag.symm
  case min.min mode f =>
    obtain ⟨rfl, h⟩ := h
    exact ⟨_, rfl, rfl, restored_rep h.finalized⟩
  case max.max mode f =>
    obtain ⟨rfl, h⟩ := h
    exact ⟨_, rfl, rfl, restored_rep h.finalized⟩
  case avg.avg mode f =>
    obtain ⟨rfl, h⟩ := h
    exact ⟨_, rfl, rfl, restored_rep h.finalized⟩
  case first.first f => exact ⟨_, rfl, h.finalized, (OrdMap.mapEntries_empty _).symm⟩
  case last.last f => exact ⟨_, rfl, h.finalized, (OrdMap.mapEntries_empty _).symm⟩

theorem Rep.writeBlock (h : a.Rep func ct fin unf) (block : BlockNumber) :
    a.writeBlock block = unf[block]?.bind (func.blockData ct) := by
  cases func <;> cases a <;> first | exact h.elim | skip
  case sum.sum =>
    obtain ⟨rfl, h⟩ := h
    rw [Agg.writeBlock, Blocks.get_eq, FoldAgg.Rep.blocks h, OrdMap.getElem?_mapEntries]
    cases unf[block]? <;> rfl
  case count.count =>
    rw [Agg.writeBlock, Blocks.get_eq, FoldAgg.Rep.blocks h, OrdMap.getElem?_mapEntries]
    cases unf[block]? <;> rfl
  case min.min =>
    obtain ⟨rfl, h⟩ := h
    rw [Agg.writeBlock, Blocks.get_eq, FoldAgg.Rep.blocks h, OrdMap.getElem?_mapEntries]
    cases unf[block]? <;> rfl
  case max.max =>
    obtain ⟨rfl, h⟩ := h
    rw [Agg.writeBlock, Blocks.get_eq, FoldAgg.Rep.blocks h, OrdMap.getElem?_mapEntries]
    cases unf[block]? <;> rfl
  case avg.avg =>
    obtain ⟨rfl, h⟩ := h
    rw [Agg.writeBlock, Blocks.get_eq, FoldAgg.Rep.blocks h, OrdMap.getElem?_mapEntries]
    cases unf[block]? <;> rfl
  case first.first =>
    rw [Agg.writeBlock, Blocks.get_eq, h.blocks, OrdMap.getElem?_mapEntries]
    cases unf[block]? <;> rfl
  case last.last =>
    rw [Agg.writeBlock, Blocks.get_eq, h.blocks, OrdMap.getElem?_mapEntries]
    cases unf[block]? <;> rfl

private theorem mapEntries_insert_data {V : Type} {f : List Value → Option V} {vs : List Value}
    {d : V} (hd : f vs = some d) (block : BlockNumber) :
    (OrdMap.mapEntries unf fun _ => f).insert block d
      = OrdMap.mapEntries (unf.insert block vs) fun _ => f := by
  ext b v
  grind

private theorem read_holds {F T V : Type} {k : FoldKind F T V} {f : FoldAgg F T V}
    (h : f.Holds k fin unf) {vs : List Value} {d : V} (hd : k.block vs = some d)
    (block : BlockNumber) :
    FoldAgg.Holds k { f with blocks := f.blocks.insert block d, running := none } fin
      (unf.insert block vs) := by
  have hb : (f.blocks.insert block d).toMap = OrdMap.mapEntries (unf.insert block vs) fun _ => k.block := by
    rw [Blocks.toMap_insert, FoldAgg.Rep.blocks h, mapEntries_insert_data hd]
  refine FoldAgg.Rep.mk' h.finalized hb h.validFin ?_
  intro b v hbv
  rw [OrdMap.getElem?_mapEntries] at hbv
  obtain ⟨ws, _, hws⟩ := Option.bind_eq_some_iff.mp hbv
  exact k.block_valid ws v hws

/-- The data of a block, read into an aggregate, is the block in its history. -/
theorem Rep.readBlock (h : a.Rep func ct fin unf) {vs : List Value} {d : BlockData}
    (hd : func.blockData ct vs = some d) (block : BlockNumber) :
    ∃ a', a.readBlock block d = some a' ∧ a'.Rep func ct fin (unf.insert block vs) := by
  cases func <;> cases a <;> first | exact h.elim | skip
  case sum.sum =>
    obtain ⟨rfl, h⟩ := h
    obtain ⟨v, hv, rfl⟩ := Option.map_eq_some_iff.mp hd
    exact ⟨_, rfl, rfl, read_holds h hv block⟩
  case count.count =>
    obtain ⟨v, hv, rfl⟩ := Option.map_eq_some_iff.mp hd
    exact ⟨_, rfl, read_holds h hv block⟩
  case min.min =>
    obtain ⟨rfl, h⟩ := h
    obtain ⟨v, hv, rfl⟩ := Option.map_eq_some_iff.mp hd
    exact ⟨_, rfl, rfl, read_holds h hv block⟩
  case max.max =>
    obtain ⟨rfl, h⟩ := h
    obtain ⟨v, hv, rfl⟩ := Option.map_eq_some_iff.mp hd
    exact ⟨_, rfl, rfl, read_holds h hv block⟩
  case avg.avg =>
    obtain ⟨rfl, h⟩ := h
    obtain ⟨v, hv, rfl⟩ := Option.map_eq_some_iff.mp hd
    exact ⟨_, rfl, rfl, read_holds h hv block⟩
  case first.first =>
    obtain ⟨v, hv, rfl⟩ := Option.map_eq_some_iff.mp hd
    exact ⟨_, rfl, h.finalized, by
      rw [Blocks.toMap_insert, h.blocks, mapEntries_insert_data hv]⟩
  case last.last =>
    obtain ⟨v, hv, rfl⟩ := Option.map_eq_some_iff.mp hd
    exact ⟨_, rfl, h.finalized, by
      rw [Blocks.toMap_insert, h.blocks, mapEntries_insert_data hv]⟩

end Agg

end Settle
