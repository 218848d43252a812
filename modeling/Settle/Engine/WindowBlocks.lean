import Settle.Engine.Window

/-!
# Blocks that enter and leave a window

A sliding view keeps every block of its window apart, so its engine is a `ViewRep` of the
window with no final part. A block leaves the window into a stash of its own
(`ViewRep.expireBlock`), and enters it again from that stash
(`ViewRep.restoreExpiredBlock`) or from its stored record (`ViewRep.readWindowRecord`).
Each moves the data of the block and nothing else.
-/

namespace Settle

open Std

variable {R : Type} [SourceRow R] {v : MVShape}

/-! ## Chains and their columns -/

omit [SourceRow R] in
@[simp] theorem Chain.minus_empty (A : Chain R) : A.minus ∅ = A := by
  ext b rows
  grind

theorem MVShape.column_insert (key : GroupKey) (f : AggFeed) (W : Chain R) (b : BlockNumber)
    (rows : List R) :
    v.column key f (W.insert b rows) = (v.column key f W).insert b (v.valuesOf key f rows) := by
  refine ExtTreeMap.ext_getElem? fun b' => ?_
  simp only [MVShape.getElem?_column, ExtTreeMap.getElem?_insert]
  split <;> rfl

theorem MVShape.column_erase (key : GroupKey) (f : AggFeed) (W : Chain R) (b : BlockNumber) :
    v.column key f (W.erase b) = (v.column key f W).erase b := by
  refine ExtTreeMap.ext_getElem? fun b' => ?_
  simp only [MVShape.getElem?_column, ExtTreeMap.getElem?_erase]
  split <;> rfl

theorem MVShape.getElem?_data_insert (key : GroupKey) (f : AggFeed) (W : Chain R)
    (b : BlockNumber) (rows : List R) (b' : BlockNumber) :
    (v.data key f (W.insert b rows))[b']?
      = if b = b' then f.func.blockData f.columnType (v.valuesOf key f rows)
        else (v.data key f W)[b']? := by
  rw [MVShape.getElem?_data, MVShape.getElem?_data, ExtTreeMap.getElem?_insert]
  by_cases h : b = b' <;> simp [h]

theorem MVShape.getElem?_data_erase (key : GroupKey) (f : AggFeed) (W : Chain R)
    (b b' : BlockNumber) :
    (v.data key f (W.erase b))[b']? = if b = b' then none else (v.data key f W)[b']? := by
  rw [MVShape.getElem?_data, MVShape.getElem?_data, ExtTreeMap.getElem?_erase]
  by_cases h : b = b' <;> simp [h]

/-! ## The aggregates of a group -/

/-- Move the data of a block out of the aggregates of a group, into fresh ones. -/
def MVShape.moveOut (v : MVShape) (b : BlockNumber) (aggs : List Agg) : List (Agg × Agg) :=
  aggs.zipWith (fun agg into => agg.moveBlock b into) v.createAggVec

section Lists

variable {α β γ : Type}

private theorem forall₂_zipWith_map {P Q : α → β → Prop} {g : α → α → γ} {proj : γ → α}
    {create : β → α} (h : ∀ a f, P a f → Q (proj (g a (create f))) f) {l₁ : List α} {l₂ : List β}
    (hl : List.Forall₂ P l₁ l₂) :
    List.Forall₂ Q ((List.zipWith g l₁ (l₂.map create)).map proj) l₂ := by
  induction hl with
  | nil => exact .nil
  | cons hp _ ih => exact .cons (h _ _ hp) ih

private theorem forall₂_zipWith_both {P P' Q : α → β → Prop} {g : α → α → α}
    (h : ∀ a a' f, P a f → P' a' f → Q (g a a') f) {l₁ l₁' : List α} {l₂ : List β}
    (hl : List.Forall₂ P l₁ l₂) (hl' : List.Forall₂ P' l₁' l₂) :
    List.Forall₂ Q (List.zipWith g l₁ l₁') l₂ := by
  induction hl generalizing l₁' with
  | nil => cases hl'; exact .nil
  | cons hp _ ih =>
    cases hl' with
    | cons hp' hl' => exact .cons (h _ _ _ hp hp') (ih hl')

private theorem forall₂_mapM {P Q : α → β → Prop} {g : α × γ → Option α} {d : β → γ}
    (h : ∀ a f, P a f → ∃ a', g (a, d f) = some a' ∧ Q a' f) {l₁ : List α} {l₂ : List β}
    (hl : List.Forall₂ P l₁ l₂) :
    ∃ l, (l₁.zip (l₂.map d)).mapM g = some l ∧ List.Forall₂ Q l l₂ := by
  induction hl with
  | nil => exact ⟨[], rfl, .nil⟩
  | cons hp _ ih =>
    obtain ⟨a', ha, hq⟩ := h _ _ hp
    obtain ⟨as', has, hqs⟩ := ih
    refine ⟨a' :: as', ?_, .cons hq hqs⟩
    rw [List.map_cons, List.zip_cons_cons, List.mapM_cons, ha, has]
    rfl

end Lists

/-- One block, apart. -/
def Chain.single (b : BlockNumber) (rows : List R) : Chain R := (∅ : Chain R).insert b rows

/-- The data that the rows of a block hold for the group `key`, per aggregate. -/
def MVShape.blockData (v : MVShape) (key : GroupKey) (rows : List R) : List (Option BlockData) :=
  v.feeds.map fun f => f.func.blockData f.columnType (v.valuesOf key f rows)

/-- The rows of a block hold no data of the group. -/
def MVShape.NoBlockData (v : MVShape) (key : GroupKey) (rows : List R) : Prop :=
  ∀ f ∈ v.feeds, f.func.blockData f.columnType (v.valuesOf key f rows) = none

section Groups

variable {aggs data : List Agg} {key : GroupKey} {W : Chain R} {b : BlockNumber} {rows : List R}

/-- Moving a block out of the aggregates of a group leaves the others … -/
theorem GroupRep.moveOut (h : GroupRep v aggs key ∅ W) (b : BlockNumber) :
    GroupRep v ((v.moveOut b aggs).map Prod.fst) key ∅ (W.erase b) := by
  refine forall₂_zipWith_map ?_ h
  intro a f ha
  rw [MVShape.column_erase]
  exact ha.moveBlock_source (Agg.rep_create _ _) b

/-- … and gives aggregates of that block alone. -/
theorem GroupRep.movedOut (h : GroupRep v aggs key ∅ W) (hb : W[b]? = some rows) :
    GroupRep v ((v.moveOut b aggs).map Prod.snd) key ∅ (Chain.single b rows) := by
  refine forall₂_zipWith_map ?_ h
  intro a f ha
  rw [Chain.single, MVShape.column_insert]
  have hempty : v.column key f (∅ : Chain R) = ∅ := OrdMap.mapEntries_empty _
  have hlist : v.columnList key f (∅ : Chain R) = [] := by simp [MVShape.columnList]
  rw [hempty, hlist]
  refine ha.moveBlock_into (Agg.rep_create _ _) ?_ (by simp)
  rw [MVShape.getElem?_column, hb]
  rfl

theorem GroupRep.moveIn (hd : GroupRep v data key ∅ (Chain.single b rows))
    (h : GroupRep v aggs key ∅ W) (hb : b ∉ W) :
    GroupRep v (data.zipWith (fun src agg => (src.moveBlock b agg).2) aggs) key ∅
      (W.insert b rows) := by
  refine forall₂_zipWith_both ?_ hd h
  intro src agg f hsrc hagg
  rw [MVShape.column_insert]
  refine hsrc.moveBlock_into hagg ?_ ?_
  · rw [Chain.single, MVShape.getElem?_column]
    simp
  · rw [ExtTreeMap.mem_iff_isSome_getElem?, MVShape.getElem?_column]
    have : W[b]? = none := by grind
    simp [this]

/-- The data of one block is what a group of nothing else holds of it. -/
theorem GroupRep.moveIn_new (hd : GroupRep v data key ∅ (Chain.single b rows))
    (hno : v.NoData key W) : GroupRep v data key ∅ (W.insert b rows) := by
  refine hd.congr (fun _ _ => rfl) ?_
  intro f hf
  refine ExtTreeMap.ext_getElem? fun b' => ?_
  rw [Chain.single, MVShape.getElem?_data_insert, MVShape.getElem?_data_insert, hno f hf,
    MVShape.data, OrdMap.mapEntries_empty]

/-- Reading the stored data of a block puts the block in. -/
theorem GroupRep.readIn (h : GroupRep v aggs key ∅ W) (hb : b ∉ W) (rows : List R) :
    ∃ aggs', (aggs.zip (v.blockData key rows)).mapM (MVEngine.readEntry b) = some aggs' ∧
      GroupRep v aggs' key ∅ (W.insert b rows) := by
  refine forall₂_mapM ?_ h
  intro a f ha
  rw [MVShape.column_insert]
  cases hd : f.func.blockData f.columnType (v.valuesOf key f rows) with
  | some d => exact ha.readBlock hd b
  | none =>
    refine ⟨a, rfl, ha.congr rfl ?_⟩
    intro b'
    rw [ExtTreeMap.getElem?_insert]
    by_cases hbb : b = b'
    · subst hbb
      have hnone : W[b]? = none := by grind
      simp [MVShape.getElem?_column, hnone, hd]
    · simp [hbb]

/-- What the aggregates of a group write of a block is the data of its rows. -/
theorem GroupRep.writeBlock (h : GroupRep v aggs key ∅ W) (hb : W[b]? = some rows) :
    aggs.map (·.writeBlock b) = v.blockData key rows := by
  refine map_eq_map_of_forall₂ (h.imp ?_)
  intro a f ha
  rw [ha.writeBlock, MVShape.getElem?_column, hb]
  rfl

end Groups

/-! ## Views -/

section ViewRep

variable {st : MvReads} {m m' : MVEngine} {W : Chain R}

/-- A block enters the window: `K` are the groups that get data of it. -/
theorem ViewRep.insertBlock (h : ViewRep v st m W ∅ ∅) {b : BlockNumber} {rows : List R}
    (hb : b ∉ W) {K : GroupKey → Prop}
    (hin : ∀ key, K key → ∃ g, m'.groups[key]? = some g ∧
      GroupRep v g.aggs key ∅ (W.insert b rows))
    (hout : ∀ key, ¬ K key → m'.groups[key]? = m.groups[key]?)
    (hrow : ∀ key, K key → ∃ r ∈ rows, v.computeGroupKey r = key)
    (hdata : ∀ key, ¬ K key → v.NoBlockData key rows)
    (hbg : ∀ (b' : BlockNumber) key, key ∈ m'.blockGroups[b']?.getD ∅ ↔
      (b' = b ∧ K key) ∨ key ∈ m.blockGroups[b']?.getD ∅)
    (hs : m'.readsStorage = m.readsStorage) : ViewRep v st m' (W.insert b rows) ∅ ∅ := by
  have hnone : W[b]? = none := by grind
  have hsame : ∀ key, ¬ K key → ∀ f ∈ v.feeds,
      v.data key f (W.insert b rows) = v.data key f W := by
    intro key hk f hf
    refine ExtTreeMap.ext_getElem? fun b' => ?_
    rw [MVShape.getElem?_data_insert]
    split
    · next hbb =>
      subst hbb
      rw [hdata key hk f hf, MVShape.getElem?_data, hnone]
      rfl
    · rfl
  refine ⟨⟨by simp, by simp⟩, by simp, ?_, ?_, ?_, ?_, ?_⟩
  · intro key g hg
    rw [Chain.minus_empty]
    by_cases hk : K key
    · obtain ⟨g', hg', hrep⟩ := hin key hk
      rw [hg', Option.some.injEq] at hg
      subst hg
      exact hrep
    · rw [hout key hk] at hg
      have := h.groups key g hg
      rw [Chain.minus_empty] at this
      exact this.congr (fun _ _ => rfl) fun f hf => (hsame key hk f hf).symm
  · intro key hg f hf
    by_cases hk : K key
    · obtain ⟨g', hg', -⟩ := hin key hk
      rw [hg'] at hg
      cases hg
    · rw [hout key hk] at hg
      rw [hsame key hk f hf]
      exact h.absent key hg f hf
  · intro b' key hk
    rw [Chain.minus_empty, ExtTreeMap.getElem?_insert]
    rcases (hbg b' key).mp hk with ⟨rfl, hk⟩ | hk
    · simpa using hrow key hk
    · have hr := h.tracked b' key hk
      rw [Chain.minus_empty] at hr
      by_cases hbb : b = b'
      · subst hbb
        simp [hnone] at hr
      · simpa [hbb] using hr
  · intro b' key hk f hf
    have hk' := mt (hbg b' key).mpr hk
    rw [Chain.minus_empty, MVShape.getElem?_data_insert]
    split
    · next hbb => exact hdata key (fun hK => hk' (Or.inl ⟨hbb.symm, hK⟩)) f hf
    · have := h.tracks b' key (fun hm => hk' (Or.inr hm)) f hf
      rwa [Chain.minus_empty] at this
  · intro key found hl
    refine h.stored key found ?_
    rw [MVEngine.loadGroup, ← hs]
    exact hl

/-- A block leaves the window. -/
theorem ViewRep.eraseBlock (h : ViewRep v st m W ∅ ∅) {b : BlockNumber}
    (hg : ∀ key g, m'.groups[key]? = some g → GroupRep v g.aggs key ∅ (W.erase b))
    (hnone : ∀ key : GroupKey, m'.groups[key]? = none → m.groups[key]? = none)
    (hbg : m'.blockGroups = m.blockGroups.erase b)
    (hs : m'.readsStorage = m.readsStorage) : ViewRep v st m' (W.erase b) ∅ ∅ := by
  refine ⟨⟨by simp, by simp⟩, by simp, ?_, ?_, ?_, ?_, ?_⟩
  · intro key g hg'
    rw [Chain.minus_empty]
    exact hg key g hg'
  · intro key hg' f hf
    have habs := h.absent key (hnone key hg') f hf
    refine ExtTreeMap.ext_getElem? fun b' => ?_
    rw [MVShape.getElem?_data_erase, habs]
    split
    · simp [MVShape.getElem?_data]
    · rfl
  · intro b' key
    rw [hbg, Chain.minus_empty, ExtTreeMap.getElem?_erase, ExtTreeMap.getElem?_erase]
    by_cases hbb : b = b'
    · simp [hbb]
    · have := h.tracked b' key
      rw [Chain.minus_empty] at this
      simpa [hbb] using this
  · intro b' key hk f hf
    rw [hbg, ExtTreeMap.getElem?_erase] at hk
    rw [Chain.minus_empty, MVShape.getElem?_data_erase]
    split
    · rfl
    · next hbb =>
      simp only [Std.compare_eq_iff_eq, hbb, ↓reduceIte] at hk
      have := h.tracks b' key hk f hf
      rwa [Chain.minus_empty] at this
  · intro key found hl
    refine h.stored key found ?_
    rw [MVEngine.loadGroup, ← hs]
    exact hl

/-! ### Expiry -/

namespace MVEngine

/-- What the groups of `keys` in memory hold of a block. -/
def stashOf (v : MVShape) (b : BlockNumber) (m : MVEngine) (keys : List GroupKey) :
    List (GroupKey × List Agg) :=
  keys.filterMap fun key => m.groups[key]?.map fun g => (key, (v.moveOut b g.aggs).map Prod.snd)

/-- The loop of `expire_old_blocks` over the groups of a block: each group in memory gives
its data of the block. -/
theorem foldl_expireGroup (b : BlockNumber) {keys : List GroupKey} (hnd : keys.Nodup)
    (m : MVEngine) (t : Touched) (acc : List (GroupKey × List Agg)) :
    ∃ m' t', keys.foldl (fun s key => expireGroup v b key s) ((m, t), acc)
        = ((m', t'), acc ++ stashOf v b m keys) ∧
      m' = { m with groups := m'.groups } ∧
      ∀ key, m'.groups[key]? = if key ∈ keys
        then m.groups[key]?.map fun g => { g with aggs := (v.moveOut b g.aggs).map Prod.fst }
        else m.groups[key]? := by
  induction keys generalizing m t acc with
  | nil => exact ⟨m, t, by simp [stashOf], rfl, by simp⟩
  | cons k ks ih =>
    obtain ⟨hk, hks⟩ := List.nodup_cons.mp hnd
    rw [List.foldl_cons, expireGroup]
    cases hg : m.groups[k]? with
    | none =>
      obtain ⟨m', t', heq, hm', hgroups⟩ := ih hks m (snapshot m t k) acc
      refine ⟨m', t', ?_, hm', ?_⟩
      · rw [stashOf, List.filterMap_cons_none (by simp [hg])]
        exact heq
      · intro key
        rw [hgroups]
        by_cases hkk : key = k
        · subst hkk; simp [hg]
        · simp [hkk]
    | some g =>
      obtain ⟨m', t', heq, hm', hgroups⟩ := ih hks
        { m with groups := m.groups.insert k { g with aggs := (v.moveOut b g.aggs).map Prod.fst } }
        (snapshot m t k) (acc ++ [(k, (v.moveOut b g.aggs).map Prod.snd)])
      refine ⟨m', t', ?_, hm', ?_⟩
      · -- the groups of the other keys are as before
        have hother : stashOf v b { m with
              groups := m.groups.insert k { g with aggs := (v.moveOut b g.aggs).map Prod.fst } } ks
            = stashOf v b m ks := by
          refine List.filterMap_congr ?_
          intro key hkey
          have hne : k ≠ key := by rintro rfl; exact hk hkey
          simp [ExtTreeMap.getElem?_insert, hne]
        rw [hother, List.append_assoc] at heq
        rw [stashOf, List.filterMap_cons_some (by rw [hg]; rfl)]
        exact heq
      · intro key
        rw [hgroups]
        by_cases hkk : k = key
        · subst hkk; simp [hk, hg]
        · have hne : ¬ key = k := Ne.symm hkk
          simp [ExtTreeMap.getElem?_insert, hkk, hne]

/-- The groups of `keys` that are in memory. -/
theorem filterMap_groups_keys {β : Type} (m : MVEngine) (F : Group → β) (keys : List GroupKey) :
    (keys.filterMap fun key => m.groups[key]?.map fun g => (key, F g)).map Prod.fst
      = keys.filter fun key => m.groups[key]?.isSome := by
  induction keys with
  | nil => rfl
  | cons k ks ih =>
    cases hg : m.groups[k]? with
    | none =>
      rw [List.filterMap_cons_none (by simp [hg]), List.filter_cons_of_neg (by simp [hg]), ih]
    | some g =>
      rw [List.filterMap_cons_some (by rw [hg]; rfl), List.filter_cons_of_pos (by rw [hg]; rfl),
        List.map_cons, ih]

end MVEngine

/-- A block has no data of a group that it is not tracked for or that is not in memory. -/
theorem ViewRep.noBlockData (h : ViewRep v st m W ∅ ∅) {b : BlockNumber} {rows : List R}
    (hb : W[b]? = some rows) {key : GroupKey}
    (hk : key ∉ (m.blockGroups[b]?.getD ∅).toList.filter fun key => m.groups[key]?.isSome) :
    v.NoBlockData key rows := by
  intro f hf
  rw [List.mem_filter, ExtTreeSet.mem_toList] at hk
  have hdata : (v.data key f W)[b]? = none := by
    by_cases hkb : key ∈ m.blockGroups[b]?.getD ∅
    · have hg : m.groups[key]? = none := by
        by_contra hne
        exact hk ⟨hkb, by simpa [Option.isSome_iff_ne_none] using hne⟩
      rw [h.absent key hg f hf]
      simp [MVShape.getElem?_data]
    · have := h.tracks b key hkb f hf
      rwa [Chain.minus_empty] at this
  rw [MVShape.getElem?_data, hb] at hdata
  exact hdata

/-- The stash of a block that left the window: the groups it had data of, with aggregates
that hold the block and nothing else. -/
structure StashRep (v : MVShape) (x : ExpiredBlock) (rows : List R) : Prop where
  sorted : (x.groups.map Prod.fst).Pairwise fun a b => compare a b = .lt
  groups : ∀ e ∈ x.groups, GroupRep v e.2 e.1 ∅ (Chain.single x.block rows)
  tracked : ∀ key ∈ x.groups.map Prod.fst, ∃ r ∈ rows, v.computeGroupKey r = key
  data : ∀ key, key ∉ x.groups.map Prod.fst → v.NoBlockData key rows

/-- **A block that expires** leaves the window for the stash of the block that expired it. -/
theorem ViewRep.expireBlock (h : ViewRep v st m W ∅ ∅) {b : BlockNumber} {rows : List R}
    (hb : W[b]? = some rows) (expiredBy : BlockNumber) (ts : Int64) (t : Touched) :
    ∃ m' t' x, MVEngine.expireBlock v expiredBy (m, t) (b, ts) = (m', t') ∧
      ViewRep v st m' (W.erase b) ∅ ∅ ∧
      m' = { m with
        groups := m'.groups, blockGroups := m'.blockGroups
        expired := m.expired.alter expiredBy fun es => some (es.getD [] ++ [x]) } ∧
      x.block = b ∧ x.ts = ts ∧ StashRep v x rows := by
  have hmem : ∀ key, key ∈ (m.blockGroups[b]?.getD ∅).toList ↔ key ∈ m.blockGroups[b]?.getD ∅ :=
    fun key => ExtTreeSet.mem_toList
  obtain ⟨m₁, t₁, heq, hm₁, hgroups⟩ := MVEngine.foldl_expireGroup (v := v) b
    (OrdMap.nodup_toList (m.blockGroups[b]?.getD ∅))
    { m with blockGroups := m.blockGroups.erase b } t []
  rw [List.nil_append] at heq
  refine ⟨{ m₁ with expired := m₁.expired.alter expiredBy fun es => some (es.getD [] ++
      [⟨b, ts, MVEngine.stashOf v b m (m.blockGroups[b]?.getD ∅).toList⟩]) }, t₁,
    ⟨b, ts, MVEngine.stashOf v b m (m.blockGroups[b]?.getD ∅).toList⟩, ?_, ?_, ?_, rfl, rfl, ?_⟩
  · unfold MVEngine.expireBlock
    dsimp only
    rw [heq]
    rfl
  · refine h.eraseBlock ?_ ?_ (by rw [hm₁]) (by rw [hm₁])
    · intro key g hg
      rw [hgroups] at hg
      split at hg
      · obtain ⟨g₀, hg₀, rfl⟩ := Option.map_eq_some_iff.mp hg
        have := h.groups key g₀ hg₀
        rw [Chain.minus_empty] at this
        exact this.moveOut b
      · next hk =>
        -- the block has no data of a group that it is not tracked for
        have := h.groups key g hg
        rw [Chain.minus_empty] at this
        refine this.congr (fun _ _ => rfl) ?_
        intro f hf
        have hno := h.tracks b key (fun hm => hk ((hmem key).mpr hm)) f hf
        rw [Chain.minus_empty] at hno
        refine ExtTreeMap.ext_getElem? fun b' => ?_
        rw [MVShape.getElem?_data_erase]
        split
        · next hbb => subst hbb; exact hno
        · rfl
    · intro key hg
      rw [hgroups] at hg
      split at hg
      · exact Option.map_eq_none_iff.mp hg
      · exact hg
  · rw [hm₁]
  · refine ⟨?_, ?_, ?_, ?_⟩
    · rw [MVEngine.stashOf, MVEngine.filterMap_groups_keys]
      exact ExtTreeSet.ordered_toList.filter _
    · intro e he
      obtain ⟨key, hkey, he⟩ := List.mem_filterMap.mp he
      obtain ⟨g, hg, rfl⟩ := Option.map_eq_some_iff.mp he
      have := h.groups key g hg
      rw [Chain.minus_empty] at this
      exact this.movedOut hb
    · intro key hkey
      rw [MVEngine.stashOf, MVEngine.filterMap_groups_keys, List.mem_filter] at hkey
      have := h.tracked b key ((hmem key).mp hkey.1)
      rw [Chain.minus_empty, hb] at this
      exact this
    · intro key hkey
      rw [MVEngine.stashOf, MVEngine.filterMap_groups_keys] at hkey
      exact h.noBlockData hb hkey

/-! ### Restoring an expired block -/

namespace MVEngine

/-- The group `key` with the data of a block put back. -/
def restored (b : BlockNumber) (old : Option Group) (data : List Agg) : Group :=
  match old with
  | some group =>
    { group with aggs := data.zipWith (fun src agg => (src.moveBlock b agg).2) group.aggs }
  | none => Group.new data

/-- The loop of `restore_expired` over the groups of a block. -/
theorem foldl_restoreGroupBlock (b : BlockNumber) {entries : List (GroupKey × List Agg)}
    (hnd : (entries.map Prod.fst).Nodup) (m : MVEngine) (t : Touched) :
    ∃ m' t', entries.foldl (restoreGroupBlock b) (m, t) = (m', t') ∧
      m' = { m with groups := m'.groups, blockGroups := m'.blockGroups } ∧
      (∀ e ∈ entries, m'.groups[e.1]? = some (restored b m.groups[e.1]? e.2)) ∧
      (∀ key, key ∉ entries.map Prod.fst → m'.groups[key]? = m.groups[key]?) ∧
      ∀ (b' : BlockNumber) key, key ∈ m'.blockGroups[b']?.getD ∅ ↔
        (b' = b ∧ key ∈ entries.map Prod.fst) ∨ key ∈ m.blockGroups[b']?.getD ∅ := by
  induction entries generalizing m t with
  | nil => exact ⟨m, t, rfl, rfl, by simp, by simp, by simp⟩
  | cons e es ih =>
    obtain ⟨hk, hes⟩ := List.nodup_cons.mp (List.map_cons ▸ hnd)
    obtain ⟨m', t', heq, hm', hin, hout, hbg⟩ := ih hes
      { m with
        groups := m.groups.insert e.1 (restored b m.groups[e.1]? e.2)
        blockGroups := m.blockGroups.alter b fun keys => some ((keys.getD ∅).insert e.1) }
      (snapshot m t e.1)
    refine ⟨m', t', ?_, ?_, ?_, ?_, ?_⟩
    · rw [List.foldl_cons, ← heq, restoreGroupBlock]
      cases m.groups[e.1]? <;> rfl
    · rw [hm']
    · intro e' he'
      rcases List.mem_cons.mp he' with rfl | he'
      · rw [hout e'.1 hk]
        simp
      · have hne : e.1 ≠ e'.1 := by
          intro heq
          exact hk (heq ▸ List.mem_map_of_mem he')
        rw [hin e' he']
        simp [ExtTreeMap.getElem?_insert, hne]
    · intro key hkey
      rw [List.map_cons, List.mem_cons, not_or] at hkey
      rw [hout key hkey.2]
      simp [ExtTreeMap.getElem?_insert, Ne.symm hkey.1]
    · intro b' key
      rw [hbg b' key, ExtTreeMap.getElem?_alter, List.map_cons, List.mem_cons]
      by_cases hbb : b = b'
      · subst hbb
        simp only [true_and, compare_self, ↓reduceIte, Option.getD_some, ExtTreeSet.mem_insert,
          Std.compare_eq_iff_eq]
        constructor
        · rintro (h | rfl | h)
          · exact Or.inl (Or.inr h)
          · exact Or.inl (Or.inl rfl)
          · exact Or.inr h
        · rintro ((rfl | h) | h)
          · exact Or.inr (Or.inl rfl)
          · exact Or.inl h
          · exact Or.inr (Or.inr h)
      · have hne : ¬ b' = b := Ne.symm hbb
        simp [hbb, hne]

end MVEngine

/-- **A block that comes back** from its stash is in the window again. -/
theorem ViewRep.restoreExpiredBlock (h : ViewRep v st m W ∅ ∅) {x : ExpiredBlock} {rows : List R}
    (hx : StashRep v x rows) (hb : x.block ∉ W) {p : BlockNumber} (hp : x.block ≤ p) (t : Touched) :
    ∃ m' t', MVEngine.restoreExpiredBlock p (m, t) x = (m', t') ∧
      ViewRep v st m' (W.insert x.block rows) ∅ ∅ ∧
      m' = { m with
        groups := m'.groups, blockGroups := m'.blockGroups
        blockTimes := m.blockTimes.insert x.block x.ts } := by
  have hnd : (x.groups.map Prod.fst).Nodup := hx.sorted.imp fun {a b} hab heq => by
    subst heq
    simp at hab
  obtain ⟨m', t', heq, hm', hin, hout, hbg⟩ := MVEngine.foldl_restoreGroupBlock x.block hnd
    { m with blockTimes := m.blockTimes.insert x.block x.ts } t
  have hlt : ¬ p < x.block := by grind
  refine ⟨m', t', ?_, ?_, hm'⟩
  · rw [MVEngine.restoreExpiredBlock, if_neg hlt]
    exact heq
  · refine h.insertBlock hb (K := fun key => key ∈ x.groups.map Prod.fst) ?_ hout hx.tracked hx.data
      hbg (by rw [hm'])
    intro key hkey
    obtain ⟨e, he, rfl⟩ := List.mem_map.mp hkey
    refine ⟨_, hin e he, ?_⟩
    have hdata := hx.groups e he
    dsimp only
    cases hg : m.groups[e.1]? with
    | some g =>
      have hrep := h.groups e.1 g hg
      rw [Chain.minus_empty] at hrep
      exact hdata.moveIn hrep hb
    | none =>
      refine hdata.moveIn_new ?_
      intro f hf
      rw [h.absent e.1 hg f hf]
      exact OrdMap.mapEntries_empty _

/-! ### The record of a block -/

/-- The groups that the rows of a block hold data of, in key order. -/
def MVShape.dataKeys (v : MVShape) (rows : List R) : List GroupKey :=
  ((rows.map v.computeGroupKey).foldl (fun (s : FxHashSet GroupKey) key => s.insert key) ∅).toList.filter
    fun key => (v.blockData key rows).any Option.isSome

/-- **The record of a block, from its rows**: its time and the data of each group that has
data in it. -/
def MVShape.recordOf (v : MVShape) (ts : Int64) (rows : List R) : WindowRecord where
  ts := ts
  groups := (v.dataKeys rows).map fun key => (key, v.blockData key rows)

theorem MVShape.noBlockData_iff {key : GroupKey} {rows : List R} :
    v.NoBlockData key rows ↔ (v.blockData key rows).any Option.isSome = false := by
  simp [MVShape.NoBlockData, MVShape.blockData]

theorem MVShape.dataKeys_ordered (rows : List R) :
    (v.dataKeys rows).Pairwise fun a b => compare a b = .lt :=
  ExtTreeSet.ordered_toList.filter _

/-- The groups with data are among those with rows. -/
theorem MVShape.mem_dataKeys {rows : List R} {key : GroupKey} :
    key ∈ v.dataKeys rows ↔
      (∃ r ∈ rows, v.computeGroupKey r = key) ∧ ¬ v.NoBlockData key rows := by
  rw [MVShape.dataKeys, List.mem_filter, ExtTreeSet.mem_toList, OrdMap.mem_foldl_insert,
    MVShape.noBlockData_iff, Bool.not_eq_false, List.mem_map]
  simp only [ExtTreeSet.not_mem_empty, or_false]

theorem MVShape.mem_dataKeys_iff {rows : List R} {key : GroupKey} :
    key ∈ v.dataKeys rows ↔ ¬ v.NoBlockData key rows := by
  rw [MVShape.mem_dataKeys]
  refine ⟨fun h => h.2, fun h => ⟨?_, h⟩⟩
  by_contra hno
  refine h fun f _ => ?_
  rw [v.valuesOf_eq_nil (fun r hr hk => hno ⟨r, hr, hk⟩)]
  exact AggFunc.blockData_nil _ _

/-- What `window_record` writes of a block, from whatever list of groups that covers the
data of the block. -/
theorem MVEngine.windowRecord_eq {b : BlockNumber} {ts : Int64} {rows : List R}
    {groups : List (GroupKey × List Agg)}
    (hsorted : (groups.map Prod.fst).Pairwise fun a b => compare a b = .lt)
    (hwrite : ∀ e ∈ groups, e.2.map (·.writeBlock b) = v.blockData e.1 rows)
    (hdata : ∀ key, key ∉ groups.map Prod.fst → v.NoBlockData key rows) :
    MVEngine.windowRecord b ts groups = v.recordOf ts rows := by
  have hmap : (groups.map fun (e : GroupKey × List Agg) => (e.1, e.2.map (·.writeBlock b)))
      = (groups.map Prod.fst).map fun key => (key, v.blockData key rows) := by
    rw [List.map_map]
    exact List.map_congr_left fun e he => by rw [hwrite e he]; rfl
  have hkeys : (groups.map Prod.fst).filter (fun key => (v.blockData key rows).any Option.isSome)
      = v.dataKeys rows := by
    refine OrdMap.eq_of_ordered (hsorted.filter _) (v.dataKeys_ordered rows) ?_
    intro key
    rw [MVShape.mem_dataKeys_iff, List.mem_filter, MVShape.noBlockData_iff, Bool.not_eq_false]
    refine ⟨fun h => h.2, fun h => ⟨?_, h⟩⟩
    by_contra hno
    rw [MVShape.noBlockData_iff.mp (hdata key hno)] at h
    cases h
  rw [MVEngine.windowRecord, MVShape.recordOf, WindowRecord.mk.injEq]
  refine ⟨rfl, ?_⟩
  rw [← hkeys]
  exact (congrArg (List.filter _) hmap).trans (List.filter_map)

theorem StashRep.record {x : ExpiredBlock} {rows : List R} (hx : StashRep v x rows) :
    MVEngine.windowRecord x.block x.ts x.groups = v.recordOf x.ts rows := by
  refine MVEngine.windowRecord_eq hx.sorted ?_ hx.data
  intro e he
  exact (hx.groups e he).writeBlock (by simp [Chain.single])

namespace MVEngine

/-- The loop of `read_window_record` over the groups of a record. -/
theorem foldlM_readWindowGroup {b : BlockNumber} (rows : List R) {keys : List GroupKey}
    (hnd : keys.Nodup) (hb : b ∉ W) (m : MVEngine)
    (hrep : ∀ key ∈ keys,
      GroupRep v (m.groups[key]?.getD (Group.new v.createAggVec)).aggs key ∅ W) :
    ∃ m', (keys.map fun key => (key, v.blockData key rows)).foldlM (readWindowGroup v b) m
        = some m' ∧
      m' = { m with groups := m'.groups, blockGroups := m'.blockGroups } ∧
      (∀ key ∈ keys, ∃ g, m'.groups[key]? = some g ∧
        GroupRep v g.aggs key ∅ (W.insert b rows)) ∧
      (∀ key, key ∉ keys → m'.groups[key]? = m.groups[key]?) ∧
      ∀ (b' : BlockNumber) key, key ∈ m'.blockGroups[b']?.getD ∅ ↔
        (b' = b ∧ key ∈ keys) ∨ key ∈ m.blockGroups[b']?.getD ∅ := by
  induction keys generalizing m with
  | nil => exact ⟨m, rfl, rfl, by simp, by simp, by simp⟩
  | cons k ks ih =>
    obtain ⟨hk, hks⟩ := List.nodup_cons.mp hnd
    obtain ⟨aggs, hread, hgroup⟩ := (hrep k List.mem_cons_self).readIn hb rows
    have hstep : readWindowGroup v b m (k, v.blockData k rows) = some { m with
        groups := m.groups.insert k
          { (m.groups[k]?.getD (Group.new v.createAggVec)) with aggs := aggs }
        blockGroups := m.blockGroups.alter b fun keys => some ((keys.getD ∅).insert k) } := by
      unfold readWindowGroup
      dsimp only
      rw [hread]
      rfl
    obtain ⟨m', heq, hm', hin, hout, hbg⟩ := ih hks
      { m with
        groups := m.groups.insert k
          { (m.groups[k]?.getD (Group.new v.createAggVec)) with aggs := aggs }
        blockGroups := m.blockGroups.alter b fun keys => some ((keys.getD ∅).insert k) } (by
      intro key hkey
      have hne : k ≠ key := by rintro rfl; exact hk hkey
      have := hrep key (List.mem_cons_of_mem _ hkey)
      simpa [ExtTreeMap.getElem?_insert, hne] using this)
    refine ⟨m', ?_, ?_, ?_, ?_, ?_⟩
    · rw [List.map_cons, List.foldlM_cons, hstep]
      exact heq
    · rw [hm']
    · intro key hkey
      rcases List.mem_cons.mp hkey with rfl | hkey
      · rw [hout key hk]
        exact ⟨{ (m.groups[key]?.getD (Group.new v.createAggVec)) with aggs := aggs }, by simp,
          hgroup⟩
      · exact hin key hkey
    · intro key hkey
      rw [List.mem_cons, not_or] at hkey
      rw [hout key hkey.2]
      simp [ExtTreeMap.getElem?_insert, Ne.symm hkey.1]
    · intro b' key
      rw [hbg b' key, ExtTreeMap.getElem?_alter, List.mem_cons]
      by_cases hbb : b = b'
      · subst hbb
        simp only [true_and, compare_self, ↓reduceIte, Option.getD_some, ExtTreeSet.mem_insert,
          Std.compare_eq_iff_eq]
        constructor
        · rintro (h | rfl | h)
          · exact Or.inl (Or.inr h)
          · exact Or.inl (Or.inl rfl)
          · exact Or.inr h
        · rintro ((rfl | h) | h)
          · exact Or.inr (Or.inl rfl)
          · exact Or.inl h
          · exact Or.inr (Or.inr h)
      · have hne : ¬ b' = b := Ne.symm hbb
        simp [hbb, hne]

end MVEngine

/-- **A block that is read back** from its record is in the window. -/
theorem ViewRep.readWindowRecord (h : ViewRep v st m W ∅ ∅) {b : BlockNumber} (hb : b ∉ W)
    (ts : Int64) (rows : List R) :
    ∃ m', MVEngine.readWindowRecord v m b (v.recordOf ts rows) = some m' ∧
      ViewRep v st m' (W.insert b rows) ∅ ∅ ∧
      m' = { m with
        groups := m'.groups, blockGroups := m'.blockGroups
        blockTimes := m.blockTimes.insert b ts } := by
  have hnd : (v.dataKeys rows).Nodup := (v.dataKeys_ordered rows).imp fun {a b} hab heq => by
    subst heq
    simp at hab
  obtain ⟨m', heq, hm', hin, hout, hbg⟩ := MVEngine.foldlM_readWindowGroup rows hnd hb
    { m with blockTimes := m.blockTimes.insert b ts } (by
    intro key _
    dsimp only
    cases hg : m.groups[key]? with
    | some g =>
      have := h.groups key g hg
      rwa [Chain.minus_empty] at this
    | none =>
      refine groupRep_fresh (fun f _ => OrdMap.mapEntries_empty _) ?_
      intro f hf
      rw [h.absent key hg f hf]
      exact OrdMap.mapEntries_empty _)
  refine ⟨m', heq, ?_, hm'⟩
  refine h.insertBlock hb (K := fun key => key ∈ v.dataKeys rows) hin hout ?_ ?_ hbg (by rw [hm'])
  · intro key hkey
    exact (MVShape.mem_dataKeys.mp hkey).1
  · intro key hkey
    rw [MVShape.mem_dataKeys_iff, not_not] at hkey
    exact hkey

end ViewRep

end Settle
