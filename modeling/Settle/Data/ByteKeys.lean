import Settle.Data.OrdMap

/-!
# Byte keys

A store with bytewise ordered keys, seen as a map over structured keys. Three parts:

* the bytewise order on key prefixes: the keys in `[p, upperBound p)` are those that start with
  `p` (`mem_prefixRange_iff`);
* big-endian integers: as keys they order as the integers do (`compare_be`);
* `Encoded`: the entries of a map are those of a lookup function under an injective encoding of
  its keys. Each operation of the map is one of the function, and an ordered scan lists the
  entries in the order of the encodings (`Encoded.scan`).
-/

namespace ByteKeys

open Std

/-- A key. -/
abbrev Bytes := List UInt8

/-! ## Prefixes -/

theorem compare_append_left (p a b : Bytes) : compare (p ++ a) (p ++ b) = compare a b := by
  induction p with
  | nil => rfl
  | cons x p ih =>
    rw [List.cons_append, List.cons_append, List.compare_cons_cons, Std.compare_self]
    exact ih

/-- A key orders before its extensions. -/
theorem isLE_compare_append (p t : Bytes) : (compare p (p ++ t)).isLE := by
  have h := compare_append_left p [] t
  rw [List.append_nil] at h
  rw [h]
  cases t with
  | nil => simp
  | cons x t => simp [List.compare_nil_cons]

/-- Increment the last byte that is not `0xff` and drop what follows it, on a reversed key. -/
def bump : Bytes → Bytes
  | [] => []
  | b :: rest => if b < 255 then (b + 1) :: rest else bump rest

/-- An exclusive upper bound for the keys with a prefix. -/
def upperBound (p : Bytes) : Bytes := (bump p.reverse).reverse

/-- A key with a byte below `0xff` ends in such a byte and some `0xff`s. -/
theorem upperBound_eq {p : Bytes} (h : ∃ b ∈ p, b ≠ 255) :
    ∃ q b s, p = q ++ b :: s ∧ b < 255 ∧ (∀ x ∈ s, x = 255) ∧ upperBound p = q ++ [b + 1] := by
  have key : ∀ r : Bytes, (∃ b ∈ r, b ≠ 255) →
      ∃ q b s, r = s ++ b :: q ∧ b < 255 ∧ (∀ x ∈ s, x = 255) ∧ bump r = (b + 1) :: q := by
    intro r
    induction r with
    | nil =>
      rintro ⟨b, hb, -⟩
      cases hb
    | cons x r ih =>
      intro h
      by_cases hx : x < 255
      · refine ⟨r, x, [], rfl, hx, by simp, ?_⟩
        rw [bump, if_pos hx]
      · have hx' : x = 255 := by
          have : x ≤ 255 := UInt8.le_iff_toNat_le.mpr (Nat.le_of_lt_succ x.toNat_lt)
          exact UInt8.le_antisymm this (UInt8.not_lt.mp hx)
        have hr : ∃ b ∈ r, b ≠ 255 := by
          obtain ⟨b, hb, hne⟩ := h
          rcases List.mem_cons.mp hb with rfl | hb
          · exact absurd hx' hne
          · exact ⟨b, hb, hne⟩
        obtain ⟨q, b, s, rfl, hb, hs, hbump⟩ := ih hr
        refine ⟨q, b, x :: s, rfl, hb, ?_, ?_⟩
        · intro y hy
          rcases List.mem_cons.mp hy with rfl | hy
          · exact hx'
          · exact hs y hy
        · rw [bump, if_neg hx, hbump]
  obtain ⟨q, b, s, hp, hb, hs, hbump⟩ := key p.reverse (by simpa using h)
  refine ⟨q.reverse, b, s.reverse, ?_, hb, by simpa using hs, ?_⟩
  · have := congrArg List.reverse hp
    simpa using this
  · rw [upperBound, hbump, List.reverse_cons]

/-- No key is above a run of `0xff`s but its extensions. -/
theorem prefix_of_isLE_max {s k : Bytes} (hs : ∀ x ∈ s, x = 255) (h : (compare s k).isLE) :
    s <+: k := by
  induction s generalizing k with
  | nil => exact List.nil_prefix
  | cons x s ih =>
    cases k with
    | nil => simp [List.compare_cons_nil] at h
    | cons y k =>
      rw [List.compare_cons_cons] at h
      obtain rfl : x = 255 := hs x (by simp)
      have hle : y ≤ 255 := UInt8.le_iff_toNat_le.mpr (Nat.le_of_lt_succ y.toNat_lt)
      cases hc : compare (255 : UInt8) y with
      | lt => exact absurd (Std.compare_eq_lt.mp hc) (UInt8.not_lt.mpr hle)
      | gt => simp [hc, Ordering.then] at h
      | eq =>
        obtain rfl := LawfulEqCmp.eq_of_compare hc
        rw [hc, Ordering.then] at h
        exact List.cons_prefix_cons.mpr ⟨rfl, ih (fun z hz => hs z (by simp [hz])) h⟩

/-- **The keys from a prefix up to its upper bound are the keys that start with it.** -/
theorem mem_prefixRange_iff {p : Bytes} (h : ∃ b ∈ p, b ≠ 255) (k : Bytes) :
    ((compare p k).isLE ∧ compare k (upperBound p) = .lt) ↔ p <+: k := by
  obtain ⟨q, b, s, rfl, hb, hs, hub⟩ := upperBound_eq h
  rw [hub]
  have hsucc : b < b + 1 := by
    apply UInt8.lt_iff_toNat_lt.mpr
    have := UInt8.lt_iff_toNat_lt.mp hb
    rw [UInt8.toNat_add]
    have h255 : (255 : UInt8).toNat = 255 := rfl
    have h1 : (1 : UInt8).toNat = 1 := rfl
    omega
  constructor
  · rintro ⟨hle, hlt⟩
    clear hub h
    induction q generalizing k with
    | nil =>
      cases k with
      | nil => simp [List.compare_cons_nil] at hle
      | cons c k =>
        rw [List.nil_append, List.compare_cons_cons] at hle hlt
        cases hbc : compare b c with
        | gt => simp [hbc, Ordering.then] at hle
        | lt =>
          -- nothing is between a byte and its successor
          exfalso
          have hbc := UInt8.lt_iff_toNat_lt.mp (Std.compare_eq_lt.mp hbc)
          have hb' := UInt8.lt_iff_toNat_lt.mp hb
          have hc : c ≤ b + 1 := by
            cases hcb : compare c (b + 1) with
            | lt => exact UInt8.le_of_lt (Std.compare_eq_lt.mp hcb)
            | eq => exact le_of_eq (LawfulEqCmp.eq_of_compare hcb)
            | gt => simp [hcb, Ordering.then] at hlt
          have hc' := UInt8.le_iff_toNat_le.mp hc
          rw [UInt8.toNat_add] at hc'
          have h255 : (255 : UInt8).toNat = 255 := rfl
          have h1 : (1 : UInt8).toNat = 1 := rfl
          have heq : c = b + 1 := by
            apply UInt8.toNat_inj.mp
            rw [UInt8.toNat_add]
            omega
          rw [heq, Std.compare_self] at hlt
          cases k with
          | nil => simp [Ordering.then] at hlt
          | cons d k => simp [Ordering.then, List.compare_cons_nil] at hlt
        | eq =>
          obtain rfl := LawfulEqCmp.eq_of_compare hbc
          rw [hbc, Ordering.then] at hle
          exact List.cons_prefix_cons.mpr ⟨rfl, prefix_of_isLE_max hs hle⟩
    | cons x q ih =>
      cases k with
      | nil => simp [List.compare_cons_nil] at hle
      | cons c k =>
        rw [List.cons_append, List.compare_cons_cons] at hle hlt
        cases hxc : compare x c with
        | gt => simp [hxc, Ordering.then] at hle
        | lt =>
          have hcx : compare c x = .gt := OrientedCmp.gt_of_lt hxc
          simp [hcx, Ordering.then] at hlt
        | eq =>
          obtain rfl := LawfulEqCmp.eq_of_compare hxc
          rw [hxc, Ordering.then] at hle hlt
          exact List.cons_prefix_cons.mpr ⟨rfl, ih k hle hlt⟩
  · rintro ⟨t, rfl⟩
    refine ⟨isLE_compare_append _ _, ?_⟩
    rw [List.append_assoc, compare_append_left, List.cons_append, List.compare_cons_cons,
      Std.compare_eq_lt.mpr hsucc]
    rfl

/-! ## Names with a terminator -/

/-- A name without a zero byte ends at the first one. -/
theorem terminated_inj {a b r r' : Bytes} (ha : 0 ∉ a) (hb : 0 ∉ b)
    (h : a ++ 0 :: r = b ++ 0 :: r') : a = b ∧ r = r' := by
  induction a generalizing b with
  | nil =>
    cases b with
    | nil => exact ⟨rfl, by simpa using h⟩
    | cons y b =>
      rw [List.nil_append, List.cons_append, List.cons.injEq] at h
      exact absurd (by rw [← h.1]; simp) hb
  | cons x a ih =>
    cases b with
    | nil =>
      rw [List.nil_append, List.cons_append, List.cons.injEq] at h
      exact absurd (by rw [h.1]; simp) ha
    | cons y b =>
      rw [List.cons_append, List.cons_append, List.cons.injEq] at h
      obtain ⟨rfl, rfl⟩ := ih (fun h0 => ha (by simp [h0])) (fun h0 => hb (by simp [h0])) h.2
      exact ⟨by rw [h.1], rfl⟩

theorem terminated_prefix_iff {a b r : Bytes} (ha : 0 ∉ a) (hb : 0 ∉ b) :
    a ++ [0] <+: b ++ 0 :: r ↔ a = b := by
  constructor
  · rintro ⟨t, ht⟩
    rw [List.append_assoc, List.singleton_append] at ht
    exact (terminated_inj ha hb ht).1
  · rintro rfl
    exact ⟨r, by simp⟩

/-! ## Big-endian integers -/

/-- `to_be_bytes` of an integer of `w` bytes. -/
def be : Nat → Nat → Bytes
  | 0, _ => []
  | w + 1, n => UInt8.ofNat (n / 256 ^ w) :: be w n

/-- `from_be_bytes`. -/
def ofBe (bytes : Bytes) : Nat := bytes.foldl (fun n b => n * 256 + b.toNat) 0

@[simp] theorem length_be (w n : Nat) : (be w n).length = w := by
  induction w with
  | zero => rfl
  | succ w ih => rw [be, List.length_cons, ih]

/-- Only the low bytes of a number matter. -/
theorem be_mod (w n : Nat) : be w (n % 256 ^ w) = be w n := by
  have key : ∀ v, v ≤ w → be v (n % 256 ^ w) = be v n := by
    intro v
    induction v with
    | zero => exact fun _ => rfl
    | succ v ih =>
      intro hv
      rw [be, be, ih (by omega)]
      have hdiv : n % 256 ^ w / 256 ^ v % 256 = n / 256 ^ v % 256 := by
        have hw : 256 ^ w = 256 ^ v * 256 ^ (w - v) := by
          rw [← Nat.pow_add]
          congr 1
          omega
        rw [hw, Nat.mod_mul_right_div_self]
        apply Nat.mod_mod_of_dvd
        exact dvd_pow_self 256 (by omega)
      congr 1
      apply UInt8.toNat_inj.mp
      rw [UInt8.toNat_ofNat', UInt8.toNat_ofNat']
      exact hdiv
  exact key w (Nat.le_refl w)

theorem ofBe_cons (b : UInt8) (bytes : Bytes) :
    ofBe (b :: bytes) = b.toNat * 256 ^ bytes.length + ofBe bytes := by
  have key : ∀ (bytes : Bytes) (n : Nat),
      bytes.foldl (fun n b => n * 256 + b.toNat) n = n * 256 ^ bytes.length + ofBe bytes := by
    intro bytes
    induction bytes with
    | nil => simp [ofBe]
    | cons x bytes ih =>
      intro n
      have hx : ofBe (x :: bytes) = x.toNat * 256 ^ bytes.length + ofBe bytes := by
        rw [ofBe, List.foldl_cons, ih]
        simp
      rw [List.foldl_cons, ih, hx, List.length_cons, Nat.pow_succ]
      ring
  rw [ofBe, List.foldl_cons, key]
  simp

theorem ofBe_be {w n : Nat} (h : n < 256 ^ w) : ofBe (be w n) = n := by
  induction w generalizing n with
  | zero =>
    have : n = 0 := by simpa using h
    rw [this]
    rfl
  | succ w ih =>
    rw [be, ofBe_cons, length_be, UInt8.toNat_ofNat']
    have hpos : 0 < 256 ^ w := Nat.pow_pos (by omega)
    have hdiv : n / 256 ^ w < 256 := by
      rw [Nat.div_lt_iff_lt_mul hpos]
      rwa [Nat.pow_succ, Nat.mul_comm] at h
    have hmod : n / 256 ^ w % 2 ^ 8 = n / 256 ^ w := Nat.mod_eq_of_lt hdiv
    have hlow : ofBe (be w n) = n % 256 ^ w := by
      rw [← be_mod, ih (Nat.mod_lt _ hpos)]
    rw [hmod, hlow, Nat.mul_comm]
    exact Nat.div_add_mod n (256 ^ w)

theorem be_inj {w n m : Nat} (hn : n < 256 ^ w) (hm : m < 256 ^ w) (h : be w n = be w m) :
    n = m := by
  rw [← ofBe_be hn, ← ofBe_be hm, h]

/-- **Big-endian keys order as the integers do.** -/
theorem compare_be {w n m : Nat} (hn : n < 256 ^ w) (hm : m < 256 ^ w) :
    compare (be w n) (be w m) = compare n m := by
  induction w generalizing n m with
  | zero =>
    have hn : n = 0 := by simpa using hn
    have hm : m = 0 := by simpa using hm
    rw [hn, hm]
    rfl
  | succ w ih =>
    have hpos : 0 < 256 ^ w := Nat.pow_pos (by omega)
    have hdn : n / 256 ^ w < 256 := by
      rw [Nat.div_lt_iff_lt_mul hpos]
      rwa [Nat.pow_succ, Nat.mul_comm] at hn
    have hdm : m / 256 ^ w < 256 := by
      rw [Nat.div_lt_iff_lt_mul hpos]
      rwa [Nat.pow_succ, Nat.mul_comm] at hm
    have hcn := Nat.div_add_mod n (256 ^ w)
    have hcm := Nat.div_add_mod m (256 ^ w)
    rw [be, be, List.compare_cons_cons, ← be_mod w n, ← be_mod w m,
      ih (Nat.mod_lt _ hpos) (Nat.mod_lt _ hpos)]
    have hbyte : compare (UInt8.ofNat (n / 256 ^ w)) (UInt8.ofNat (m / 256 ^ w))
        = compare (n / 256 ^ w) (m / 256 ^ w) := by
      have hto : ∀ x y : UInt8, compare x y = compare x.toNat y.toNat := by
        intro x y
        rcases Nat.lt_trichotomy x.toNat y.toNat with h | h | h
        · rw [Nat.compare_eq_lt.mpr h, Std.compare_eq_lt.mpr (UInt8.lt_iff_toNat_lt.mpr h)]
        · rw [UInt8.toNat_inj.mp h, Std.compare_self, Std.compare_self]
        · rw [Nat.compare_eq_gt.mpr h, Std.compare_eq_gt.mpr (UInt8.lt_iff_toNat_lt.mpr h)]
      rw [hto, UInt8.toNat_ofNat', UInt8.toNat_ofNat', Nat.mod_eq_of_lt hdn, Nat.mod_eq_of_lt hdm]
    rw [hbyte]
    rcases Nat.lt_trichotomy (n / 256 ^ w) (m / 256 ^ w) with hlt | heq | hgt
    · have hnm : n < m := by
        by_contra hge
        exact absurd (Nat.div_le_div_right (c := 256 ^ w) (Nat.not_lt.mp hge)) (Nat.not_le.mpr hlt)
      rw [Nat.compare_eq_lt.mpr hlt, Nat.compare_eq_lt.mpr hnm]
      rfl
    · rw [heq, Std.compare_self, Ordering.then]
      rw [← hcn, ← hcm, heq]
      have hshift : ∀ c a b : Nat, compare (c + a) (c + b) = compare a b := by
        intro c a b
        rw [Nat.compare_eq_ite_lt, Nat.compare_eq_ite_lt]
        simp
      rw [hshift]
      simp
    · have hnm : m < n := by
        by_contra hge
        exact absurd (Nat.div_le_div_right (c := 256 ^ w) (Nat.not_lt.mp hge)) (Nat.not_le.mpr hgt)
      rw [Nat.compare_eq_gt.mpr hgt, Nat.compare_eq_gt.mpr hnm]
      rfl

/-! ## Encoded maps -/

section Encoded

variable {α γ : Type}

/-- Among the keys in `D`, the entries of `m` are those of `look` under the encoding `f` of its
keys, which are all `valid`. -/
structure Encoded (D : Bytes → Prop) (valid : α → Prop) (f : α → Bytes) (look : α → Option γ)
    (m : ExtTreeMap Bytes γ compare) : Prop where
  valid : ∀ a v, look a = some v → valid a
  get : ∀ k v, D k → (m[k]? = some v ↔ ∃ a, f a = k ∧ look a = some v)

/-- An encoding of the valid keys into the keys in `D`. -/
structure Encoding (D : Bytes → Prop) (valid : α → Prop) (f : α → Bytes) : Prop where
  inj : ∀ a b, valid a → valid b → f a = f b → a = b
  mem : ∀ a, valid a → D (f a)

variable {D : Bytes → Prop} {valid : α → Prop} {f : α → Bytes} {look look' : α → Option γ}
  {m : ExtTreeMap Bytes γ compare}

namespace Encoded

theorem empty : Encoded D valid f (fun _ => none) (∅ : ExtTreeMap Bytes γ compare) where
  valid := by simp
  get := by simp

/-- Lookups agree. -/
theorem lookup (h : Encoded D valid f look m) (he : Encoding D valid f) {a : α} (ha : valid a) :
    m[f a]? = look a := by
  ext v
  rw [h.get (f a) v (he.mem a ha)]
  constructor
  · rintro ⟨b, hb, hv⟩
    rwa [he.inj a b ha (h.valid b v hv) hb.symm]
  · exact fun hv => ⟨a, rfl, hv⟩

theorem insert (h : Encoded D valid f look m) (he : Encoding D valid f) {a : α} (ha : valid a)
    {v : γ} (hlook : ∀ b, look' b = some v ∧ b = a ∨ look' b = look b ∧ b ≠ a) :
    Encoded D valid f look' (m.insert (f a) v) where
  valid b w hw := by
    rcases hlook b with ⟨-, rfl⟩ | ⟨heq, -⟩
    · exact ha
    · exact h.valid b w (heq ▸ hw)
  get k w hk := by
    rw [ExtTreeMap.getElem?_insert]
    by_cases hkey : compare (f a) k = .eq
    · obtain rfl := LawfulEqCmp.eq_of_compare hkey
      simp only [hkey, if_true, Option.some.injEq]
      constructor
      · rintro rfl
        refine ⟨a, rfl, ?_⟩
        rcases hlook a with ⟨hv, -⟩ | ⟨-, hne⟩
        · exact hv
        · exact absurd rfl hne
      · rintro ⟨b, hb, hw⟩
        rcases hlook b with ⟨hv, rfl⟩ | ⟨heq, hne⟩
        · rw [hv] at hw
          exact Option.some.inj hw
        · exact absurd (he.inj b a (h.valid b w (heq ▸ hw)) ha hb) hne
    · rw [if_neg hkey, h.get k w hk]
      have hne : ∀ b, f b = k → b ≠ a := by
        rintro b rfl rfl
        exact hkey Std.compare_self
      constructor
      · rintro ⟨b, hb, hw⟩
        rcases hlook b with ⟨-, hba⟩ | ⟨heq, -⟩
        · exact absurd hba (hne b hb)
        · exact ⟨b, hb, by rw [heq, hw]⟩
      · rintro ⟨b, hb, hw⟩
        rcases hlook b with ⟨-, hba⟩ | ⟨heq, -⟩
        · exact absurd hba (hne b hb)
        · exact ⟨b, hb, by rw [← heq, hw]⟩

/-- Remove some entries. -/
theorem keep (h : Encoded D valid f look m) {q : Bytes → Bool}
    (hlook : ∀ b, valid b → look' b = if q (f b) then look b else none)
    (hnone : ∀ b, look b = none → look' b = none) :
    Encoded D valid f look' (OrdMap.keep m q) where
  valid b w hw := by
    cases hl : look b with
    | none =>
      rw [hnone b hl] at hw
      cases hw
    | some v => exact h.valid b v hl
  get k w hk := by
    rw [OrdMap.getElem?_keep]
    constructor
    · intro hkw
      split at hkw
      · next hq =>
        obtain ⟨b, rfl, hw⟩ := (h.get k w hk).mp hkw
        refine ⟨b, rfl, ?_⟩
        rw [hlook b (h.valid b w hw), if_pos hq, hw]
      · cases hkw
    · rintro ⟨b, rfl, hw⟩
      cases hl : look b with
      | none =>
        rw [hnone b hl] at hw
        cases hw
      | some v =>
        rw [hlook b (h.valid b v hl)] at hw
        split at hw
        · next hq =>
          rw [if_pos hq]
          exact (h.get (f b) w hk).mpr ⟨b, rfl, hw⟩
        · cases hw

theorem erase (h : Encoded D valid f look m) (he : Encoding D valid f) {a : α} (ha : valid a)
    (hlook : ∀ b, look' b = none ∧ b = a ∨ look' b = look b ∧ b ≠ a) :
    Encoded D valid f look' (m.erase (f a)) where
  valid b w hw := by
    rcases hlook b with ⟨hnone, -⟩ | ⟨heq, -⟩
    · rw [hnone] at hw
      cases hw
    · exact h.valid b w (heq ▸ hw)
  get k w hk := by
    rw [ExtTreeMap.getElem?_erase]
    by_cases hkey : compare (f a) k = .eq
    · obtain rfl := LawfulEqCmp.eq_of_compare hkey
      simp only [hkey, if_true, reduceCtorEq, false_iff, not_exists, not_and]
      intro b hb hw
      rcases hlook b with ⟨hnone, -⟩ | ⟨heq, hne⟩
      · rw [hnone] at hw
        cases hw
      · exact hne (he.inj b a (h.valid b w (heq ▸ hw)) ha hb)
    · rw [if_neg hkey, h.get k w hk]
      have hne : ∀ b, f b = k → b ≠ a := by
        rintro b rfl rfl
        exact hkey Std.compare_self
      constructor
      · rintro ⟨b, hb, hw⟩
        rcases hlook b with ⟨-, hba⟩ | ⟨heq, -⟩
        · exact absurd hba (hne b hb)
        · exact ⟨b, hb, by rw [heq, hw]⟩
      · rintro ⟨b, hb, hw⟩
        rcases hlook b with ⟨-, hba⟩ | ⟨heq, -⟩
        · exact absurd hba (hne b hb)
        · exact ⟨b, hb, by rw [← heq, hw]⟩

/-- Changes outside `D` are not seen. -/
theorem congr (h : Encoded D valid f look m) {m' : ExtTreeMap Bytes γ compare}
    (heq : ∀ k, D k → m'[k]? = m[k]?) : Encoded D valid f look m' where
  valid := h.valid
  get k v hk := by rw [heq k hk, h.get k v hk]

/-- **A scan of a part of `D`** lists the entries of `look` in the order of their encodings. -/
theorem scan (h : Encoded D valid f look m) {q : Bytes → Bool} (hq : ∀ k, q k → D k)
    {l : List (α × γ)} (hl : l.Pairwise fun x y => compare (f x.1) (f y.1) = .lt)
    (hmem : ∀ a v, (a, v) ∈ l ↔ look a = some v ∧ q (f a)) :
    (m.toList.filter fun e => q e.1) = l.map fun e => (f e.1, e.2) := by
  have hkeep : (OrdMap.keep m q).toList = m.toList.filter fun e => q e.1 := by
    rw [OrdMap.keep, ExtTreeMap.toList_filter]
  rw [← hkeep]
  refine OrdMap.toList_eq_of_ordered (List.pairwise_map.mpr hl) ?_
  intro k v
  rw [OrdMap.getElem?_keep, List.mem_map]
  constructor
  · rintro ⟨⟨a, w⟩, hw, heq⟩
    cases heq
    obtain ⟨hlook, hqa⟩ := (hmem a w).mp hw
    simp only [hqa, if_true]
    exact (h.get (f a) w (hq _ hqa)).mpr ⟨a, rfl, hlook⟩
  · intro hkv
    split at hkv
    · next hqk =>
      obtain ⟨a, rfl, hlook⟩ := (h.get k v (hq k hqk)).mp hkv
      exact ⟨(a, v), (hmem a v).mpr ⟨hlook, hqk⟩, rfl⟩
    · cases hkv

end Encoded

end Encoded

end ByteKeys
