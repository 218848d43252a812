import Settle.Schema.Defaults
import Settle.Engine.View

/-!
# Intervals

A schema names an interval by a count and a unit: `parse_interval` reads that of a tumbling
window, `extract_sliding_windows` that of a sliding one. Both check that the product of the
count and the unit fits a `u64` of seconds. The engine then casts the seconds to an `i64`
and scales them to milliseconds: `to_start_of_interval` with a plain product,
`expire_old_blocks` with a saturating one.

So what the parser admits is more than what the engine computes with. This file says how
much more: `tumblingExact_iff` and `cutoffExact_iff` for the seconds, and
`intervals_exact_iff` for the intervals that a schema names.
-/

namespace Settle

/-! ## The parser -/

/-- `sqlparser::ast::DateTimeField`: the four fields that are units, and the others. -/
inductive DateTimeField where
  | second | minute | hour | day
  | other (name : String)
deriving DecidableEq

namespace DateTimeField

def text : DateTimeField → String
  | second => "SECOND"
  | minute => "MINUTE"
  | hour => "HOUR"
  | day => "DAY"
  | other name => name

def multiplier : DateTimeField → Option UInt64
  | second => some 1
  | minute => some 60
  | hour => some 3600
  | day => some 86400
  | other _ => none

end DateTimeField

/-- `sqlparser::ast::Interval`: the text of its value, and its leading field. -/
structure SqlInterval where
  value : String
  leadingField : Option DateTimeField

/-- `u64::checked_mul` -/
def checkedMul (n m : UInt64) : Option UInt64 :=
  if n.toNat * m.toNat < 2 ^ 64 then some (n * m) else none

/-- The number before the unit. -/
def SqlInterval.count (iv : SqlInterval) : Option UInt64 :=
  parseU64 (String.ofList (trimChars iv.value.toList))

/-- `parse_interval` -/
def parseInterval (iv : SqlInterval) (viewName : String) : Except String UInt64 :=
  match iv.count with
  | none => .error ("MV '" ++ viewName ++ "': invalid interval value '" ++ iv.value ++ "'")
  | some n =>
    match iv.leadingField with
    | none => .error ("MV '" ++ viewName ++ "': interval missing unit")
    | some unit =>
      match unit.multiplier with
      | none =>
        .error ("MV '" ++ viewName ++ "': unsupported interval unit '" ++ unit.text ++ "'")
      | some multiplier =>
        match checkedMul n multiplier with
        | none =>
          .error ("MV '" ++ viewName ++ "': interval " ++ toString n.toNat ++ " " ++ unit.text ++
            " overflows")
        | some seconds => .ok seconds

/-- `char::is_ascii_alphabetic` -/
def isAsciiAlphabetic (c : Char) : Bool := ('a' ≤ c && c ≤ 'z') || ('A' ≤ c && c ≤ 'Z')

/-- The unit of a sliding window. -/
def windowMultiplier : String → Option UInt64
  | "SECOND" | "SECONDS" => some 1
  | "MINUTE" | "MINUTES" => some 60
  | "HOUR" | "HOURS" => some 3600
  | "DAY" | "DAYS" => some 86400
  | _ => none

/-- The digits after INTERVAL. -/
def windowDigits (afterInterval : List Char) : List Char :=
  (afterInterval.dropWhile isWhitespace).takeWhile isAsciiDigit

/-- What follows the digits. -/
def afterWindowDigits (afterInterval : List Char) : List Char :=
  ((afterInterval.dropWhile isWhitespace).dropWhile isAsciiDigit).dropWhile isWhitespace

def windowUnit (afterInterval : List Char) : String :=
  String.ofList ((afterWindowDigits afterInterval).takeWhile isAsciiAlphabetic)

/-- The number and the unit of `extract_sliding_windows`, in the upper-case text after
INTERVAL: the seconds, and what follows the unit. -/
def parseWindowInterval (afterInterval : List Char) : Except String (UInt64 × List Char) :=
  let digits := windowDigits afterInterval
  if digits.isEmpty then .error "WINDOW SLIDING: expected numeric interval value"
  else
    match parseU64 (String.ofList digits) with
    | none => .error "WINDOW SLIDING: invalid interval value"
    | some n =>
      let unit := windowUnit afterInterval
      match windowMultiplier unit with
      | none => .error ("WINDOW SLIDING: unsupported interval unit '" ++ unit ++ "'")
      | some multiplier =>
        match checkedMul n multiplier with
        | none =>
          .error ("WINDOW SLIDING: interval value " ++ toString n.toNat ++ " " ++ unit ++
            " overflows")
        | some seconds =>
          if seconds = 0 then .error "WINDOW SLIDING: interval must be greater than 0"
          else .ok (seconds, (afterWindowDigits afterInterval).dropWhile isAsciiAlphabetic)

theorem checkedMul_eq_some {n m s : UInt64} :
    checkedMul n m = some s ↔ s.toNat = n.toNat * m.toNat := by
  rw [checkedMul]
  split
  · next h =>
    have hmul : (n * m).toNat = n.toNat * m.toNat := by
      rw [UInt64.toNat_mul, Nat.mod_eq_of_lt h]
    rw [Option.some.injEq, ← UInt64.toNat_inj, hmul]
    exact eq_comm
  · next h =>
    refine iff_of_false (by simp) ?_
    intro heq
    exact h (heq ▸ s.toNat_lt)

/-- **What `parse_interval` admits**: a number of units whose seconds fit a `u64`. -/
theorem parseInterval_ok {iv : SqlInterval} {viewName : String} {s : UInt64} :
    parseInterval iv viewName = .ok s ↔
      ∃ n unit m, iv.count = some n ∧ iv.leadingField = some unit ∧ unit.multiplier = some m ∧
        s.toNat = n.toNat * m.toNat := by
  rw [parseInterval]
  constructor
  · intro h
    split at h
    · cases h
    next n hn =>
    split at h
    · cases h
    next unit hunit =>
    split at h
    · cases h
    next m hm =>
    split at h
    · cases h
    next seconds hs =>
    cases h
    exact ⟨n, unit, m, hn, hunit, hm, checkedMul_eq_some.mp hs⟩
  · rintro ⟨n, unit, m, hn, hunit, hm, hs⟩
    simp only [hn, hunit, hm, checkedMul_eq_some.mpr hs]

/-- What the clause of a sliding window admits: the same, but not zero. -/
theorem parseWindowInterval_ok {text : List Char} {s : UInt64} :
    (∃ rest, parseWindowInterval text = .ok (s, rest)) ↔
      ∃ n m, parseU64 (String.ofList (windowDigits text)) = some n ∧
        windowMultiplier (windowUnit text) = some m ∧ s.toNat = n.toNat * m.toNat ∧ s ≠ 0 := by
  rw [parseWindowInterval]
  dsimp only
  constructor
  · rintro ⟨rest, h⟩
    split at h
    · cases h
    split at h
    · cases h
    next n hn =>
    split at h
    · cases h
    next m hm =>
    split at h
    · cases h
    next seconds hs =>
    split at h
    · cases h
    next hpos =>
    cases h
    exact ⟨n, m, hn, hm, checkedMul_eq_some.mp hs, hpos⟩
  · rintro ⟨n, m, hn, hm, hs, hpos⟩
    have hdigits : (windowDigits text).isEmpty = false := by
      cases hd : windowDigits text with
      | nil =>
        rw [hd] at hn
        cases hn
      | cons c cs => rfl
    simp only [hdigits, hn, hm, checkedMul_eq_some.mpr hs, hpos]
    exact ⟨_, rfl⟩

/-! ## The start of an interval -/

/-- `trunc(t / I) * I` lies between zero and `t`. -/
theorem tdiv_mul_between (t : Int) {w : Int} (hw : 0 < w) :
    (0 ≤ t.tdiv w * w ∧ t.tdiv w * w ≤ t) ∨ (t ≤ t.tdiv w * w ∧ t.tdiv w * w ≤ 0) := by
  have hnonneg : ∀ a : Int, 0 ≤ a → 0 ≤ a.tdiv w * w ∧ a.tdiv w * w ≤ a := by
    intro a ha
    rw [Int.tdiv_eq_ediv_of_nonneg ha]
    refine ⟨Int.mul_nonneg (Int.ediv_nonneg ha hw.le) hw.le, Int.ediv_mul_le a hw.ne'⟩
  rcases Int.le_total 0 t with ht | ht
  · exact Or.inl (hnonneg t ht)
  · right
    have hneg := hnonneg (-t) (by omega)
    rw [Int.neg_tdiv, Int.neg_mul] at hneg
    omega

/-- A time smaller than the interval is in the interval of zero. -/
theorem tdiv_eq_zero_of_natAbs_lt {t w : Int} (h : |t| < w) : t.tdiv w = 0 := by
  rcases Int.le_total 0 t with ht | ht
  · rw [abs_of_nonneg ht] at h
    exact Int.tdiv_eq_zero_of_lt ht h
  · rw [abs_of_nonpos ht] at h
    have hneg := Int.tdiv_eq_zero_of_lt (by omega : 0 ≤ -t) h
    rw [Int.neg_tdiv] at hneg
    omega

/-- The seconds, cast and scaled: what is left of the product modulo `2^64`. -/
theorem toInt_milliseconds (s : UInt64) :
    (s.toInt64 * 1000).toInt = ((s.toNat * 1000 : Nat) : Int).bmod (2 ^ 64) := by
  have hcast : s.toInt64.toInt = (s.toNat : Int).bmod (2 ^ 64) := by
    rw [← UInt64.ofNat_toNat (x := s), UInt64.toInt64_ofNat', Int64.toInt_ofNat',
      UInt64.ofNat_toNat]
    rfl
  have hthousand : (1000 : Int64).toInt = 1000 := by decide
  rw [Int64.toInt_mul, hcast, hthousand, Int.bmod_mul_bmod]
  push_cast
  rfl

/-- The milliseconds that fit are the milliseconds. -/
theorem toInt_milliseconds_of_lt {s : UInt64} (h : s.toNat * 1000 < 2 ^ 63) :
    (s.toInt64 * 1000).toInt = (s.toNat * 1000 : Nat) := by
  rw [toInt_milliseconds]
  exact Int.bmod_eq_of_le (by omega) (by omega)

/-- Below `2^63` milliseconds every time goes to the start of its interval. -/
theorem toInt_toStartOfInterval {s : UInt64} (hs : s ≠ 0) (h : s.toNat * 1000 < 2 ^ 63)
    (t : Int64) : (toStartOfInterval t s).toInt
      = t.toInt.tdiv (s.toNat * 1000 : Nat) * (s.toNat * 1000 : Nat) := by
  have hms := toInt_milliseconds_of_lt h
  have hpos : 0 < s.toNat := Nat.pos_of_ne_zero fun hzero => hs (UInt64.toNat_inj.mp hzero)
  have hne : s.toInt64 * 1000 ≠ 0 := by
    intro hzero
    rw [hzero, Int64.toInt_zero] at hms
    omega
  have hbetween := tdiv_mul_between t.toInt (w := (s.toNat * 1000 : Nat)) (by omega)
  have hlow := t.le_toInt
  have hhigh := t.toInt_lt
  rw [toStartOfInterval, if_neg hne, Int64.toInt_mul, Int64.toInt_div, Int.bmod_mul_bmod, hms]
  exact Int.bmod_eq_of_le (by omega) (by omega)

/-- From `2^63` milliseconds on, every time is in the interval of zero, and the code sends
none but the times next to zero there. -/
theorem exists_wrong_start {s : UInt64} (h : 2 ^ 63 ≤ s.toNat * 1000) :
    ∃ t : Int64, (toStartOfInterval t s).toInt ≠ 0 ∧ t.toInt.tdiv (s.toNat * 1000 : Nat) = 0 := by
  have hsmall : ∀ t : Int64, t.toInt.tdiv (s.toNat * 1000 : Nat) = 0 := by
    intro t
    have hlow := t.le_toInt
    have hhigh := t.toInt_lt
    apply tdiv_eq_zero_of_natAbs_lt
    rw [abs_lt]
    -- the product is no power of two
    omega
  by_cases hzero : s.toInt64 * 1000 = 0
  · -- the product wraps to nothing, and every time stays where it is
    refine ⟨1, ?_, hsmall 1⟩
    rw [toStartOfInterval, if_pos hzero]
    decide
  · -- the wrapped product is the start of its own interval
    refine ⟨s.toInt64 * 1000, ?_, hsmall _⟩
    have hne : (s.toInt64 * 1000).toInt ≠ 0 := by
      rw [← Int64.toInt_zero]
      exact fun heq => hzero (Int64.toInt_inj.mp heq)
    rw [toStartOfInterval, if_neg hzero]
    generalize s.toInt64 * 1000 = w at hne ⊢
    have hlow := w.le_toInt
    have hhigh := w.toInt_lt
    rw [Int64.toInt_mul, Int64.toInt_div, Int.tdiv_self hne, Int.bmod_mul_bmod, Int.one_mul,
      Int.bmod_eq_of_le (by omega) (by omega)]
    exact hne

/-- `to_start_of_interval` is exact at this width: the milliseconds do not overflow, there
is something to divide by, and every time goes to the start of its interval. -/
structure TumblingExact (s : UInt64) : Prop where
  product : (s.toInt64 * 1000).toInt = (s.toNat * 1000 : Nat)
  divisor : s.toNat * 1000 ≠ 0
  start : ∀ t : Int64, (toStartOfInterval t s).toInt
    = t.toInt.tdiv (s.toNat * 1000 : Nat) * (s.toNat * 1000 : Nat)

/-- **Tumbling windows.** They are exact for the widths whose milliseconds fit an `i64`, and
for no others: there some time even goes to a wrong start. -/
theorem tumblingExact_iff {s : UInt64} :
    TumblingExact s ↔ s ≠ 0 ∧ s.toNat * 1000 < 2 ^ 63 := by
  constructor
  · intro h
    refine ⟨fun hzero => h.divisor (by rw [hzero]; rfl), ?_⟩
    by_contra hge
    obtain ⟨t, hcode, hexact⟩ := exists_wrong_start (Nat.le_of_not_lt hge)
    apply hcode
    rw [h.start t, hexact, Int.zero_mul]
  · rintro ⟨hs, hlt⟩
    have hpos : s.toNat ≠ 0 := fun hzero => hs (UInt64.toNat_inj.mp hzero)
    exact ⟨toInt_milliseconds_of_lt hlt, by omega, toInt_toStartOfInterval hs hlt⟩

/-! ## The cutoff of a sliding window -/

/-- The seconds as an `i64`, below `2^63`. -/
theorem toInt_seconds_of_lt {s : UInt64} (h : s.toNat < 2 ^ 63) :
    s.toInt64.toInt = s.toNat := by
  have hnat : s.toInt64 = Int64.ofNat s.toNat := by
    rw [← UInt64.toInt64_ofNat', UInt64.ofNat_toNat]
  rw [hnat, Int64.toInt_ofNat_of_lt h]

/-- **Sliding windows.** The cutoff is exact when the milliseconds fit an `i64` and the
cutoff does, and never else. -/
theorem cutoff_exact_iff {sw : SlidingWindowDef} {watermark : Int64} :
    (MVEngine.windowCutoff sw watermark).toInt
        = watermark.toInt - (sw.intervalSeconds.toNat * 1000 : Nat) ↔
      sw.intervalSeconds.toNat * 1000 < 2 ^ 63 ∧
        -2 ^ 63 ≤ watermark.toInt - (sw.intervalSeconds.toNat * 1000 : Nat) := by
  have hwm := watermark.toInt_lt
  have hthousand : (1000 : Int64).toInt = 1000 := by decide
  -- below `2^63` seconds, the product is right or it saturates
  have hms : sw.intervalSeconds.toNat < 2 ^ 63 →
      (MVEngine.i64SaturatingMul sw.intervalSeconds.toInt64 1000).toInt
        = min (2 ^ 63 - 1) (sw.intervalSeconds.toNat * 1000 : Nat) := by
    intro hlt
    rw [MVEngine.i64SaturatingMul, toInt_seconds_of_lt hlt, hthousand,
      Int64.toInt_ofInt_of_le (by omega) (by omega)]
    omega
  constructor
  · intro h
    have hlow := (MVEngine.windowCutoff sw watermark).le_toInt
    rw [h] at hlow
    refine ⟨?_, hlow⟩
    by_contra hge
    rw [MVEngine.windowCutoff, Int64.toInt_sub, hms (by omega),
      Int.bmod_eq_self_sub_mul_bdiv] at h
    -- a saturated product is odd, and milliseconds are even
    generalize Int.bdiv _ _ = k at h
    omega
  · rintro ⟨hlt, hlow⟩
    rw [MVEngine.windowCutoff, Int64.toInt_sub, hms (by omega)]
    rw [Int.bmod_eq_of_le (by omega) (by omega)]
    omega

/-! ## What a schema names -/

/-- The milliseconds of a tumbling window fit an `i64` and are not zero, or its seconds do
not fit a `u64`. -/
def SqlInterval.Fits (iv : SqlInterval) : Prop :=
  ∀ n unit m, iv.count = some n → iv.leadingField = some unit → unit.multiplier = some m →
    n.toNat * m.toNat < 2 ^ 64 → n.toNat * m.toNat ≠ 0 ∧ n.toNat * m.toNat * 1000 < 2 ^ 63

/-- The milliseconds of a sliding window fit an `i64`, and so does the cutoff at this
watermark, or its seconds do not fit a `u64` or are zero. Below a watermark that is not
negative, the cutoff fits with the milliseconds. -/
def WindowFits (afterInterval : List Char) (watermark : Int64) : Prop :=
  ∀ n m, parseU64 (String.ofList (windowDigits afterInterval)) = some n →
    windowMultiplier (windowUnit afterInterval) = some m →
    n.toNat * m.toNat < 2 ^ 64 → n.toNat * m.toNat ≠ 0 →
    n.toNat * m.toNat * 1000 < 2 ^ 63 ∧
      -2 ^ 63 ≤ watermark.toInt - (n.toNat * m.toNat * 1000 : Nat)

theorem exists_toNat_eq {n : Nat} (h : n < 2 ^ 64) : ∃ s : UInt64, s.toNat = n :=
  ⟨UInt64.ofNat n, UInt64.toNat_ofNat_of_lt' h⟩

theorem ne_zero_iff {s : UInt64} : s ≠ 0 ↔ s.toNat ≠ 0 := by
  rw [ne_eq, ne_eq, ← UInt64.toNat_inj, UInt64.toNat_zero]

/-- **Intervals.** A tumbling window of the schema is rejected or exact at every time if and
only if its milliseconds fit, and a sliding window is rejected or has an exact cutoff if and
only if its milliseconds and the cutoff fit. -/
theorem intervals_exact_iff (iv : SqlInterval) (viewName : String) (text : List Char)
    (timeColumn : String) (watermark : Int64) :
    ((∀ s, parseInterval iv viewName = .ok s → TumblingExact s) ↔ iv.Fits) ∧
    ((∀ s rest, parseWindowInterval text = .ok (s, rest) →
      (MVEngine.windowCutoff ⟨s, timeColumn⟩ watermark).toInt
        = watermark.toInt - (s.toNat * 1000 : Nat)) ↔ WindowFits text watermark) := by
  constructor
  · constructor
    · intro h n unit m hn hunit hm hlt
      obtain ⟨s, hs⟩ := exists_toNat_eq hlt
      have hexact := h s (parseInterval_ok.mpr ⟨n, unit, m, hn, hunit, hm, hs⟩)
      rw [tumblingExact_iff, ne_zero_iff, hs] at hexact
      exact hexact
    · intro h s hparse
      obtain ⟨n, unit, m, hn, hunit, hm, hs⟩ := parseInterval_ok.mp hparse
      rw [tumblingExact_iff, ne_zero_iff, hs]
      exact h n unit m hn hunit hm (hs ▸ s.toNat_lt)
  · constructor
    · intro h n m hn hm hlt hpos
      obtain ⟨s, hs⟩ := exists_toNat_eq hlt
      obtain ⟨rest, hparse⟩ := parseWindowInterval_ok.mpr
        ⟨n, m, hn, hm, hs, ne_zero_iff.mpr (hs ▸ hpos)⟩
      have hexact := cutoff_exact_iff.mp (h s rest hparse)
      dsimp only at hexact
      rw [hs] at hexact
      exact hexact
    · intro h s rest hparse
      obtain ⟨n, m, hn, hm, hs, hpos⟩ := parseWindowInterval_ok.mp ⟨rest, hparse⟩
      apply cutoff_exact_iff.mpr
      dsimp only
      rw [hs]
      exact h n m hn hm (hs ▸ s.toNat_lt) (hs ▸ ne_zero_iff.mp hpos)

/-- `INTERVAL 18446744073709552 SECOND` is admitted, and its milliseconds wrap to 384: the
time 1000 goes to 768, where the exact start is 0. -/
theorem interval_of_384_milliseconds :
    parseInterval { value := "18446744073709552", leadingField := some .second } "mv"
        = .ok 18446744073709552 ∧
      toStartOfInterval 1000 18446744073709552 = 768 ∧
      (1000 : Int).tdiv (18446744073709552 * 1000) * (18446744073709552 * 1000) = 0 ∧
      ¬ ∀ iv viewName s, parseInterval iv viewName = .ok s → TumblingExact s := by
  have hparse : parseInterval { value := "18446744073709552", leadingField := some .second } "mv"
      = .ok 18446744073709552 := by decide
  have hstart : toStartOfInterval 1000 18446744073709552 = 768 := by decide
  refine ⟨hparse, hstart, by decide, ?_⟩
  intro h
  have hexact := (h _ _ _ hparse).start 1000
  rw [hstart] at hexact
  exact absurd hexact (by decide)

end Settle
