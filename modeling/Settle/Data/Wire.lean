import Mathlib.Algebra.Order.Ring.Nat
import Mathlib.Tactic.Ring

/-!
# Wire formats

Readers of byte strings, and what it takes for a reader to undo a writer.

* `Reads r bytes a`: whatever follows `bytes`, the reader `r` takes exactly `bytes` and gives `a`.
  It composes along `>>=` (`Reads.bind`), so the round trip of a format is one `Reads` per field.
* `Local r`: what `r` accepts it has read. It is the law behind truncation: a reader that is local
  accepts no strict prefix of what it reads (`Local.not_truncated`).
* `Canonical r write`: `r` accepts only what `write` writes.

The integers of a format are little endian: `le` and `ofLe`.
-/

namespace Wire

/-- A byte string. -/
abbrev Bytes := List UInt8

/-- A reader takes bytes from the front of its input, or fails. -/
abbrev Reader (ε α : Type) := StateT Bytes (Except ε) α

variable {ε α β : Type}

/-! ## Little-endian integers -/

/-- An integer of `width` bytes, the lowest byte first. -/
def le : Nat → Nat → Bytes
  | 0, _ => []
  | width + 1, n => UInt8.ofNat (n % 256) :: le width (n / 256)

def ofLe : Bytes → Nat
  | [] => 0
  | b :: rest => b.toNat + 256 * ofLe rest

@[simp] theorem length_le (width n : Nat) : (le width n).length = width := by
  induction width generalizing n with
  | zero => rfl
  | succ width ih => rw [le, List.length_cons, ih]

theorem ofLe_le {width n : Nat} (h : n < 256 ^ width) : ofLe (le width n) = n := by
  induction width generalizing n with
  | zero =>
    have hn : n = 0 := by simpa using h
    rw [hn]
    rfl
  | succ width ih =>
    have hrest : n / 256 < 256 ^ width := by
      rw [pow_succ] at h
      exact Nat.div_lt_of_lt_mul (by rwa [mul_comm])
    rw [le, ofLe, ih hrest, UInt8.toNat_ofNat']
    omega

theorem ofLe_lt (bytes : Bytes) : ofLe bytes < 256 ^ bytes.length := by
  induction bytes with
  | nil => simp [ofLe]
  | cons b rest ih =>
    have hb := b.toNat_lt
    rw [ofLe, List.length_cons, pow_succ]
    omega

/-- Every byte string of its length is the one that the integer it spells writes. -/
theorem le_ofLe (bytes : Bytes) : le bytes.length (ofLe bytes) = bytes := by
  induction bytes with
  | nil => rfl
  | cons b rest ih =>
    have hb := b.toNat_lt
    have hmod : (b.toNat + 256 * ofLe rest) % 256 = b.toNat := by omega
    have hdiv : (b.toNat + 256 * ofLe rest) / 256 = ofLe rest := by omega
    rw [List.length_cons, le, ofLe, hmod, hdiv, ih, UInt8.ofNat_toNat]

/-! ## Readers -/

/-- Whatever follows `bytes`, `r` reads exactly `bytes`, as `a`. -/
def Reads (r : Reader ε α) (bytes : Bytes) (a : α) : Prop :=
  ∀ rest, r.run (bytes ++ rest) = .ok (a, rest)

/-- What `r` accepts is what it read, whatever follows. -/
def Local (r : Reader ε α) : Prop :=
  ∀ input a rest, r.run input = .ok (a, rest) → ∃ used, input = used ++ rest ∧ Reads r used a

/-- `r` accepts only what `write` writes, and gives what was written. -/
def Canonical (r : Reader ε α) (write : α → Bytes) : Prop :=
  ∀ input a rest, r.run input = .ok (a, rest) → input = write a ++ rest

theorem run_bind_eq_ok {r : Reader ε α} {f : α → Reader ε β} {input rest : Bytes} {b : β}
    (h : (r >>= f).run input = .ok (b, rest)) :
    ∃ a mid, r.run input = .ok (a, mid) ∧ (f a).run mid = .ok (b, rest) := by
  rw [StateT.run_bind] at h
  cases hr : r.run input with
  | error e =>
    rw [hr] at h
    cases h
  | ok out =>
    rw [hr] at h
    exact ⟨out.1, out.2, rfl, h⟩

namespace Reads

theorem pure (a : α) : Reads (Pure.pure a : Reader ε α) [] a := fun _ => rfl

/-- A reader that starts where the one before it stopped. -/
theorem bind {r : Reader ε α} {f : α → Reader ε β} {bytes bytes' : Bytes} {a : α} {b : β}
    (hr : Reads r bytes a) (hf : Reads (f a) bytes' b) : Reads (r >>= f) (bytes ++ bytes') b := by
  intro rest
  rw [StateT.run_bind, List.append_assoc, hr (bytes' ++ rest)]
  exact hf rest

/-- The reader of the last field, with what is made of it. -/
theorem map {r : Reader ε α} {bytes : Bytes} {a : α} (hr : Reads r bytes a) (f : α → β) :
    Reads (r >>= fun a => Pure.pure (f a)) bytes (f a) := by
  have hpure : Reads (Pure.pure (f a) : Reader ε β) [] (f a) := pure (f a)
  have h : Reads (r >>= fun a => Pure.pure (f a)) (bytes ++ []) (f a) := hr.bind hpure
  rwa [List.append_nil] at h

/-- Alone, the bytes are read to their end. -/
theorem run {r : Reader ε α} {bytes : Bytes} {a : α} (h : Reads r bytes a) :
    r.run bytes = .ok (a, []) := by
  have := h []
  rwa [List.append_nil] at this

end Reads

namespace Local

theorem pure (a : α) : Local (Pure.pure a : Reader ε α) := by
  intro input b rest h
  cases h
  exact ⟨[], rfl, Reads.pure a⟩

theorem bind {r : Reader ε α} {f : α → Reader ε β} (hr : Local r) (hf : ∀ a, Local (f a)) :
    Local (r >>= f) := by
  intro input b rest h
  obtain ⟨a, mid, hra, hfb⟩ := run_bind_eq_ok h
  obtain ⟨used, rfl, hused⟩ := hr input a mid hra
  obtain ⟨used', rfl, hused'⟩ := hf a mid b rest hfb
  refine ⟨used ++ used', (List.append_assoc used used' rest).symm, ?_⟩
  exact hused.bind hused'

/-- **Truncation is noticed:** a strict prefix of what a local reader reads is not accepted. -/
theorem not_truncated {r : Reader ε α} (hr : Local r) {cut more : Bytes} {a : α}
    (h : Reads r (cut ++ more) a) (hmore : more ≠ []) (b : α) (rest : Bytes) :
    r.run cut ≠ .ok (b, rest) := by
  intro hcut
  obtain ⟨used, rfl, hused⟩ := hr cut b rest hcut
  have hlong := hused (rest ++ more)
  rw [← List.append_assoc, h.run] at hlong
  injection hlong with hpair
  injection hpair with _ hnil
  exact hmore (List.append_eq_nil_iff.mp hnil.symm).2

end Local

/-- Readings of the same input give the same value and stop at the same place. -/
theorem Reads.unique {r : Reader ε α} {bytes bytes' more more' : Bytes} {a b : α}
    (h : Reads r bytes a) (h' : Reads r bytes' b) (heq : bytes ++ more = bytes' ++ more') :
    a = b ∧ more = more' := by
  have hrun := h more
  rw [heq, h' more'] at hrun
  injection hrun with hpair
  injection hpair with hab hmore
  exact ⟨hab.symm, hmore.symm⟩

/-! ## Reading a number of bytes -/

/-- The next `n` bytes, or `e` of what is left. -/
def take (e : Bytes → ε) (n : Nat) : Reader ε Bytes := fun input =>
  if input.length < n then .error (e input) else .ok (input.take n, input.drop n)

theorem reads_take (e : Bytes → ε) (bytes : Bytes) : Reads (take e bytes.length) bytes bytes := by
  intro rest
  show (if (bytes ++ rest).length < bytes.length then _ else _) = _
  rw [if_neg (by simp), List.take_left, List.drop_left]

theorem take_eq_ok {e : Bytes → ε} {n : Nat} {input bytes rest : Bytes}
    (h : (take e n).run input = .ok (bytes, rest)) :
    input = bytes ++ rest ∧ bytes.length = n := by
  change (if input.length < n then _ else _) = _ at h
  split at h
  · cases h
  · next hlen =>
    cases h
    refine ⟨(List.take_append_drop n input).symm, ?_⟩
    rw [List.length_take]
    omega

theorem local_take (e : Bytes → ε) (n : Nat) : Local (take e n) := by
  intro input bytes rest h
  obtain ⟨rfl, hn⟩ := take_eq_ok h
  refine ⟨bytes, rfl, ?_⟩
  rw [← hn]
  exact reads_take e bytes

/-! ## Failing -/

/-- A check on what was read: it takes nothing. -/
def check (result : Except ε α) : Reader ε α := fun input => result.map fun a => (a, input)

theorem reads_check (a : α) : Reads (check (.ok a) : Reader ε α) [] a := fun _ => rfl

theorem check_eq_ok {result : Except ε α} {input rest : Bytes} {a : α}
    (h : (check result).run input = .ok (a, rest)) : result = .ok a ∧ rest = input := by
  cases result with
  | error e => cases h
  | ok b =>
    cases h
    exact ⟨rfl, rfl⟩

theorem local_check (result : Except ε α) : Local (check result) := by
  intro input a rest h
  obtain ⟨rfl, rfl⟩ := check_eq_ok h
  exact ⟨[], rfl, reads_check a⟩

/-! ## Repetition -/

/-- Read `n` times. -/
def times (r : Reader ε α) : Nat → Reader ε (List α)
  | 0 => pure []
  | n + 1 => do
    let a ← r
    let as ← times r n
    pure (a :: as)

theorem reads_times {r : Reader ε α} {write : α → Bytes} {as : List α}
    (h : ∀ a ∈ as, Reads r (write a) a) : Reads (times r as.length) (as.flatMap write) as := by
  induction as with
  | nil => exact Reads.pure []
  | cons a as ih =>
    have hrest := ih fun b hb => h b (List.mem_cons_of_mem a hb)
    rw [List.flatMap_cons]
    exact (h a List.mem_cons_self).bind (hrest.map fun as => a :: as)

theorem local_times {r : Reader ε α} (h : Local r) (n : Nat) : Local (times r n) := by
  induction n with
  | zero => exact Local.pure []
  | succ n ih => exact h.bind fun a => ih.bind fun as => Local.pure (a :: as)

/-- Concatenations of what a reader reads have the same parts. -/
theorem flatMap_inj {r : Reader ε α} {write : α → Bytes} {as bs : List α}
    (ha : ∀ a ∈ as, Reads r (write a) a) (hb : ∀ b ∈ bs, Reads r (write b) b)
    (hpos : ∀ a, write a ≠ []) (h : as.flatMap write = bs.flatMap write) : as = bs := by
  induction as generalizing bs with
  | nil =>
    cases bs with
    | nil => rfl
    | cons b bs =>
      have hnil := List.append_eq_nil_iff.mp (h.symm.trans (List.flatMap_nil))
      exact absurd hnil.1 (hpos b)
  | cons a as ih =>
    cases bs with
    | nil =>
      have hnil := List.append_eq_nil_iff.mp (h.trans (List.flatMap_nil))
      exact absurd hnil.1 (hpos a)
    | cons b bs =>
      rw [List.flatMap_cons, List.flatMap_cons] at h
      obtain ⟨hab, hrest⟩ := (ha a List.mem_cons_self).unique (hb b List.mem_cons_self) h
      rw [hab, ih (fun x hx => ha x (List.mem_cons_of_mem a hx))
        (fun x hx => hb x (List.mem_cons_of_mem b hx)) hrest]

/-! ## Whole inputs -/

/-- Read an input to its end: what is left over is the error `trailing`. -/
def whole (r : Reader ε α) (trailing : α → Bytes → ε) (input : Bytes) : Except ε α :=
  match r.run input with
  | .error e => .error e
  | .ok (a, rest) => if rest.length ≠ 0 then .error (trailing a rest) else .ok a

/-- `decode` accepts `bytes` as `a`, and no strict prefix and no extension of it. -/
structure Framed (decode : Bytes → Except ε α) (bytes : Bytes) (a : α) : Prop where
  back : decode bytes = .ok a
  cut : ∀ cut more, bytes = cut ++ more → more ≠ [] → ∃ e, decode cut = .error e
  extended : ∀ more, more ≠ [] → ∃ e, decode (bytes ++ more) = .error e

/-- The result is an error, or what `r` made of a part of the input. -/
def InRange (r : Reader ε α) (input : Bytes) (result : Except ε α) : Prop :=
  (∃ e, result = .error e) ∨ ∃ a used rest, result = .ok a ∧ input = used ++ rest ∧ Reads r used a

theorem whole_eq_ok {r : Reader ε α} {trailing : α → Bytes → ε} {input : Bytes} {a : α}
    (h : whole r trailing input = .ok a) : r.run input = .ok (a, []) := by
  unfold whole at h
  split at h
  · cases h
  · next b rest hrun =>
    split at h
    · cases h
    · next hrest =>
      cases h
      rw [hrun, List.length_eq_zero_iff.mp (not_not.mp hrest)]

/-- **A self-delimiting format is framed.** The reader may know the length of its input. -/
theorem framed_whole {r : Nat → Reader ε α} {trailing : α → Bytes → ε} {bytes : Bytes} {a : α}
    (hlocal : ∀ len, Local (r len)) (h : ∀ len, Reads (r len) bytes a) :
    Framed (fun input => whole (r input.length) trailing input) bytes a := by
  refine ⟨?_, ?_, ?_⟩
  · unfold whole
    rw [(h bytes.length).run]
    rfl
  · intro cut more hcut hmore
    cases hresult : whole (r cut.length) trailing cut with
    | error e => exact ⟨e, rfl⟩
    | ok b =>
      have hreads := h cut.length
      rw [hcut] at hreads
      exact absurd (whole_eq_ok hresult) ((hlocal _).not_truncated hreads hmore b [])
  · intro more hmore
    refine ⟨trailing a more, ?_⟩
    unfold whole
    rw [h _ more]
    exact if_pos fun hlen => hmore (List.length_eq_zero_iff.mp hlen)

theorem inRange_whole {r : Reader ε α} {trailing : α → Bytes → ε} (hlocal : Local r)
    (input : Bytes) : InRange r input (whole r trailing input) := by
  cases hresult : whole r trailing input with
  | error e => exact Or.inl ⟨e, rfl⟩
  | ok a =>
    obtain ⟨used, hused, hreads⟩ := hlocal input a [] (whole_eq_ok hresult)
    exact Or.inr ⟨a, used, [], rfl, hused, hreads⟩

end Wire
