import Sm83.Word

/-!
# Banks of bytes

A bank of order `n` holds `2 ^ n` bytes as a perfect binary tree: its two halves are banks of
order `n - 1`, and the highest bit of an address chooses between them. Writing a byte builds
only the path that leads to it and shares everything else, so an older memory stays usable
beside a newer one.

The laws of the view are `get_fill` and `get_set`: a fresh bank holds one byte everywhere, and
a write is seen at its own address and nowhere else.
-/

namespace Sm83

/-- A bank of `2 ^ n` bytes. -/
inductive Bank : Nat → Type where
  | cell (b : Byte) : Bank 0
  | halves {n : Nat} (low high : Bank n) : Bank (n + 1)

namespace Bank

variable {n : Nat}

/-- The bank that holds `b` everywhere. -/
def fill (b : Byte) : (n : Nat) → Bank n
  | 0 => cell b
  | n + 1 => let half := fill b n; halves half half

/-- The byte at an address, of which only the low `n` bits count. -/
def get : {n : Nat} → Bank n → Nat → Byte
  | _, cell b, _ => b
  | n + 1, halves low high, a => if a.testBit n then high.get a else low.get a

/-- The bank with the byte at an address replaced. -/
def set : {n : Nat} → Bank n → Nat → Byte → Bank n
  | _, cell _, _, b => cell b
  | n + 1, halves low high, a, b =>
    if a.testBit n then halves low (high.set a b) else halves (low.set a b) high

/-- The bytes in the order of their addresses, in front of `rest`. -/
def toListAppend : {n : Nat} → Bank n → List Byte → List Byte
  | _, cell b, rest => b :: rest
  | _, halves low high, rest => low.toListAppend (high.toListAppend rest)

/-- The bytes in the order of their addresses. -/
def toList (t : Bank n) : List Byte := t.toListAppend []

@[simp] theorem get_fill (b : Byte) (n a : Nat) : (fill b n).get a = b := by
  induction n with
  | zero => rfl
  | succ n ih => simp [fill, get, ih]

/-- Only the low `n` bits of an address count. -/
theorem get_congr (t : Bank n) {a a' : Nat} (h : ∀ i < n, a.testBit i = a'.testBit i) :
    t.get a = t.get a' := by
  induction t with
  | cell => rfl
  | @halves m low high ihl ihh =>
    have hlow : ∀ i < m, a.testBit i = a'.testBit i := fun i hi => h i (by omega)
    simp only [get, h m (by omega), ihl hlow, ihh hlow]

theorem get_set_self (t : Bank n) (a : Nat) (b : Byte) : (t.set a b).get a = b := by
  induction t with
  | cell => rfl
  | @halves m low high ihl ihh => by_cases h : a.testBit m <;> simp [set, get, h, ihl, ihh]

theorem get_set_of_testBit_ne (t : Bank n) {a a' : Nat} {i : Nat} (hi : i < n)
    (h : a.testBit i ≠ a'.testBit i) (b : Byte) : (t.set a b).get a' = t.get a' := by
  induction t with
  | cell => omega
  | @halves m low high ihl ihh =>
    rcases Nat.lt_succ_iff_lt_or_eq.1 hi with hlt | rfl
    · by_cases h₁ : a.testBit m <;> by_cases h₂ : a'.testBit m <;>
        simp [set, get, h₁, h₂, ihl hlt, ihh hlt]
    · by_cases h₁ : a.testBit i <;> by_cases h₂ : a'.testBit i <;> simp_all [set, get]

/-- A write is seen at its own address and nowhere else. -/
theorem get_set (t : Bank n) (a a' : BitVec n) (b : Byte) :
    (t.set a.toNat b).get a'.toNat = if a' = a then b else t.get a'.toNat := by
  split
  · next h => rw [h, get_set_self]
  · next h =>
    -- two different addresses differ in one of their bits
    obtain ⟨i, hi, h_ne⟩ : ∃ i, i < n ∧ a.getLsbD i ≠ a'.getLsbD i := by
      refine Classical.byContradiction fun h_eq => h (BitVec.eq_of_getLsbD_eq fun i hi => ?_)
      exact Classical.byContradiction fun h_ne => h_eq ⟨i, hi, Ne.symm h_ne⟩
    exact get_set_of_testBit_ne t hi h_ne b

/-- The highest bit of an address chooses a half, and the others an address within it. -/
theorem get_cons (low high : Bank n) (choice : Bool) (a : BitVec n) :
    (halves low high).get (BitVec.cons choice a).toNat
      = if choice then high.get a.toNat else low.get a.toNat := by
  have h_choice : (BitVec.cons choice a).toNat.testBit n = choice :=
    (BitVec.getLsbD_cons choice a n).trans (if_pos rfl)
  have h_rest : ∀ i < n, (BitVec.cons choice a).toNat.testBit i = a.toNat.testBit i := by
    intro i hi
    exact (BitVec.getLsbD_cons choice a i).trans (if_neg (Nat.ne_of_lt hi))
  rw [get, h_choice, get_congr high h_rest, get_congr low h_rest]

/-- A bank is determined by its bytes. -/
theorem ext {t u : Bank n} (h : ∀ a : BitVec n, t.get a.toNat = u.get a.toNat) : t = u := by
  induction t with
  | cell b =>
    cases u with
    | cell b' => exact congrArg cell (h 0)
  | @halves m low high ihl ihh =>
    cases u with
    | halves low' high' =>
      congr 1
      · refine ihl fun a => ?_
        have h_low := h (BitVec.cons false a)
        rwa [get_cons, get_cons, if_neg Bool.false_ne_true, if_neg Bool.false_ne_true] at h_low
      · refine ihh fun a => ?_
        have h_high := h (BitVec.cons true a)
        rwa [get_cons, get_cons, if_pos rfl, if_pos rfl] at h_high

end Bank

end Sm83
