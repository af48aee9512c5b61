import Mathlib.Data.List.Basic
import Sm83.Proofs.LongSum

/-!
# Long shifts

A number of several bytes is shifted by one bit byte by byte: to the left from the lowest byte on,
to the right from the highest one down, and the bit that leaves one byte enters the next by way of
the carry. Only at the beginning another operation may stand, which decides what enters the number.

A shift to the left adds every byte to itself, so it is a sum of the kind that `LongSum` describes
(`number_longLeft`). A shift to the right runs the other way through the bytes and has an induction
of its own (`number_chain_right`). The two equations say of each number and carry what they are
shifted to, and since a number of a given length determines its bytes (`number_inj`), it follows
from them alone that the two shifts undo each other.

The operations that may stand at the beginning differ from a rotation through the carry in what they
take for the carry: a clear one, or the highest bit of the byte itself (`moved_arithmeticRight`). So
they need no induction. In the last case the number is read in two's complement.

The main statement is `shift_chains`.
-/

namespace Sm83.Arithmetic

/-! ### Single bytes -/

/-- A shift of a byte that takes its carry from the flags it finds. -/
def moved (s : Shift) (n : Byte) (f : Flags) : Byte × Flags := shift s f.carry n

section Bytes

variable (n : Byte) (f : Flags) {g : Flags}

/-- A rotation to the left doubles a byte; the carry enters at the bottom and leaves at the top. -/
theorem moved_left_balance :
    (moved (.rotate .leftThroughCarry) n f).1.toNat
        + 256 * (moved (.rotate .leftThroughCarry) n f).2.carry.toNat
      = 2 * n.toNat + f.carry.toNat := by
  have h_rotate : ∀ (n : Byte) (c : Bool), (rotate .leftThroughCarry c n).1.toNat
      + 256 * (rotate .leftThroughCarry c n).2.toNat = 2 * n.toNat + c.toNat := by
    decide
  exact h_rotate n f.carry

/-- A rotation to the right halves a byte; the carry enters at the top and leaves at the bottom. -/
theorem moved_right_balance :
    2 * (moved (.rotate .rightThroughCarry) n f).1.toNat
        + (moved (.rotate .rightThroughCarry) n f).2.carry.toNat
      = n.toNat + 256 * f.carry.toNat := by
  have h_rotate : ∀ (n : Byte) (c : Bool), 2 * (rotate .rightThroughCarry c n).1.toNat
      + (rotate .rightThroughCarry c n).2.toNat = n.toNat + 256 * c.toNat := by
    decide
  exact h_rotate n f.carry

theorem moved_arithmeticLeft (h : g.carry = false) :
    moved .arithmeticLeft n f = moved (.rotate .leftThroughCarry) n g := by
  simp [moved, shift, move, rotate, h]

theorem moved_logicalRight (h : g.carry = false) :
    moved .logicalRight n f = moved (.rotate .rightThroughCarry) n g := by
  simp [moved, shift, move, rotate, h]

/-- An arithmetic shift to the right takes the highest bit of the byte for the carry. -/
theorem moved_arithmeticRight (h : g.carry = n.msb) :
    moved .arithmeticRight n f = moved (.rotate .rightThroughCarry) n g := by
  have h_bits : ∀ n : Byte, n.sshiftRight 1 = n >>> 1 ||| Byte.ofCarry n.msb <<< 7 := by
    decide
  simp [moved, shift, move, rotate, h, h_bits]

end Bytes

/-! ### Numbers -/

theorem number_inj {bs bs' : List Byte} (h_length : bs.length = bs'.length) :
    number bs = number bs' ↔ bs = bs' := by
  refine ⟨fun h => ?_, congrArg number⟩
  have h_lt (bs : List Byte) : ∀ d ∈ bs.map BitVec.toNat, d < 256 := by
    intro d hd
    obtain ⟨b, -, rfl⟩ := List.mem_map.1 hd
    exact b.isLt
  -- digits below the base are determined by the number, and a byte is by its digit
  have h_digits := Nat.ofDigits_inj_of_len_eq (by decide) (by simpa using h_length) (h_lt bs)
    (h_lt bs') h
  exact List.map_injective_iff.2 (fun _ _ => BitVec.eq_of_toNat_eq) h_digits

theorem number_reverse_cons (b : Byte) (bs : List Byte) :
    number (b :: bs).reverse = number bs.reverse + 256 ^ bs.length * b.toNat := by
  have h_digits := Nat.ofDigits_reverse_cons (bs.map BitVec.toNat) b.toNat (b := 256)
  rwa [← List.map_cons, ← List.map_reverse, ← List.map_reverse, List.length_map] at h_digits

/-- The number that bytes stand for in two's complement, the lowest byte first. -/
def signedNumber (bs : List Byte) : ℤ := Int.bmod (number bs) (256 ^ bs.length)

/-- Numbers in the upper half are negative. -/
theorem signedNumber_eq (bs : List Byte) :
    signedNumber bs = if 2 * number bs < 256 ^ bs.length then (number bs : ℤ)
      else number bs - (256 ^ bs.length : ℕ) := by
  have h_lt := number_lt bs
  have h_mod : (number bs : ℤ) % (256 ^ bs.length : ℕ) = number bs :=
    Int.emod_eq_of_lt (Int.natCast_nonneg _) (Int.ofNat_lt.2 h_lt)
  rw [signedNumber, Int.bmod_def, h_mod]
  generalize 256 ^ bs.length = size at h_lt ⊢
  split <;> split <;> omega

/-- The highest bit tells the halves apart. -/
theorem msb_iff (low : List Byte) (top : Byte) :
    top.msb = true ↔ 256 ^ (low ++ [top]).length ≤ 2 * number (low ++ [top]) := by
  have h_number : number (low ++ [top]) = number low + 256 ^ low.length * top.toNat := by
    have h_reverse := number_reverse_cons top low.reverse
    rwa [List.reverse_cons, List.reverse_reverse, List.length_reverse] at h_reverse
  have h_msb : top.msb = true ↔ 128 ≤ top.toNat := by
    rw [BitVec.msb_eq_decide, decide_eq_true_eq]
  have h_lt := number_lt low
  rw [h_msb, h_number, List.length_append, List.length_singleton, Nat.pow_succ]
  -- the lower bytes together are less than one in the highest byte
  generalize 256 ^ low.length = size at h_lt ⊢
  constructor
  · intro h
    have := Nat.mul_le_mul_left size h
    omega
  · intro h
    by_contra h_small
    have := Nat.mul_le_mul_left size (show top.toNat ≤ 127 by omega)
    omega

/-! ### Shifts of numbers -/

/-- One operation for the first byte and another one for the others. -/
def opening (first rest : Shift) : List Byte → List (Flags → Byte × Flags)
  | [] => []
  | b :: bs => moved first b :: bs.map (moved rest)

/-- Shifts a number to the left, from the lowest byte on. -/
def longLeft (first : Shift) (bs : List Byte) (f : Flags) : List Byte × Flags :=
  chain (opening first (.rotate .leftThroughCarry) bs) f

/-- Shifts a number to the right, from the highest byte down. The bytes of the result are put back
into their order. -/
def longRight (first : Shift) (bs : List Byte) (f : Flags) : List Byte × Flags :=
  let r := chain (opening first (.rotate .rightThroughCarry) bs.reverse) f
  (r.1.reverse, r.2)

theorem opening_self (s : Shift) (bs : List Byte) : opening s s bs = bs.map (moved s) := by
  cases bs <;> rfl

@[simp] theorem length_opening (first rest : Shift) (bs : List Byte) :
    (opening first rest bs).length = bs.length := by
  cases bs with
  | nil => rfl
  | cons b bs => rw [opening, List.length_cons, List.length_map, List.length_cons]

@[simp] theorem length_longLeft (first : Shift) (bs : List Byte) (f : Flags) :
    (longLeft first bs f).1.length = bs.length := by
  simp [longLeft]

@[simp] theorem length_longRight (first : Shift) (bs : List Byte) (f : Flags) :
    (longRight first bs f).1.length = bs.length := by
  simp [longRight]

section Rotations

variable (bs : List Byte) (f : Flags)

/-- A shift to the left adds a number to itself. -/
theorem number_longLeft :
    number (longLeft (.rotate .leftThroughCarry) bs f).1
        + 256 ^ bs.length * (longLeft (.rotate .leftThroughCarry) bs f).2.carry.toNat
      = 2 * number bs + f.carry.toNat := by
  rw [longLeft, opening_self, number, number, Nat.mul_ofDigits, List.map_map]
  exact ofDigits_chain (fun f => f.carry.toNat) (fun n _ f => moved_left_balance n f) f

/-- In a shift to the right, what leaves the lowest byte is what the number loses, and what enters
the highest one is worth as much as there are bytes. The highest byte stands first here. -/
theorem number_chain_right :
    2 * number (chain (bs.map (moved (.rotate .rightThroughCarry))) f).1.reverse
        + (chain (bs.map (moved (.rotate .rightThroughCarry))) f).2.carry.toNat
      = number bs.reverse + 256 ^ bs.length * f.carry.toNat := by
  induction bs generalizing f with
  | nil => simp
  | cons b bs ih =>
    have h_first := moved_right_balance b f
    have h_rest := ih (moved (.rotate .rightThroughCarry) b f).2
    rw [List.map_cons, chain_cons, number_reverse_cons, number_reverse_cons, length_chain,
      List.length_map, List.length_cons]
    generalize chain (bs.map (moved (.rotate .rightThroughCarry)))
      (moved (.rotate .rightThroughCarry) b f).2 = rest at h_rest ⊢
    generalize moved (.rotate .rightThroughCarry) b f = top at h_first h_rest ⊢
    -- what leaves the highest byte enters the others
    calc 2 * (number rest.1.reverse + 256 ^ bs.length * top.1.toNat) + rest.2.carry.toNat
        = (2 * number rest.1.reverse + rest.2.carry.toNat)
          + 256 ^ bs.length * (2 * top.1.toNat) := by ring
      _ = number bs.reverse + 256 ^ bs.length * (2 * top.1.toNat + top.2.carry.toNat) := by
        rw [h_rest]; ring
      _ = number bs.reverse + 256 ^ bs.length * b.toNat
          + 256 ^ (bs.length + 1) * f.carry.toNat := by
        rw [h_first]; ring

theorem number_longRight :
    2 * number (longRight (.rotate .rightThroughCarry) bs f).1
        + (longRight (.rotate .rightThroughCarry) bs f).2.carry.toNat
      = number bs + 256 ^ bs.length * f.carry.toNat := by
  have h_chain := number_chain_right bs.reverse f
  rwa [← opening_self, List.reverse_reverse, List.length_reverse] at h_chain

end Rotations

section Undo

variable {bs bs' : List Byte} {c c' : Bool}

theorem eq_of_two_mul_number (h_length : bs.length = bs'.length)
    (h : 2 * number bs + c.toNat = 2 * number bs' + c'.toNat) : bs = bs' ∧ c = c' := by
  -- the carry makes the number odd
  have h_carry : c = c' := by
    cases c <;> cases c' <;> simp only [Bool.toNat_false, Bool.toNat_true] at h <;>
      first | rfl | omega
  subst h_carry
  exact ⟨(number_inj h_length).1 (by omega), rfl⟩

theorem eq_of_number_add (h_length : bs.length = bs'.length)
    (h : number bs + 256 ^ bs'.length * c.toNat = number bs' + 256 ^ bs'.length * c'.toNat) :
    bs = bs' ∧ c = c' := by
  have h_lt := number_lt bs
  have h_lt' := number_lt bs'
  rw [h_length] at h_lt
  -- neither number reaches what the carry is worth
  have h_carry : c = c' := by
    cases c <;> cases c' <;> simp only [Bool.toNat_false, Bool.toNat_true] at h <;>
      first | rfl | omega
  subst h_carry
  exact ⟨(number_inj h_length).1 (Nat.add_right_cancel h), rfl⟩

variable {f g : Flags}

/-- Shifted to the left and back to the right, a number and the carry are what they were. -/
theorem longRight_longLeft (h : g.carry = (longLeft (.rotate .leftThroughCarry) bs f).2.carry) :
    let r := longLeft (.rotate .leftThroughCarry) bs f
    (longRight (.rotate .rightThroughCarry) r.1 g).1 = bs ∧
      (longRight (.rotate .rightThroughCarry) r.1 g).2.carry = f.carry := by
  intro r
  have h_length : r.1.length = bs.length := length_longLeft _ bs f
  have h_right := number_longRight r.1 g
  rw [h, h_length, number_longLeft] at h_right
  exact eq_of_two_mul_number ((length_longRight _ _ _).trans h_length) h_right

/-- Shifted to the right and back to the left, a number and the carry are what they were. -/
theorem longLeft_longRight (h : g.carry = (longRight (.rotate .rightThroughCarry) bs f).2.carry) :
    let r := longRight (.rotate .rightThroughCarry) bs f
    (longLeft (.rotate .leftThroughCarry) r.1 g).1 = bs ∧
      (longLeft (.rotate .leftThroughCarry) r.1 g).2.carry = f.carry := by
  intro r
  have h_length : r.1.length = bs.length := length_longRight _ bs f
  have h_left := number_longLeft r.1 g
  rw [h, h_length, number_longRight] at h_left
  exact eq_of_number_add ((length_longLeft _ _ _).trans h_length) h_left

end Undo

/-! ### Other operations at the beginning -/

section Opening

variable {bs : List Byte} (f : Flags) {g : Flags}

theorem chain_opening {first rest : Shift} {b : Byte}
    (h : moved first b f = moved rest b g) :
    chain (opening first rest (b :: bs)) f = chain (opening rest rest (b :: bs)) g := by
  simp only [opening, chain_cons, h]

theorem longLeft_arithmeticLeft (h : bs ≠ []) (h_carry : g.carry = false) :
    longLeft .arithmeticLeft bs f = longLeft (.rotate .leftThroughCarry) bs g := by
  cases bs with
  | nil => exact absurd rfl h
  | cons b bs => exact chain_opening f (moved_arithmeticLeft b f h_carry)

/-- In a shift to the right the highest byte, which stands last, is the first to be met. -/
theorem longRight_append {first : Shift} {low : List Byte} {top : Byte}
    (h : moved first top f = moved (.rotate .rightThroughCarry) top g) :
    longRight first (low ++ [top]) f = longRight (.rotate .rightThroughCarry) (low ++ [top]) g := by
  simp only [longRight, List.reverse_append, List.reverse_singleton, List.singleton_append,
    chain_opening f h]

theorem longRight_logicalRight (h : bs ≠ []) (h_carry : g.carry = false) :
    longRight .logicalRight bs f = longRight (.rotate .rightThroughCarry) bs g := by
  obtain ⟨low, top, rfl⟩ := (List.eq_nil_or_concat' bs).resolve_left h
  exact longRight_append f (moved_logicalRight top f h_carry)

/-- A shift to the right that begins with an arithmetic one halves the number that the bytes stand
for in two's complement. -/
theorem signedNumber_longRight (h : bs ≠ []) :
    2 * signedNumber (longRight .arithmeticRight bs f).1
        + (longRight .arithmeticRight bs f).2.carry.toNat
      = signedNumber bs := by
  obtain ⟨low, top, rfl⟩ := (List.eq_nil_or_concat' bs).resolve_left h
  have h_msb := msb_iff low top
  have h_lt := number_lt (low ++ [top])
  have h_right := number_longRight (low ++ [top]) { f with carry := top.msb }
  have h_carry := Bool.toNat_lt (longRight .arithmeticRight (low ++ [top]) f).2.carry
  rw [signedNumber_eq, signedNumber_eq, length_longRight]
  rw [← longRight_append f (moved_arithmeticRight top f rfl)] at h_right
  generalize longRight .arithmeticRight (low ++ [top]) f = r at h_right h_carry ⊢
  generalize 256 ^ (low ++ [top]).length = size at h_msb h_lt h_right ⊢
  -- the highest bit enters again, so the result is in the same half
  cases h_top : top.msb with
  | true =>
    rw [h_top, Bool.toNat_true] at h_right
    have := h_msb.1 h_top
    rw [if_neg (by omega), if_neg (by omega)]
    omega
  | false =>
    rw [h_top, Bool.toNat_false] at h_right
    have := mt h_msb.2 (Bool.eq_false_iff.1 h_top)
    rw [if_pos (by omega), if_pos (by omega)]
    omega

end Opening

/-- **Shifts of any length.** Rotated to the left through the carry from the lowest byte on, a
number is doubled; rotated to the right from the highest byte down, it is halved. The carry enters
at the one end and what leaves at the other end is the new carry, so the two undo each other. If the
first operation is a shift that lets nothing in, all is as with a clear carry, whatever carry is
found. If it is an arithmetic shift to the right, the number is halved in two's complement, and
rounded down. -/
theorem shift_chains (bs : List Byte) (h : bs ≠ []) (f : Flags) :
    (let r := longLeft (.rotate .leftThroughCarry) bs f
     r.1.length = bs.length ∧
      number r.1 + 256 ^ bs.length * r.2.carry.toNat = 2 * number bs + f.carry.toNat ∧
      ∀ g, g.carry = r.2.carry →
        (longRight (.rotate .rightThroughCarry) r.1 g).1 = bs ∧
        (longRight (.rotate .rightThroughCarry) r.1 g).2.carry = f.carry) ∧
    (let r := longRight (.rotate .rightThroughCarry) bs f
     r.1.length = bs.length ∧
      2 * number r.1 + r.2.carry.toNat = number bs + 256 ^ bs.length * f.carry.toNat ∧
      ∀ g, g.carry = r.2.carry →
        (longLeft (.rotate .leftThroughCarry) r.1 g).1 = bs ∧
        (longLeft (.rotate .leftThroughCarry) r.1 g).2.carry = f.carry) ∧
    (let r := longLeft .arithmeticLeft bs f
     r.1.length = bs.length ∧
      number r.1 + 256 ^ bs.length * r.2.carry.toNat = 2 * number bs ∧
      ∀ g, g.carry = false → r = longLeft (.rotate .leftThroughCarry) bs g) ∧
    (let r := longRight .logicalRight bs f
     r.1.length = bs.length ∧ 2 * number r.1 + r.2.carry.toNat = number bs ∧
      ∀ g, g.carry = false → r = longRight (.rotate .rightThroughCarry) bs g) ∧
    (let r := longRight .arithmeticRight bs f
     r.1.length = bs.length ∧ signedNumber r.1 = signedNumber bs / 2 ∧
      (r.2.carry.toNat : ℤ) = signedNumber bs % 2) := by
  refine ⟨⟨length_longLeft _ bs f, number_longLeft bs f, fun g => longRight_longLeft⟩,
    ⟨length_longRight _ bs f, number_longRight bs f, fun g => longLeft_longRight⟩,
    ⟨length_longLeft _ bs f, ?_, fun g => longLeft_arithmeticLeft f h⟩,
    ⟨length_longRight _ bs f, ?_, fun g => longRight_logicalRight f h⟩,
    length_longRight _ bs f, ?_⟩
  · rw [longLeft_arithmeticLeft f h (g := Flags.clear) rfl]
    exact number_longLeft bs Flags.clear
  · rw [longRight_logicalRight f h (g := Flags.clear) rfl]
    exact number_longRight bs Flags.clear
  · have h_signed := signedNumber_longRight f h
    have h_carry := Bool.toNat_lt (longRight .arithmeticRight bs f).2.carry
    omega

/-- `0x8081` is negative in two's complement. Half of it is rounded down, and the two shifts to the
right part at the highest bit. -/
theorem shift_chains_of_negative :
    let bs : List Byte := [0x81, 0x80]
    bs ≠ [] ∧
      (longRight .arithmeticRight bs Flags.clear).1 = [0x40, 0xC0] ∧
      signedNumber [0x40, 0xC0] = signedNumber bs / 2 ∧
      (longRight .logicalRight bs Flags.clear).1 = [0x40, 0x40] ∧
      2 * number [0x40, 0x40] + 1 = number bs := by
  intro bs
  have h_ne : bs ≠ [] := List.cons_ne_nil _ _
  obtain ⟨-, -, -, ⟨-, h_logical, -⟩, -, h_arithmetic, -⟩ := shift_chains bs h_ne Flags.clear
  exact ⟨h_ne, by decide, h_arithmetic, by decide, h_logical⟩

end Sm83.Arithmetic
