import Mathlib.Algebra.Group.Nat.Defs
import Sm83.Arithmetic
import Sm83.Instruction
import Sm83.Registers

/-!
# Arithmetic that traps

Words and bytes wrap around, and where the processor does so it is meant. Elsewhere a program relies
on its numbers staying within their width: the carries of a sum are read off a wider sum, which must
not have a carry of its own. In `Arithmetic` such sums are natural numbers, and nothing can go wrong
with them.

This file computes them at the widths at which they are kept, with operations that **trap** if a
result does not fit: they have no value then. It goes through all of `Arithmetic` and through the
register pairs a second time, sum by sum and shift by shift, and says for each function that it has
a value after all, the one it has always had. The functions have the names that they have there, and
what wraps around on purpose is left as it is.

A sum that fits is the sum of the numbers (`exists_plus`). So the bounds come first in each proof,
each with its width, and what remains is about natural numbers.
-/

namespace Sm83.Checked

/-! ### Operations -/

section Operations

variable {w : Nat}

/-- The sum. It traps if the sum takes more bits than its terms have. -/
def plus (x y : BitVec w) : Option (BitVec w) :=
  if x.uaddOverflow y then none else some (x + y)

/-- The difference. It traps if more is taken away than there is. -/
def minus (x y : BitVec w) : Option (BitVec w) :=
  if x.usubOverflow y then none else some (x - y)

/-- The product. It traps if the product takes more bits than its factors have. -/
def times (x y : BitVec w) : Option (BitVec w) :=
  if x.umulOverflow y then none else some (x * y)

/-- What bits come to that are moved by `k` places. It traps if they are moved by their number or
further. -/
def moved (result : BitVec w) (k : Nat) : Option (BitVec w) := if k < w then some result else none

/-- The bits moved up. -/
def shiftLeft (x : BitVec w) (k : Nat) : Option (BitVec w) := moved (x <<< k) k

/-- The bits moved down. -/
def shiftRight (x : BitVec w) (k : Nat) : Option (BitVec w) := moved (x >>> k) k

/-- The bits moved down, with the sign filling up. -/
def shiftSigned (x : BitVec w) (k : Nat) : Option (BitVec w) := moved (x.sshiftRight k) k

/-! The operations trap right where their results leave the range, and nowhere else. -/

theorem plus_eq_none_iff {x y : BitVec w} : plus x y = none ↔ 2 ^ w ≤ x.toNat + y.toNat := by
  simp [plus, BitVec.uaddOverflow]

theorem minus_eq_none_iff {x y : BitVec w} : minus x y = none ↔ x.toNat < y.toNat := by
  simp [minus, BitVec.usubOverflow]

theorem times_eq_none_iff {x y : BitVec w} : times x y = none ↔ 2 ^ w ≤ x.toNat * y.toNat := by
  simp [times, BitVec.umulOverflow]

theorem moved_eq_none_iff {x : BitVec w} {k : Nat} : moved x k = none ↔ w ≤ k := by
  simp [moved]

theorem plus_of_lt {x y : BitVec w} (fits : x.toNat + y.toNat < 2 ^ w) :
    plus x y = some (x + y) := by
  have noTrap : ¬x.uaddOverflow y = true := by
    rw [BitVec.uaddOverflow, decide_eq_true_iff]
    exact Nat.not_le.2 fits
  rw [plus, if_neg noTrap]

/-- A sum that fits is the sum of the numbers. -/
theorem exists_plus {x y : BitVec w} (fits : x.toNat + y.toNat < 2 ^ w) :
    ∃ z, plus x y = some z ∧ z.toNat = x.toNat + y.toNat :=
  ⟨x + y, plus_of_lt fits, BitVec.toNat_add_of_lt fits⟩

/-- A sum of three numbers that fits has a first part that fits. -/
theorem exists_plus_plus {x y z : BitVec w} (fits : x.toNat + y.toNat + z.toNat < 2 ^ w) :
    ∃ s r, plus x y = some s ∧ plus s z = some r ∧ r.toNat = x.toNat + y.toNat + z.toNat := by
  obtain ⟨s, first, toNat_s⟩ := exists_plus (Nat.lt_of_le_of_lt (Nat.le_add_right _ _) fits)
  obtain ⟨r, second, toNat_r⟩ := exists_plus (x := s) (y := z) (by rwa [toNat_s])
  exact ⟨s, r, first, second, by rw [toNat_r, toNat_s]⟩

theorem minus_of_le {x y : BitVec w} (enough : y.toNat ≤ x.toNat) : minus x y = some (x - y) := by
  have noTrap : ¬x.usubOverflow y = true := by
    rw [BitVec.usubOverflow, decide_eq_true_iff]
    exact Nat.not_lt.2 enough
  rw [minus, if_neg noTrap]

theorem times_of_lt {x y : BitVec w} (fits : x.toNat * y.toNat < 2 ^ w) :
    times x y = some (x * y) := by
  have noTrap : ¬x.umulOverflow y = true := by
    rw [BitVec.umulOverflow, decide_eq_true_iff]
    exact Nat.not_le.2 fits
  rw [times, if_neg noTrap]

theorem shiftLeft_of_lt {k : Nat} (h : k < w) (x : BitVec w) : shiftLeft x k = some (x <<< k) :=
  if_pos h

/-- The lowest bits of a number, masked out, are what is left of it. -/
theorem toNat_and_ones {k : Nat} (h : k ≤ w) (x : BitVec w) :
    (x &&& BitVec.ofNat w (2 ^ k - 1)).toNat = x.toNat % 2 ^ k := by
  have pos := Nat.two_pow_pos k
  have le := Nat.pow_le_pow_right Nat.two_pos h
  have ones : (BitVec.ofNat w (2 ^ k - 1)).toNat = 2 ^ k - 1 :=
    Nat.mod_eq_of_lt (by omega)
  rw [BitVec.toNat_and, ones, Nat.and_two_pow_sub_one_eq_mod]

end Operations

/-! ### Words and their bytes -/

/-- The word with the given high and low bytes. -/
def join (high low : Byte) : Option Word := do
  return (← shiftLeft (high.setWidth 16) 8) ||| low.setWidth 16

/-- The high byte of a word. -/
def high (w : Word) : Option Byte := do
  return (← shiftRight w 8).setWidth 8

theorem join_eq (h l : Byte) : join h l = some (.ofBytes h l) := by
  have shifted : h.setWidth 16 <<< 8 ||| l.setWidth 16 = Word.ofBytes h l := by
    apply BitVec.eq_of_toNat_eq
    have h_lt := h.isLt
    have l_lt := l.isLt
    rw [BitVec.toNat_or, BitVec.toNat_shiftLeft, BitVec.toNat_setWidth_of_le (by decide),
      BitVec.toNat_setWidth_of_le (by decide), Nat.shiftLeft_eq, Word.toNat_ofBytes,
      Nat.mod_eq_of_lt (by omega), ← Nat.shiftLeft_eq, ← Nat.shiftLeft_add_eq_or_of_lt l_lt,
      Nat.shiftLeft_eq]
    omega
  rw [← shifted]
  rfl

@[simp] theorem high_eq (w : Word) : high w = some w.high := rfl

/-! ### Addition and subtraction of bytes -/

/-- The sum of two bytes and a carry. The carries are those of the low halves, in a byte, and of the
bytes, in a word. -/
def add (a n : Byte) (carry : Bool) : Option (Byte × Flags) := do
  let c := Byte.ofCarry carry
  let result := a + n + c
  let half ← plus (← plus (a &&& 0xF) (n &&& 0xF)) c
  let whole ← plus (← plus (a.setWidth 16) (n.setWidth 16)) (c.setWidth 16)
  return (result, .ofResult result (0xF < half) (0xFF < whole))

/-- The difference of two bytes and a borrow. What is taken away is added up in a byte for the low
halves, and in a word for the bytes. -/
def subtract (a n : Byte) (borrow : Bool) : Option (Byte × Flags) := do
  let c := Byte.ofCarry borrow
  let result := a - n - c
  let half ← plus (n &&& 0xF) c
  let whole ← plus (n.setWidth 16) (c.setWidth 16)
  return (result, .ofResult result (a &&& 0xF < half) (a.setWidth 16 < whole))

/-- The new accumulator and flags when the accumulator meets an operand. -/
def accumulate (op : Accumulation) (carry : Bool) (a n : Byte) : Option (Byte × Flags) :=
  match op with
  | .add => add a n false
  | .addCarry => add a n carry
  | .subtract => subtract a n false
  | .subtractCarry => subtract a n carry
  | .and => some (Arithmetic.conjoin a n)
  | .xor => some (Arithmetic.differ a n)
  | .or => some (Arithmetic.disjoin a n)
  | .compare => do return (a, (← subtract a n false).2)

section Bytes

variable (a n : Byte) (c : Bool)

theorem toNat_low_half : (n &&& 0xF).toNat = n.toNat % 16 :=
  toNat_and_ones (k := 4) (by decide) n

theorem toNat_carry_le : (Byte.ofCarry c).toNat ≤ 1 := by
  rw [Byte.toNat_ofCarry]
  exact Bool.toNat_le c

theorem toNat_widened (b : Byte) : (b.setWidth 16).toNat = b.toNat :=
  BitVec.toNat_setWidth_of_le (by decide)

/-- The low halves are at most `0xF` each. -/
theorem exists_nibbleSum : ∃ s half, plus (a &&& 0xF) (n &&& 0xF) = some s ∧
    plus s (Byte.ofCarry c) = some half ∧ half.toNat = Arithmetic.nibbleSum a n c := by
  have carry := toNat_carry_le c
  obtain ⟨s, half, first, second, sum⟩ :=
    exists_plus_plus (x := a &&& 0xF) (y := n &&& 0xF) (z := Byte.ofCarry c) (by
      rw [toNat_low_half, toNat_low_half]
      omega)
  refine ⟨s, half, first, second, ?_⟩
  rw [sum, toNat_low_half, toNat_low_half, Byte.toNat_ofCarry, Arithmetic.nibbleSum]

/-- The bytes are at most `0xFF` each, in a word. -/
theorem exists_byteSum : ∃ s whole, plus (a.setWidth 16) (n.setWidth 16) = some s ∧
    plus s ((Byte.ofCarry c).setWidth 16) = some whole ∧
    whole.toNat = Arithmetic.byteSum a n c := by
  have carry := toNat_carry_le c
  have a_lt := a.isLt
  have n_lt := n.isLt
  obtain ⟨s, whole, first, second, sum⟩ :=
    exists_plus_plus (x := a.setWidth 16) (y := n.setWidth 16) (z := (Byte.ofCarry c).setWidth 16)
      (by
        rw [toNat_widened, toNat_widened, toNat_widened]
        omega)
  refine ⟨s, whole, first, second, ?_⟩
  rw [sum, toNat_widened, toNat_widened, toNat_widened, Byte.toNat_ofCarry, Arithmetic.byteSum]

@[simp] theorem add_eq : add a n c = some (Arithmetic.add a n c) := by
  obtain ⟨s, half, h_s, h_half, halfSum⟩ := exists_nibbleSum a n c
  obtain ⟨t, whole, h_t, h_whole, wholeSum⟩ := exists_byteSum a n c
  have halfCarry : (0xF < half) = (0xF < Arithmetic.nibbleSum a n c) := by
    rw [BitVec.lt_def, halfSum]
    rfl
  have carry : (0xFF < whole) = (0xFF < Arithmetic.byteSum a n c) := by
    rw [BitVec.lt_def, wholeSum]
    rfl
  simp only [add, h_s, h_half, h_t, h_whole, Option.bind_eq_bind, Option.bind_some, halfCarry,
    carry]
  rfl

@[simp] theorem subtract_eq : subtract a n c = some (Arithmetic.subtract a n c) := by
  have carry := toNat_carry_le c
  have n_lt := n.isLt
  obtain ⟨half, h_half, halfSum⟩ := exists_plus (x := n &&& 0xF) (y := Byte.ofCarry c) (by
    rw [toNat_low_half]
    omega)
  obtain ⟨whole, h_whole, wholeSum⟩ :=
    exists_plus (x := n.setWidth 16) (y := (Byte.ofCarry c).setWidth 16) (by
      rw [toNat_widened, toNat_widened]
      omega)
  -- what is taken away is a sum with nothing as its first term
  have nibbles : Arithmetic.nibbleSum 0 n c = n.toNat % 16 + c.toNat := by
    simp [Arithmetic.nibbleSum]
  have bytes : Arithmetic.byteSum 0 n c = n.toNat + c.toNat := by simp [Arithmetic.byteSum]
  have halfCarry : (a &&& 0xF < half) = (a.toNat % 16 < Arithmetic.nibbleSum 0 n c) := by
    rw [BitVec.lt_def, halfSum, toNat_low_half, toNat_low_half, Byte.toNat_ofCarry, nibbles]
  have carry : (a.setWidth 16 < whole) = (a.toNat < Arithmetic.byteSum 0 n c) := by
    rw [BitVec.lt_def, wholeSum, toNat_widened, toNat_widened, toNat_widened, Byte.toNat_ofCarry,
      bytes]
  simp only [subtract, h_half, h_whole, Option.bind_eq_bind, Option.bind_some, halfCarry, carry]
  rfl

@[simp] theorem accumulate_eq (op : Accumulation) :
    accumulate op c a n = some (Arithmetic.accumulate op c a n) := by
  cases op with
  | add | addCarry => exact add_eq ..
  | subtract | subtractCarry => exact subtract_eq ..
  | compare =>
    rw [accumulate, subtract_eq]
    rfl
  | _ => rfl

end Bytes

/-! ### Addition of words -/

/-- The sum of two words. The carries are those of their lowest twelve bits, in a word, and of the
words, in twice a word. -/
def addWords (w n : Word) : Option (Word × Flags) := do
  let result := w + n
  let half ← plus (w &&& 0xFFF) (n &&& 0xFFF)
  let whole ← plus (w.setWidth 32) (n.setWidth 32)
  let top ← high result
  return (result,
    { zero := false
      sign := false
      halfCarry := 0xFFF < half
      parity := top.isEven
      carry := 0xFFFF < whole })

/-- The sum of a word and a signed byte. The carries are those of the low byte, in a word. -/
def addSigned (w : Word) (e : Byte) : Option (Word × Flags) := do
  let result := w + e.signed
  let half ← plus (w &&& 0xF) ((e &&& 0xF).setWidth 16)
  let whole ← plus (w &&& 0xFF) (e.setWidth 16)
  let top ← high result
  return (result,
    { zero := false
      sign := false
      halfCarry := 0xF < half
      parity := top.isEven
      carry := 0xFF < whole })

section Words

variable (w n : Word)

@[simp] theorem addWords_eq : addWords w n = some (Arithmetic.addWords w n) := by
  have w_lt := w.isLt
  have n_lt := n.isLt
  have low (v : Word) : (v &&& 0xFFF).toNat = v.toNat % 0x1000 :=
    toNat_and_ones (k := 12) (by decide) v
  have widened (v : Word) : (v.setWidth 32).toNat = v.toNat :=
    BitVec.toNat_setWidth_of_le (by decide)
  obtain ⟨half, h_half, halfSum⟩ := exists_plus (x := w &&& 0xFFF) (y := n &&& 0xFFF) (by
    rw [low, low]
    omega)
  obtain ⟨whole, h_whole, wholeSum⟩ := exists_plus (x := w.setWidth 32) (y := n.setWidth 32) (by
    rw [widened, widened]
    omega)
  have halfCarry : (0xFFF < half) = (0xFFF < w.toNat % 0x1000 + n.toNat % 0x1000) := by
    rw [BitVec.lt_def, halfSum, low, low]
    rfl
  have carry : (0xFFFF < whole) = (0xFFFF < w.toNat + n.toNat) := by
    rw [BitVec.lt_def, wholeSum, widened, widened]
    rfl
  simp only [addWords, h_half, h_whole, high_eq, Option.bind_eq_bind, Option.bind_some, halfCarry,
    carry]
  rfl

@[simp] theorem addSigned_eq (e : Byte) : addSigned w e = some (Arithmetic.addSigned w e) := by
  have e_lt := e.isLt
  have lowByte : (w &&& 0xFF).toNat = w.low.toNat := by
    rw [Word.toNat_low]
    exact toNat_and_ones (k := 8) (by decide) w
  have lowHalf : (w &&& 0xF).toNat = w.low.toNat % 16 := by
    rw [Word.toNat_low, Nat.mod_mod_of_dvd _ (by decide)]
    exact toNat_and_ones (k := 4) (by decide) w
  have lowHalf' : ((e &&& 0xF).setWidth 16).toNat = e.toNat % 16 := by
    rw [toNat_widened, toNat_low_half]
  have low_lt := w.low.isLt
  obtain ⟨half, h_half, halfSum⟩ :=
    exists_plus (x := w &&& 0xF) (y := (e &&& 0xF).setWidth 16) (by
      rw [lowHalf, lowHalf']
      omega)
  obtain ⟨whole, h_whole, wholeSum⟩ := exists_plus (x := w &&& 0xFF) (y := e.setWidth 16) (by
    rw [lowByte, toNat_widened]
    omega)
  have halfCarry : (0xF < half) = (0xF < Arithmetic.nibbleSum w.low e false) := by
    rw [BitVec.lt_def, halfSum, lowHalf, lowHalf']
    rfl
  have carry : (0xFF < whole) = (0xFF < Arithmetic.byteSum w.low e false) := by
    rw [BitVec.lt_def, wholeSum, lowByte, toNat_widened]
    rfl
  simp only [addSigned, h_half, h_whole, high_eq, Option.bind_eq_bind, Option.bind_some, halfCarry,
    carry]
  rfl

end Words

/-! ### Decimal adjustment -/

/-- The accumulator, in a word, with its low decimal digit corrected. -/
def correctLow (f : Flags) (a : Byte) : Option Word :=
  if 9 < a.setWidth 16 &&& (0xF : Word) ∨ f.halfCarry then plus (a.setWidth 16) 0x06
  else some (a.setWidth 16)

/-- The accumulator, in a word, with its high decimal digit corrected if it needs to be. -/
def correctHigh (corrects : Bool) (low : Word) : Option Word :=
  if corrects then plus low 0x60 else some low

/-- Corrects a binary sum of two packed decimal bytes. -/
def decimalAdjust (f : Flags) (a : Byte) : Option (Byte × Flags) := do
  let low ← correctLow f a
  let corrects := 0x9F < low || f.carry
  let result := (← correctHigh corrects low).setWidth 8
  return (result, .ofResult result false corrects)

section Decimal

variable (f : Flags) (a : Byte)

theorem exists_correctLow :
    ∃ low, correctLow f a = some low ∧ low.toNat = Arithmetic.correctLow f a := by
  have a_lt := a.isLt
  have digit : 9 < a.setWidth 16 &&& (0xF : Word) ↔ 9 < a.toNat % 16 := by
    rw [BitVec.lt_def, ← toNat_widened a]
    exact iff_of_eq (congrArg (9 < ·) (toNat_and_ones (k := 4) (by decide) (a.setWidth 16)))
  unfold correctLow Arithmetic.correctLow
  by_cases corrects : 9 < a.toNat % 16 ∨ f.halfCarry
  · rw [if_pos (corrects.imp_left digit.2), if_pos corrects, ← toNat_widened a]
    exact exists_plus (by
      rw [toNat_widened]
      show a.toNat + 0x06 < 0x10000
      omega)
  · rw [if_neg fun h => corrects (h.imp_left digit.1), if_neg corrects]
    exact ⟨_, rfl, toNat_widened a⟩

theorem correctLow_le : Arithmetic.correctLow f a ≤ 0x105 := by
  have a_lt := a.isLt
  unfold Arithmetic.correctLow
  split <;> omega

theorem exists_correctHigh {low : Word} (le : low.toNat ≤ 0x105) (corrects : Bool) :
    ∃ whole, correctHigh corrects low = some whole ∧
      whole.toNat = if corrects then low.toNat + 0x60 else low.toNat := by
  cases corrects with
  | true =>
    exact exists_plus (by
      show low.toNat + 0x60 < 0x10000
      omega)
  | false => exact ⟨low, rfl, rfl⟩

@[simp] theorem decimalAdjust_eq : decimalAdjust f a = some (Arithmetic.decimalAdjust f a) := by
  obtain ⟨low, h_low, toNat_low⟩ := exists_correctLow f a
  have corrects : (decide (0x9F < low) || f.carry) = Arithmetic.correctsHigh f a := by
    rw [Arithmetic.correctsHigh, ← toNat_low]
    rfl
  obtain ⟨whole, h_whole, toNat_whole⟩ :=
    exists_correctHigh (toNat_low ▸ correctLow_le f a) (Arithmetic.correctsHigh f a)
  have result : whole.setWidth 8 = BitVec.ofNat 8 (if Arithmetic.correctsHigh f a then
      Arithmetic.correctLow f a + 0x60 else Arithmetic.correctLow f a) := by
    rw [← toNat_low, ← toNat_whole, BitVec.ofNat_toNat]
  simp only [decimalAdjust, h_low, corrects, h_whole, result, Option.bind_eq_bind,
    Option.bind_some]
  rfl

end Decimal

/-! ### Bits -/

/-- Rotates by one bit. -/
def rotate (r : Rotation) (carry : Bool) (n : Byte) : Option (Byte × Bool) :=
  match r with
  | .left => some (n.rotateLeft 1, n.getLsbD 7)
  | .right => some (n.rotateRight 1, n.getLsbD 0)
  | .leftThroughCarry => do return ((← shiftLeft n 1) ||| Byte.ofCarry carry, n.getLsbD 7)
  | .rightThroughCarry => do
    return ((← shiftRight n 1) ||| (← shiftLeft (Byte.ofCarry carry) 7), n.getLsbD 0)

/-- Rotates, shifts or exchanges halves. -/
def move (s : Shift) (carry : Bool) (n : Byte) : Option (Byte × Bool) :=
  match s with
  | .rotate r => rotate r carry n
  | .arithmeticLeft => do return (← shiftLeft n 1, n.getLsbD 7)
  | .arithmeticRight => do return (← shiftSigned n 1, n.getLsbD 0)
  | .swap => do return ((← shiftLeft n 4) ||| (← shiftRight n 4), false)
  | .logicalRight => do return (← shiftRight n 1, n.getLsbD 0)

/-- The result of `move` with the flags that describe it. -/
def shift (s : Shift) (carry : Bool) (n : Byte) : Option (Byte × Flags) := do
  let (result, out) ← move s carry n
  return (result, .ofResult result false out)

/-- Rotates the accumulator. -/
def rotateAccumulator (r : Rotation) (carry : Bool) (a : Byte) : Option (Byte × Flags) := do
  let (result, out) ← rotate r carry a
  return (result, { Flags.clear with carry := out })

/-- The byte in which only one bit is set. -/
def mask (bit : Fin 8) : Option Byte := shiftLeft 1 bit.val

/-- Lets the flags describe a byte in which only one bit is kept. -/
def testBit (f : Flags) (bit : Fin 8) (n : Byte) : Option Flags := do
  return .ofResult (n &&& (← mask bit)) true f.carry

section Bits

variable (carry : Bool) (n : Byte)

@[simp] theorem rotate_eq (r : Rotation) :
    rotate r carry n = some (Arithmetic.rotate r carry n) := by
  cases r <;> rfl

@[simp] theorem move_eq (s : Shift) : move s carry n = some (Arithmetic.move s carry n) := by
  cases s with
  | rotate r => exact rotate_eq carry n r
  | _ => rfl

@[simp] theorem shift_eq (s : Shift) : shift s carry n = some (Arithmetic.shift s carry n) := by
  rw [shift, move_eq]
  rfl

@[simp] theorem rotateAccumulator_eq (r : Rotation) :
    rotateAccumulator r carry n = some (Arithmetic.rotateAccumulator r carry n) := by
  rw [rotateAccumulator, rotate_eq]
  rfl

/-- A byte has a bit for each of the eight numbers that the decoder finds. -/
@[simp] theorem mask_eq (bit : Fin 8) : mask bit = some (Arithmetic.mask bit) :=
  shiftLeft_of_lt bit.isLt 1

@[simp] theorem testBit_eq (f : Flags) (bit : Fin 8) :
    testBit f bit n = some (Arithmetic.testBit f bit n) := by
  rw [testBit, mask_eq]
  rfl

end Bits

/-! ### Register pairs -/

/-- The contents of a pair. -/
def pair (r : Registers) (p : Pair) : Option Word :=
  match p with
  | .bc => join r.b r.c
  | .de => join r.d r.e
  | .hl => join r.h r.l
  | .sp => some r.sp

/-- The register file with one pair replaced. -/
def setPair (r : Registers) (p : Pair) (w : Word) : Option Registers :=
  match p with
  | .bc => do return { r with b := ← high w, c := w.low }
  | .de => do return { r with d := ← high w, e := w.low }
  | .hl => do return { r with h := ← high w, l := w.low }
  | .sp => some { r with sp := w }

/-- The contents of a pair that can be pushed. -/
def stackPair (r : Registers) (p : StackPair) : Option Word :=
  match p with
  | .bc => pair r .bc
  | .de => pair r .de
  | .hl => pair r .hl
  | .af => join r.a r.flags.pack

/-- The register file with a popped pair replaced. -/
def setStackPair (r : Registers) (p : StackPair) (w : Word) : Option Registers :=
  match p with
  | .bc => setPair r .bc w
  | .de => setPair r .de w
  | .hl => setPair r .hl w
  | .af => do return { r with a := ← high w, flags := .unpack w.low }

/-- The address that a pointer holds. -/
def pointer (r : Registers) (p : Pointer) : Option Word :=
  match p with
  | .bc => pair r .bc
  | .de => pair r .de
  | .hlIncrement | .hlDecrement => pair r .hl

/-- The register file after a pointer has been used. -/
def advance (r : Registers) (p : Pointer) : Option Registers :=
  match p with
  | .bc | .de => some r
  | .hlIncrement => do setPair r .hl ((← pair r .hl) + 1)
  | .hlDecrement => do setPair r .hl ((← pair r .hl) - 1)

section Pairs

variable (r : Registers)

@[simp] theorem pair_eq (p : Pair) : pair r p = some (r.pair p) := by
  cases p with
  | sp => rfl
  | _ => exact join_eq ..

@[simp] theorem setPair_eq (p : Pair) (w : Word) : setPair r p w = some (r.setPair p w) := by
  cases p <;> rfl

@[simp] theorem stackPair_eq (p : StackPair) : stackPair r p = some (r.stackPair p) := by
  cases p <;> exact join_eq ..

@[simp] theorem setStackPair_eq (p : StackPair) (w : Word) :
    setStackPair r p w = some (r.setStackPair p w) := by
  cases p <;> rfl

@[simp] theorem pointer_eq (p : Pointer) : pointer r p = some (r.pointer p) := by
  cases p <;> exact join_eq ..

@[simp] theorem advance_eq (p : Pointer) : advance r p = some (r.advance p) := by
  cases p with
  | bc | de => rfl
  | hlIncrement | hlDecrement =>
    rw [advance, pair_eq]
    rfl

end Pairs

/-! ### Vectors -/

/-- The address that a restart calls. -/
def restartTarget (vector : Fin 8) : Option Byte := times 8 (.ofNat 8 vector.val)

@[simp] theorem restartTarget_eq (vector : Fin 8) :
    restartTarget vector = some (Sm83.restartTarget vector) := by
  have vector_lt := vector.isLt
  have toNat_vector : (BitVec.ofNat 8 vector.val).toNat = vector.val :=
    Nat.mod_eq_of_lt (by omega)
  rw [restartTarget, times_of_lt, Sm83.restartTarget, BitVec.ofNat_mul]
  · rfl
  · rw [toNat_vector]
    show 8 * vector.val < 0x100
    omega

end Sm83.Checked
