import Sm83.Flags

/-!
# Arithmetic

The operations on bytes and words, with the flags they leave. Nothing here touches a register
or memory. An operation takes from the old flags only what it uses: `add` and `subtract` take a
carry, `increment`, `decrement` and `testBit` take the flags because they hand the carry on.

Carries are read off sums of natural numbers. Those sums are definitions of their own
(`byteSum`, `nibbleSum`, `correctLow`), so that their size can be bounded.
-/

namespace Sm83.Arithmetic

/-! ### Addition and subtraction of bytes -/

/-- Two bytes and a carry added as numbers. -/
def byteSum (a n : Byte) (carry : Bool) : Nat := a.toNat + n.toNat + carry.toNat

/-- The low halves of two bytes and a carry added as numbers. -/
def nibbleSum (a n : Byte) (carry : Bool) : Nat := a.toNat % 16 + n.toNat % 16 + carry.toNat

/-- The sum of two bytes and a carry. -/
def add (a n : Byte) (carry : Bool) : Byte × Flags :=
  let result := a + n + .ofCarry carry
  (result, .ofResult result (0xF < nibbleSum a n carry) (0xFF < byteSum a n carry))

/-- The difference of two bytes and a borrow. The half-carry tells that the low half of the
minuend is too small for what is taken from it, the carry that the whole byte is. -/
def subtract (a n : Byte) (borrow : Bool) : Byte × Flags :=
  let result := a - n - .ofCarry borrow
  (result, .ofResult result (a.toNat % 16 < nibbleSum 0 n borrow) (a.toNat < byteSum 0 n borrow))

/-! ### Logic -/

/-- The bits that both bytes have. The half-carry is always set. -/
def conjoin (a n : Byte) : Byte × Flags := (a &&& n, .ofResult (a &&& n) true false)

/-- The bits that one of the bytes has. -/
def disjoin (a n : Byte) : Byte × Flags := (a ||| n, .ofResult (a ||| n) false false)

/-- The bits in which the bytes differ. -/
def differ (a n : Byte) : Byte × Flags := (a ^^^ n, .ofResult (a ^^^ n) false false)

/-- The new accumulator and flags when the accumulator `a` meets the operand `n`. A comparison
subtracts and keeps the accumulator. -/
def accumulate (op : Accumulation) (carry : Bool) (a n : Byte) : Byte × Flags :=
  match op with
  | .add => add a n false
  | .addCarry => add a n carry
  | .subtract => subtract a n false
  | .subtractCarry => subtract a n carry
  | .and => conjoin a n
  | .xor => differ a n
  | .or => disjoin a n
  | .compare => (a, (subtract a n false).2)

/-! ### Counting -/

/-- One more than a byte. The half-carry tells that the low half has wrapped around. -/
def increment (f : Flags) (n : Byte) : Byte × Flags :=
  (n + 1, .ofResult (n + 1) ((n + 1).toNat % 16 == 0) f.carry)

/-- One less than a byte. The half-carry tells that the low half has wrapped around. -/
def decrement (f : Flags) (n : Byte) : Byte × Flags :=
  (n - 1, .ofResult (n - 1) ((n - 1).toNat % 16 == 0xF) f.carry)

/-! ### Addition of words -/

/-- The sum of two words. The carries leave bits eleven and fifteen, and the parity is that of
the high byte. -/
def addWords (w n : Word) : Word × Flags :=
  let result := w + n
  (result,
    { zero := false
      sign := false
      halfCarry := 0xFFF < w.toNat % 0x1000 + n.toNat % 0x1000
      parity := result.high.isEven
      carry := 0xFFFF < w.toNat + n.toNat })

/-- The sum of a word and a signed byte. The carries are those of adding the byte, without its
sign, to the low byte of the word; the parity is that of the high byte of the sum. -/
def addSigned (w : Word) (e : Byte) : Word × Flags :=
  let result := w + e.signed
  (result,
    { zero := false
      sign := false
      halfCarry := 0xF < nibbleSum w.low e false
      parity := result.high.isEven
      carry := 0xFF < byteSum w.low e false })

/-! ### Decimal adjustment -/

/-- The accumulator after its low decimal digit has been corrected: six more when that half
holds no decimal digit or has carried. -/
def correctLow (f : Flags) (a : Byte) : Nat :=
  if 9 < a.toNat % 16 ∨ f.halfCarry then a.toNat + 0x06 else a.toNat

/-- Whether the high decimal digit needs a correction too. -/
def correctsHigh (f : Flags) (a : Byte) : Bool := 0x9F < correctLow f a || f.carry

/-- Corrects a binary sum of two packed decimal bytes to the packed decimal sum. The carry tells
that the high digit was corrected. -/
def decimalAdjust (f : Flags) (a : Byte) : Byte × Flags :=
  let low := correctLow f a
  let result : Byte := .ofNat 8 (if correctsHigh f a then low + 0x60 else low)
  (result, .ofResult result false (correctsHigh f a))

/-! ### Bits -/

/-- Rotates by one bit; the carry is the bit that leaves. -/
def rotate (r : Rotation) (carry : Bool) (n : Byte) : Byte × Bool :=
  match r with
  | .left => (n.rotateLeft 1, n.getLsbD 7)
  | .right => (n.rotateRight 1, n.getLsbD 0)
  | .leftThroughCarry => (n <<< 1 ||| Byte.ofCarry carry, n.getLsbD 7)
  | .rightThroughCarry => (n >>> 1 ||| Byte.ofCarry carry <<< 7, n.getLsbD 0)

/-- Rotates, shifts or exchanges halves; the carry is the bit that leaves, and none leaves when
halves are exchanged. -/
def move (s : Shift) (carry : Bool) (n : Byte) : Byte × Bool :=
  match s with
  | .rotate r => rotate r carry n
  | .arithmeticLeft => (n <<< 1, n.getLsbD 7)
  | .arithmeticRight => (n.sshiftRight 1, n.getLsbD 0)
  | .swap => (n <<< 4 ||| n >>> 4, false)
  | .logicalRight => (n >>> 1, n.getLsbD 0)

/-- The result of `move` with the flags that describe it. -/
def shift (s : Shift) (carry : Bool) (n : Byte) : Byte × Flags :=
  let (result, out) := move s carry n
  (result, .ofResult result false out)

/-- Rotates the accumulator. Of the flags only the carry can be set afterwards. -/
def rotateAccumulator (r : Rotation) (carry : Bool) (a : Byte) : Byte × Flags :=
  let (result, out) := rotate r carry a
  (result, { Flags.clear with carry := out })

/-- The byte in which only one bit is set. -/
def mask (bit : Fin 8) : Byte := 1 <<< bit.val

/-- Lets the flags describe a byte in which only one bit is kept. The half-carry is always set
and the carry is handed on. -/
def testBit (f : Flags) (bit : Fin 8) (n : Byte) : Flags :=
  .ofResult (n &&& mask bit) true f.carry

end Sm83.Arithmetic
