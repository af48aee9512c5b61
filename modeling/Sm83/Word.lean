/-!
# Bytes and words

The processor computes on eight-bit bytes and sixteen-bit words. Both are bit vectors, so
their arithmetic wraps around. A word is made of a high and a low byte; in memory the low
byte comes first.
-/

namespace Sm83

/-- An eight-bit quantity. -/
abbrev Byte := BitVec 8

/-- A sixteen-bit quantity: an address, or the contents of a register pair. -/
abbrev Word := BitVec 16

namespace Byte

/-- Whether the low bit is clear. -/
def isEven (b : Byte) : Bool := !b.getLsbD 0

/-- The word with the same value as a two's-complement number. -/
def signed (b : Byte) : Word := b.signExtend 16

/-- A carry as a number: one when it is set, zero when it is clear. -/
def ofCarry (c : Bool) : Byte := if c then 1 else 0

@[simp] theorem ofCarry_false : ofCarry false = 0 := rfl
@[simp] theorem ofCarry_true : ofCarry true = 1 := rfl

theorem toNat_ofCarry (c : Bool) : (ofCarry c).toNat = c.toNat := by
  cases c <;> rfl

theorem isEven_iff (b : Byte) : b.isEven = true ↔ b.toNat % 2 = 0 := by
  revert b; decide

end Byte

namespace Word

/-- The word with the given high and low bytes. -/
def ofBytes (high low : Byte) : Word := high ++ low

/-- The high byte of a word. -/
def high (w : Word) : Byte := w.extractLsb' 8 8

/-- The low byte of a word. -/
def low (w : Word) : Byte := w.setWidth 8

theorem toNat_ofBytes (h l : Byte) : (ofBytes h l).toNat = 256 * h.toNat + l.toNat := by
  rw [ofBytes, BitVec.toNat_append, ← Nat.shiftLeft_add_eq_or_of_lt l.isLt, Nat.shiftLeft_eq]
  omega

theorem toNat_high (w : Word) : w.high.toNat = w.toNat / 256 := by
  have := w.isLt
  simp only [high, BitVec.extractLsb'_toNat, Nat.shiftRight_eq_div_pow]
  omega

theorem toNat_low (w : Word) : w.low.toNat = w.toNat % 256 := by
  simp [low]

@[simp] theorem high_ofBytes (h l : Byte) : (ofBytes h l).high = h := by
  apply BitVec.eq_of_toNat_eq
  rw [toNat_high, toNat_ofBytes]
  have := l.isLt
  omega

@[simp] theorem low_ofBytes (h l : Byte) : (ofBytes h l).low = l := by
  apply BitVec.eq_of_toNat_eq
  rw [toNat_low, toNat_ofBytes]
  have := l.isLt
  omega

@[simp] theorem ofBytes_high_low (w : Word) : ofBytes w.high w.low = w := by
  apply BitVec.eq_of_toNat_eq
  rw [toNat_ofBytes, toNat_high, toNat_low]
  omega

end Word

end Sm83
