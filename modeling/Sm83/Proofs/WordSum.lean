import Sm83.Machine.Execute
import Sm83.Proofs.LongSum

/-!
# Sums of words

Words are added by operations of their own, with flags of their own. This file takes such a sum
apart: it is the sum of the low bytes and that of the high bytes, where the second one takes up the
carry of the first (`add_eq_ofBytes`). So the byte adder says what a sum of words is, and which of
the two additions each flag belongs to.

The two operations differ in that. `addWords` has its carries, like its parity, from the high bytes
(`carry_addWords`, `halfCarry_addWords`). `addSigned` adds a byte with its sign extended, and has
its carries from the low bytes, where the sign has not come in yet. Its high byte is a sum with
`0xFF` or `0x00` (`high_signed`).
-/

namespace Sm83

/-! ### Signs -/

theorem Byte.low_signed (e : Byte) : Word.low (Byte.signed e) = e := by
  revert e; decide

/-- The high byte of a signed byte repeats its sign. -/
theorem Byte.high_signed (e : Byte) :
    Word.high (Byte.signed e) = if 0x80 ≤ e.toNat then 0xFF else 0x00 := by
  revert e; decide

namespace Arithmetic

variable (w n : Word)

/-- The sum of the low bytes of two words. -/
def addLow : Byte × Flags := add w.low n.low false

/-- The sum of the high bytes of two words, with the carry that the low bytes have left. -/
def addHigh : Byte × Flags := add w.high n.high (addLow w n).2.carry

theorem addLow_balance :
    (addLow w n).1.toNat + 256 * (addLow w n).2.carry.toNat
      = w.toNat % 256 + n.toNat % 256 := by
  have balance := add_balance w.low n.low false
  rwa [Word.toNat_low, Word.toNat_low, Bool.toNat_false, Nat.add_zero] at balance

theorem addHigh_balance :
    (addHigh w n).1.toNat + 256 * (addHigh w n).2.carry.toNat
      = w.toNat / 256 + n.toNat / 256 + (addLow w n).2.carry.toNat := by
  have balance := add_balance w.high n.high (addLow w n).2.carry
  rwa [Word.toNat_high, Word.toNat_high] at balance

/-- **A sum of words** is made of the two sums of bytes. -/
theorem add_eq_ofBytes : w + n = .ofBytes (addHigh w n).1 (addLow w n).1 := by
  have low := addLow_balance w n
  have high := addHigh_balance w n
  have h_low := (addLow w n).1.isLt
  have h_high := (addHigh w n).1.isLt
  apply BitVec.eq_of_toNat_eq
  rw [Word.toNat_ofBytes, BitVec.toNat_add]
  -- the carry between the bytes cancels, and the one beyond them is a multiple of the size
  omega

/-- The carry of a sum of words leaves the high byte. -/
theorem carry_addWords : decide (0xFFFF < w.toNat + n.toNat) = (addHigh w n).2.carry := by
  have low := addLow_balance w n
  have h_low := (addLow w n).1.isLt
  show _ = decide (0xFF < byteSum w.high n.high (addLow w n).2.carry)
  rw [byteSum, Word.toNat_high, Word.toNat_high]
  exact decide_eq_decide.2 (by omega)

/-- The half-carry of a sum of words leaves the low half of the high byte. -/
theorem halfCarry_addWords :
    decide (0xFFF < w.toNat % 0x1000 + n.toNat % 0x1000) = (addHigh w n).2.halfCarry := by
  have low := addLow_balance w n
  have h_low := (addLow w n).1.isLt
  show _ = decide (0xF < nibbleSum w.high n.high (addLow w n).2.carry)
  rw [nibbleSum, Word.toNat_high, Word.toNat_high]
  exact decide_eq_decide.2 (by omega)

/-- **Sums of words are sums of bytes.** The low bytes are added without a carry, and the high bytes
with the carry of the low ones. A sum of two words has both carries and the parity of the high
bytes. A sum of a word and a signed byte, whose high byte is taken to be its sign, has the parity of
the high bytes, but the carries of the low ones. Zero and sign are clear, and whatever the flags
were before is lost. -/
theorem word_sums_are_byte_sums :
    (∀ w n : Word,
      let low := add w.low n.low false
      let high := add w.high n.high low.2.carry
      addWords w n = (.ofBytes high.1 low.1,
        { zero := false, sign := false, halfCarry := high.2.halfCarry, parity := high.2.parity,
          carry := high.2.carry })) ∧
    (∀ (w : Word) (e : Byte),
      let low := add w.low e false
      let high := add w.high (if 0x80 ≤ e.toNat then 0xFF else 0x00) low.2.carry
      addSigned w e = (.ofBytes high.1 low.1,
        { zero := false, sign := false, halfCarry := low.2.halfCarry, parity := high.2.parity,
          carry := low.2.carry })) ∧
    ∀ (s : Machine) (f : Flags) (p : Pair),
      (s.setFlags f).addHl p = s.addHl p ∧ ∀ e, (s.setFlags f).offsetSp p e = s.offsetSp p e := by
  refine ⟨?_, ?_, fun s f p => ⟨rfl, fun e => rfl⟩⟩
  · intro w n low high
    have parity : (w + n).high.isEven = (addHigh w n).1.isEven := by
      rw [add_eq_ofBytes, Word.high_ofBytes]
    simp only [addWords, carry_addWords, halfCarry_addWords, parity]
    rw [add_eq_ofBytes]
    rfl
  · intro w e low high
    -- in the low byte a byte with its sign extended is the byte itself
    have sumLow : addLow w e.signed = low := by rw [addLow, Byte.low_signed]
    have sumHigh : addHigh w e.signed = high := by rw [addHigh, sumLow, Byte.high_signed]
    have sum : w + e.signed = .ofBytes (addHigh w e.signed).1 (addLow w e.signed).1 :=
      add_eq_ofBytes w e.signed
    simp only [addSigned, sum, Word.high_ofBytes, sumLow, sumHigh]
    rfl

end Arithmetic

end Sm83
