import Sm83.Operand

/-!
# Flags

The five condition flags. They are kept apart and are packed into a byte only where the flag
register is moved as a byte; the three bits of that byte that stand for no flag read as zero
and are dropped when it is unpacked. The parity flag tells whether a result is even, and does
not count its bits.
-/

namespace Sm83

/-- The condition flags. -/
structure Flags where
  zero : Bool
  sign : Bool
  halfCarry : Bool
  parity : Bool
  carry : Bool
  deriving DecidableEq

namespace Flags

/-- No flag is set. -/
def clear : Flags := ⟨false, false, false, false, false⟩

/-- The flags of a result: zero, sign and parity describe the result itself, and the two
carries are given. -/
def ofResult (result : Byte) (halfCarry carry : Bool) : Flags where
  zero := result == 0
  sign := result.msb
  halfCarry := halfCarry
  parity := result.isEven
  carry := carry

/-- The bit of a flag within the packed byte. -/
def bit (set : Bool) (position : Nat) : Byte := Byte.ofCarry set <<< position

/-- The flags as a byte: zero, sign and half-carry are its highest bits, parity is bit two and
carry bit zero. -/
def pack (f : Flags) : Byte :=
  bit f.zero 7 ||| bit f.sign 6 ||| bit f.halfCarry 5 ||| bit f.parity 2 ||| bit f.carry 0

/-- The flags that a byte stands for. -/
def unpack (b : Byte) : Flags where
  zero := b.getLsbD 7
  sign := b.getLsbD 6
  halfCarry := b.getLsbD 5
  parity := b.getLsbD 2
  carry := b.getLsbD 0

/-- Whether a condition holds. -/
def holds (f : Flags) : Condition → Bool
  | .notZero => !f.zero
  | .zero => f.zero
  | .notCarry => !f.carry
  | .carry => f.carry

/-- Whether an instruction that may carry a condition takes effect. -/
def permits (f : Flags) : Option Condition → Bool
  | none => true
  | some c => f.holds c

@[simp] theorem unpack_pack (f : Flags) : unpack f.pack = f := by
  obtain ⟨z, s, h, p, c⟩ := f
  revert z s h p c
  decide

/-- Only the bits of the flags survive. -/
theorem pack_unpack (b : Byte) : (unpack b).pack = b &&& 0xE5 := by
  revert b; decide

end Flags

end Sm83
