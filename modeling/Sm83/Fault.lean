import Sm83.Text.Hex

/-!
# Faults

What can go wrong when memory is accessed, a program image is loaded or a word is pushed.
-/

namespace Sm83

/-- A reason why an access, a load or a push is refused. -/
inductive Fault where
  /-- No byte has this address. -/
  | outOfRange (address : Nat)
  /-- The stack pointer leaves no room below it for a word. -/
  | stackOverflow (sp : Word)
  /-- A block of so many bytes does not fit at this address. -/
  | blockTooLarge (address size : Nat)
  deriving DecidableEq, Inhabited

/-- The wording of a fault. -/
def Fault.message : Fault → String
  | .outOfRange a => "address " ++ Hex.marked 5 a ++ " is outside the 64KB address space"
  | .stackOverflow sp =>
    "stack overflow: cannot push below address 0 (sp=" ++ Hex.marked 4 sp.toNat ++ ")"
  | .blockTooLarge a size =>
    "image of " ++ toString size ++ " bytes does not fit at offset " ++ Hex.marked 4 a

end Sm83
