import Sm83.Word

/-!
# Operands

What an instruction can name: single registers, the byte at the address in HL, register pairs,
locations in memory, conditions, and the operations themselves where many instructions share
one form.
-/

namespace Sm83

/-- An eight-bit register. -/
inductive Register where
  | a | b | c | d | e | h | l
  deriving DecidableEq

/-- Where an eight-bit operand lives: in a register, or in memory at the address in HL. -/
inductive Place where
  | register (r : Register)
  | atHl
  deriving DecidableEq

/-- Where an eight-bit operand is read from: a place, or the instruction itself. -/
inductive Source where
  | place (p : Place)
  | immediate (n : Byte)
  deriving DecidableEq

/-- A sixteen-bit register that arithmetic and loads can name. -/
inductive Pair where
  | bc | de | hl | sp
  deriving DecidableEq

/-- A pair that can be pushed and popped; AF is the accumulator and the packed flags. -/
inductive StackPair where
  | bc | de | hl | af
  deriving DecidableEq

/-- A pair used as an address. HL may be counted up or down after its use. -/
inductive Pointer where
  | bc | de | hlIncrement | hlDecrement
  deriving DecidableEq

/-- A byte in memory that only the accumulator exchanges with. The last page of memory has
short forms, by an offset in the instruction or in register C. -/
inductive Location where
  | pointer (p : Pointer)
  | absolute (address : Word)
  | lastPage (offset : Byte)
  | lastPageC
  deriving DecidableEq

/-- A condition on the flags that a jump, call or return may carry. -/
inductive Condition where
  | notZero | zero | notCarry | carry
  deriving DecidableEq

/-- An operation between the accumulator and an eight-bit operand. -/
inductive Accumulation where
  | add | addCarry | subtract | subtractCarry | and | xor | or | compare
  deriving DecidableEq

/-- A rotation by one bit, either of the eight bits alone or of the nine bits that the byte and
the carry make together. -/
inductive Rotation where
  | left | right | leftThroughCarry | rightThroughCarry
  deriving DecidableEq

/-- A rotation, a shift by one bit, or the exchange of the two halves of a byte. -/
inductive Shift where
  | rotate (r : Rotation)
  | arithmeticLeft | arithmeticRight | swap | logicalRight
  deriving DecidableEq

/-- An operation on the bits of one byte. -/
inductive BitOperation where
  | shift (s : Shift)
  /-- Lets the flags describe one bit. -/
  | test (bit : Fin 8)
  /-- Clears one bit. -/
  | reset (bit : Fin 8)
  /-- Sets one bit. -/
  | set (bit : Fin 8)
  deriving DecidableEq

end Sm83
