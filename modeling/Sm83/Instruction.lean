import Sm83.Operand

/-!
# Instructions

An instruction is what the processor carries out, with the operands that its own bytes hold.
How many bytes it takes (`length`) belongs to the instruction; which bytes they are is the
business of the decoder.
-/

namespace Sm83

/-- An instruction with its operands. -/
inductive Instruction where
  -- Control of the processor.
  | nop
  /-- STOP is followed by a byte that means nothing. -/
  | stop
  | halt
  | disableInterrupts
  | enableInterrupts
  /-- A code without a meaning, which is passed over. -/
  | undefined (code : Byte)
  -- Transfers.
  | load (target : Place) (source : Source)
  | storeA (target : Location)
  | loadA (source : Location)
  | loadPair (target : Pair) (value : Word)
  | storeSp (address : Word)
  | loadSpHl
  /-- HL becomes the stack pointer plus a signed offset. -/
  | loadHlSp (offset : Byte)
  | push (p : StackPair)
  | pop (p : StackPair)
  -- Arithmetic.
  | increment (target : Place)
  | decrement (target : Place)
  | incrementPair (target : Pair)
  | decrementPair (target : Pair)
  | accumulate (op : Accumulation) (source : Source)
  | addHl (source : Pair)
  /-- The stack pointer moves by a signed offset. -/
  | addSp (offset : Byte)
  | decimalAdjust
  | complement
  | setCarry
  | flipCarry
  | rotateA (r : Rotation)
  | bits (op : BitOperation) (target : Place)
  -- Jumps.
  /-- The target lies a signed offset away from the end of the instruction. -/
  | jumpRelative (c : Option Condition) (offset : Byte)
  | jump (c : Option Condition) (target : Word)
  | jumpHl
  | call (c : Option Condition) (target : Word)
  | ret (c : Option Condition)
  | retInterrupt
  /-- A call of one of eight fixed addresses. -/
  | restart (vector : Fin 8)
  deriving DecidableEq

/-- How many bytes of the instruction name this source. -/
def Source.size : Source → Nat
  | .place _ => 0
  | .immediate _ => 1

/-- How many bytes of the instruction name this location. -/
def Location.size : Location → Nat
  | .pointer _ | .lastPageC => 0
  | .lastPage _ => 1
  | .absolute _ => 2

namespace Instruction

/-- How many bytes an instruction takes, its code included. -/
def length : Instruction → Nat
  | load _ s | accumulate _ s => 1 + s.size
  | storeA l | loadA l => 1 + l.size
  | stop | loadHlSp _ | addSp _ | bits _ _ | jumpRelative _ _ => 2
  | loadPair _ _ | storeSp _ | jump _ _ | call _ _ => 3
  | _ => 1

/-- Whether an instruction may go on elsewhere than right behind itself. -/
def isBranch : Instruction → Bool
  | jumpRelative _ _ | jump _ _ | jumpHl | call _ _ | ret _ | retInterrupt | restart _ => true
  | _ => false

/-- The condition on which an instruction depends, if it carries one. -/
def condition : Instruction → Option Condition
  | jumpRelative c _ | jump c _ | call c _ | ret c => c
  | _ => none

theorem length_pos (i : Instruction) : 0 < i.length := by
  unfold length; split <;> omega

theorem length_le (i : Instruction) : i.length ≤ 3 := by
  cases i <;> simp only [length] <;> (try omega)
  case load _ s => cases s <;> simp [Source.size]
  case accumulate _ s => cases s <;> simp [Source.size]
  case storeA l => cases l <;> simp [Location.size]
  case loadA l => cases l <;> simp [Location.size]

end Instruction

/-- The address that a jump by a signed offset reaches from the instruction at `pc`; the jump
itself takes two bytes. -/
def relativeTarget (pc : Word) (offset : Byte) : Word := pc + 2 + offset.signed

/-- The address that a restart calls. -/
def restartTarget (vector : Fin 8) : Byte := .ofNat 8 (8 * vector.val)

end Sm83
