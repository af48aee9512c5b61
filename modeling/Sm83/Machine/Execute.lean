import Sm83.Arithmetic
import Sm83.Instruction
import Sm83.Machine

/-!
# Carrying out instructions

What each instruction does to the machine. Most instructions cannot fail and are functions on
the machine; `execute` puts them together with the few that can, and yields the address to go on
at if that is not the next instruction. While an instruction is carried out the program counter
still holds its own address.
-/

namespace Sm83.Machine

/-! ### Transfers -/

/-- Copies a byte. -/
def load (s : Machine) (target : Place) (source : Source) : Machine :=
  s.write target (s.operand source)

/-- Stores the accumulator. -/
def storeA (s : Machine) (l : Location) : Machine :=
  (s.setMemory (s.memory.set (s.address l) s.registers.a)).release l

/-- Loads the accumulator. -/
def loadA (s : Machine) (l : Location) : Machine :=
  (s.release l).setA (s.memory.get (s.address l))

/-- Loads a pair. -/
def setPair (s : Machine) (p : Pair) (w : Word) : Machine :=
  s.setRegisters (s.registers.setPair p w)

/-! ### Arithmetic -/

/-- Increments a byte and lets the flags describe it. -/
def increment (s : Machine) (target : Place) : Machine :=
  let r := Arithmetic.increment s.registers.flags (s.read target)
  (s.setFlags r.2).write target r.1

/-- Decrements a byte and lets the flags describe it. -/
def decrement (s : Machine) (target : Place) : Machine :=
  let r := Arithmetic.decrement s.registers.flags (s.read target)
  (s.setFlags r.2).write target r.1

/-- Increments a pair; the flags stay. -/
def incrementPair (s : Machine) (p : Pair) : Machine := s.setPair p (s.registers.pair p + 1)

/-- Decrements a pair; the flags stay. -/
def decrementPair (s : Machine) (p : Pair) : Machine := s.setPair p (s.registers.pair p - 1)

/-- Lets the accumulator meet an operand. -/
def accumulate (s : Machine) (op : Accumulation) (source : Source) : Machine :=
  let r := Arithmetic.accumulate op s.registers.flags.carry s.registers.a (s.operand source)
  (s.setFlags r.2).setA r.1

/-- Adds a pair to HL. -/
def addHl (s : Machine) (source : Pair) : Machine :=
  let r := Arithmetic.addWords s.registers.hl (s.registers.pair source)
  (s.setFlags r.2).setPair .hl r.1

/-- Puts the stack pointer plus a signed offset into a pair. -/
def offsetSp (s : Machine) (target : Pair) (offset : Byte) : Machine :=
  let r := Arithmetic.addSigned s.registers.sp offset
  (s.setFlags r.2).setPair target r.1

/-- Corrects the accumulator after a decimal addition. -/
def decimalAdjust (s : Machine) : Machine :=
  let r := Arithmetic.decimalAdjust s.registers.flags s.registers.a
  (s.setFlags r.2).setA r.1

/-- Inverts all bits of the accumulator. Of the flags only half-carry changes: it is set. -/
def complement (s : Machine) : Machine :=
  (s.setFlags { s.registers.flags with halfCarry := true }).setA (~~~s.registers.a)

/-- Changes the carry and clears the half-carry. -/
def assignCarry (s : Machine) (carry : Bool) : Machine :=
  s.setFlags { s.registers.flags with carry := carry, halfCarry := false }

/-- Rotates the accumulator. -/
def rotateA (s : Machine) (r : Rotation) : Machine :=
  let r := Arithmetic.rotateAccumulator r s.registers.flags.carry s.registers.a
  (s.setFlags r.2).setA r.1

/-- Works on the bits of a byte. Clearing or setting a bit leaves the flags, and testing one
leaves the byte. -/
def operateBits (s : Machine) (op : BitOperation) (target : Place) : Machine :=
  let n := s.read target
  match op with
  | .shift k =>
    let r := Arithmetic.shift k s.registers.flags.carry n
    (s.setFlags r.2).write target r.1
  | .test i => s.setFlags (Arithmetic.testBit s.registers.flags i n)
  | .reset i => s.write target (n &&& ~~~Arithmetic.mask i)
  | .set i => s.write target (n ||| Arithmetic.mask i)

/-! ### Execution -/

/-- Changes the machine and goes on with the next instruction. -/
def proceed (f : Machine → Machine) : Action (Option Word) := do
  modify f
  return none

/-- Jumps to a target where the flags permit it. -/
def jumpIf (c : Option Condition) (target : Word) : Action (Option Word) := do
  let s ← get
  return if s.registers.flags.permits c then some target else none

/-- Stores the stack pointer as a word. It fails if the word runs past the end of memory. -/
def storeSp (address : Word) : Action Unit := do
  let s ← get
  onMemory (Memory.writeWord address.toNat s.registers.sp)

/-- Pushes the address behind the instruction, which takes so many bytes, and jumps. -/
def callFrom (length : Nat) (target : Word) : Action (Option Word) := do
  let s ← get
  push (s.registers.pc + .ofNat 16 length)
  return some target

/-- Jumps to a popped address. -/
def popJump : Action (Option Word) := do
  let target ← pop
  return some target

/-- Carries out an instruction. The result is the address to go on at, or `none` for the
instruction that follows. -/
def execute (i : Instruction) : Action (Option Word) :=
  match i with
  | .nop | .stop | .disableInterrupts | .enableInterrupts | .undefined _ => return none
  | .halt => proceed fun s => { s with halted := true }
  | .load target source => proceed (·.load target source)
  | .storeA l => proceed (·.storeA l)
  | .loadA l => proceed (·.loadA l)
  | .loadPair p w => proceed (·.setPair p w)
  | .storeSp address => do
    storeSp address
    return none
  | .loadSpHl => proceed fun s => s.setSp s.registers.hl
  | .loadHlSp offset => proceed (·.offsetSp .hl offset)
  | .push p => do
    let s ← get
    push (s.registers.stackPair p)
    return none
  | .pop p => do
    let w ← pop
    proceed fun s => s.setRegisters (s.registers.setStackPair p w)
  | .increment target => proceed (·.increment target)
  | .decrement target => proceed (·.decrement target)
  | .incrementPair p => proceed (·.incrementPair p)
  | .decrementPair p => proceed (·.decrementPair p)
  | .accumulate op source => proceed (·.accumulate op source)
  | .addHl p => proceed (·.addHl p)
  | .addSp offset => proceed (·.offsetSp .sp offset)
  | .decimalAdjust => proceed decimalAdjust
  | .complement => proceed complement
  | .setCarry => proceed (·.assignCarry true)
  | .flipCarry => proceed fun s => s.assignCarry !s.registers.flags.carry
  | .rotateA r => proceed (·.rotateA r)
  | .bits op target => proceed (·.operateBits op target)
  | .jumpRelative c offset => do
    let s ← get
    jumpIf c (relativeTarget s.registers.pc offset)
  | .jump c target => jumpIf c target
  | .jumpHl => do
    let s ← get
    return some s.registers.hl
  | .call c target => do
    let s ← get
    if s.registers.flags.permits c then callFrom i.length target else return none
  | .ret c => do
    let s ← get
    if s.registers.flags.permits c then popJump else return none
  | .retInterrupt => popJump
  | .restart vector => callFrom i.length (.ofBytes 0 (restartTarget vector))

end Sm83.Machine
