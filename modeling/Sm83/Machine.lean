import Sm83.Memory
import Sm83.Registers

/-!
# The machine

A machine is the registers, memory, and the latch that HALT sets. An action on it may fail, and
then leaves the machine as far as it has come: that a failed instruction changes nothing is
a property of the instructions and not of the notion of an action.
-/

namespace Sm83

/-- The processor and its memory. -/
structure Machine where
  registers : Registers
  memory : Memory
  /-- Whether a HALT has been carried out. -/
  halted : Bool

namespace Machine

/-- The machine that starts on the given memory, with all registers zero. -/
def start (m : Memory) : Machine := ⟨.zero, m, false⟩

/-- The machine with other registers. -/
def setRegisters (s : Machine) (r : Registers) : Machine := { s with registers := r }

/-- The machine with other memory. -/
def setMemory (s : Machine) (m : Memory) : Machine := { s with memory := m }

@[simp] theorem registers_setRegisters (s : Machine) (r : Registers) :
    (s.setRegisters r).registers = r := rfl

@[simp] theorem memory_setRegisters (s : Machine) (r : Registers) :
    (s.setRegisters r).memory = s.memory := rfl

@[simp] theorem halted_setRegisters (s : Machine) (r : Registers) :
    (s.setRegisters r).halted = s.halted := rfl

@[simp] theorem registers_setMemory (s : Machine) (m : Memory) :
    (s.setMemory m).registers = s.registers := rfl

@[simp] theorem memory_setMemory (s : Machine) (m : Memory) : (s.setMemory m).memory = m := rfl

@[simp] theorem halted_setMemory (s : Machine) (m : Memory) :
    (s.setMemory m).halted = s.halted := rfl

/-- The machine with another accumulator. -/
def setA (s : Machine) (a : Byte) : Machine := s.setRegisters { s.registers with a := a }

/-- The machine with other flags. -/
def setFlags (s : Machine) (f : Flags) : Machine := s.setRegisters { s.registers with flags := f }

/-- The machine with another program counter. -/
def setPc (s : Machine) (pc : Word) : Machine := s.setRegisters { s.registers with pc := pc }

/-- The machine with another stack pointer. -/
def setSp (s : Machine) (sp : Word) : Machine := s.setRegisters { s.registers with sp := sp }

/-! ### Operands -/

/-- The byte at a place. -/
def read (s : Machine) : Place → Byte
  | .register x => s.registers.get x
  | .atHl => s.memory.get s.registers.hl

/-- The machine with the byte at a place replaced. -/
def write (s : Machine) (p : Place) (v : Byte) : Machine :=
  match p with
  | .register x => s.setRegisters (s.registers.set x v)
  | .atHl => s.setMemory (s.memory.set s.registers.hl v)

/-- The byte that a source stands for. -/
def operand (s : Machine) : Source → Byte
  | .place p => s.read p
  | .immediate n => n

/-- The address of a location. -/
def address (s : Machine) : Location → Word
  | .pointer p => s.registers.pointer p
  | .absolute a => a
  | .lastPage n => .ofBytes 0xFF n
  | .lastPageC => .ofBytes 0xFF s.registers.c

/-- The machine after a location has been used: a pointer may move. -/
def release (s : Machine) : Location → Machine
  | .pointer p => s.setRegisters (s.registers.advance p)
  | _ => s

/-! ### Actions and the stack -/

/-- An action on the machine that yields a value or fails. -/
abbrev Action := EStateM Fault Machine

/-- Performs an action of memory. -/
def onMemory {α : Type} (act : Memory.Action α) : Action α := fun s =>
  match act s.memory with
  | .ok x m => .ok x (s.setMemory m)
  | .error f m => .error f (s.setMemory m)

/-- Pushes a word: its high byte goes right below the stack pointer, and its low byte below
that. It fails if there is no room for both. -/
def push (w : Word) : Action Unit := do
  let s ← get
  let sp := s.registers.sp
  if sp < 2 then
    throw (.stackOverflow sp)
  onMemory (Memory.writeWord (sp - 2).toNat w)
  modify (·.setSp (sp - 2))

/-- Pops the word at the stack pointer. It fails if the word runs past the end of memory. -/
def pop : Action Word := do
  let s ← get
  let sp := s.registers.sp
  let w ← MonadExcept.ofExcept (s.memory.readWord sp.toNat)
  set (s.setSp (sp + 2))
  return w

/-- A pop reads the word at the stack pointer and moves the stack pointer up by two. -/
theorem pop_eq (s : Machine) :
    pop s =
      match s.memory.readWord s.registers.sp.toNat with
      | .ok w => .ok w (s.setSp (s.registers.sp + 2))
      | .error f => .error f s := by
  change ((MonadExcept.ofExcept (s.memory.readWord s.registers.sp.toNat) : Action Word) >>= _) s = _
  cases s.memory.readWord s.registers.sp.toNat <;> rfl

end Machine

end Sm83
