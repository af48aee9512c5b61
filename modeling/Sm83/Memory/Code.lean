import Sm83.Instruction.Assembly
import Sm83.Instruction.Decode
import Sm83.Memory

/-!
# Code in memory

Memory is read as instructions in two ways. For a line of assembly language, all the bytes of an
instruction are read first, as many as its length says (`instructionAt`). The processor reads the
code alone, finds out which instruction it has, and reads the operand that this instruction takes,
a byte or a word, and nothing else (`fetch`). No length is consulted for that.

So the two ways agree only if the lengths are right. They differ for STOP, whose second byte is part
of the instruction but no operand.
-/

namespace Sm83

/-- Completes an instruction of which the code alone has been read. An instruction that takes a byte
or a word gets it from the action that reads one; the byte behind the prefix of the bit operations
is a code itself, and is looked up in a table of its own. -/
def Instruction.complete {f : Type → Type} [Monad f] (byte : f Byte) (word : f Word)
    (lookUp : Byte → f Instruction) : Instruction → f Instruction
  | load target (.immediate _) => do return load target (.immediate (← byte))
  | storeA (.absolute _) => do return storeA (.absolute (← word))
  | storeA (.lastPage _) => do return storeA (.lastPage (← byte))
  | loadA (.absolute _) => do return loadA (.absolute (← word))
  | loadA (.lastPage _) => do return loadA (.lastPage (← byte))
  | loadPair target _ => do return loadPair target (← word)
  | storeSp _ => do return storeSp (← word)
  | loadHlSp _ => do return loadHlSp (← byte)
  | accumulate op (.immediate _) => do return accumulate op (.immediate (← byte))
  | addSp _ => do return addSp (← byte)
  | bits _ _ => do lookUp (← byte)
  | jumpRelative c _ => do return jumpRelative c (← byte)
  | jump c _ => do return jump c (← word)
  | call c _ => do return call c (← word)
  | i => return i

namespace Memory

/-- How many bytes the instruction at `pc` takes. -/
def lengthAt (m : Memory) (pc : Word) : Nat := Instruction.encodedLength (m.get pc)

/-- The instruction at `pc`, provided that all its bytes lie in memory. -/
def instructionAt (m : Memory) (pc : Word) : Except Fault Instruction := do
  let bytes ← m.readBlock pc.toNat (m.lengthAt pc)
  return .ofBytes bytes

/-- The instruction at `pc` as the processor reads it. -/
def fetch (m : Memory) (pc : Word) : Except Fault Instruction := do
  let code ← m.readByte pc.toNat
  Instruction.complete (m.readByte (pc.toNat + 1)) (m.readWord (pc.toNat + 1))
    (fun n => return .decode 0xCB n 0) (.decode code 0 0)

/-- The line of assembly language for the instruction at `pc`. -/
def assemblyAt (m : Memory) (pc : Word) : Except Fault String := do
  let i ← m.instructionAt pc
  return i.text pc

end Memory

end Sm83
