import Sm83.Flags
import Sm83.Text.Hex

/-!
# Registers

The seven byte registers, the flags, the program counter and the stack pointer. A register pair
is a view of two byte registers; the pair AF joins the accumulator and the packed flags.
-/

namespace Sm83

/-- The register file of the processor. -/
structure Registers where
  a : Byte
  b : Byte
  c : Byte
  d : Byte
  e : Byte
  h : Byte
  l : Byte
  flags : Flags
  /-- The program counter: the address of the next instruction. -/
  pc : Word
  /-- The stack pointer: the address of the low byte of the last word pushed. -/
  sp : Word
  deriving DecidableEq

namespace Registers

/-- All registers are zero and all flags clear. -/
def zero : Registers := ⟨0, 0, 0, 0, 0, 0, 0, Flags.clear, 0, 0⟩

/-! ### Single registers -/

/-- The contents of a byte register. -/
def get (r : Registers) : Register → Byte
  | .a => r.a
  | .b => r.b
  | .c => r.c
  | .d => r.d
  | .e => r.e
  | .h => r.h
  | .l => r.l

/-- The register file with one byte register replaced. -/
def set (r : Registers) (x : Register) (v : Byte) : Registers :=
  match x with
  | .a => { r with a := v }
  | .b => { r with b := v }
  | .c => { r with c := v }
  | .d => { r with d := v }
  | .e => { r with e := v }
  | .h => { r with h := v }
  | .l => { r with l := v }

@[simp] theorem get_set_self (r : Registers) (x : Register) (v : Byte) :
    (r.set x v).get x = v := by
  cases x <;> rfl

theorem get_set_of_ne (r : Registers) {x y : Register} (h : y ≠ x) (v : Byte) :
    (r.set x v).get y = r.get y := by
  cases x <;> cases y <;> first | rfl | exact absurd rfl h

/-! ### Pairs -/

/-- The pair AF. -/
def af (r : Registers) : Word := .ofBytes r.a r.flags.pack

/-- The pair BC. -/
def bc (r : Registers) : Word := .ofBytes r.b r.c

/-- The pair DE. -/
def de (r : Registers) : Word := .ofBytes r.d r.e

/-- The pair HL. -/
def hl (r : Registers) : Word := .ofBytes r.h r.l

/-- Loads AF; the low byte is unpacked into the flags. -/
def setAf (r : Registers) (w : Word) : Registers := { r with a := w.high, flags := .unpack w.low }

/-- Loads BC. -/
def setBc (r : Registers) (w : Word) : Registers := { r with b := w.high, c := w.low }

/-- Loads DE. -/
def setDe (r : Registers) (w : Word) : Registers := { r with d := w.high, e := w.low }

/-- Loads HL. -/
def setHl (r : Registers) (w : Word) : Registers := { r with h := w.high, l := w.low }

/-- Counts HL up by one. -/
def incrementHl (r : Registers) : Registers := r.setHl (r.hl + 1)

/-- Counts HL down by one. -/
def decrementHl (r : Registers) : Registers := r.setHl (r.hl - 1)

@[simp] theorem bc_setBc (r : Registers) (w : Word) : (r.setBc w).bc = w := by
  simp [bc, setBc]

@[simp] theorem de_setDe (r : Registers) (w : Word) : (r.setDe w).de = w := by
  simp [de, setDe]

@[simp] theorem hl_setHl (r : Registers) (w : Word) : (r.setHl w).hl = w := by
  simp [hl, setHl]

/-- The contents of a pair. -/
def pair (r : Registers) : Pair → Word
  | .bc => r.bc
  | .de => r.de
  | .hl => r.hl
  | .sp => r.sp

/-- The register file with one pair replaced. -/
def setPair (r : Registers) (p : Pair) (w : Word) : Registers :=
  match p with
  | .bc => r.setBc w
  | .de => r.setDe w
  | .hl => r.setHl w
  | .sp => { r with sp := w }

/-- The contents of a pair that can be pushed. -/
def stackPair (r : Registers) : StackPair → Word
  | .bc => r.bc
  | .de => r.de
  | .hl => r.hl
  | .af => r.af

/-- The register file with a popped pair replaced. -/
def setStackPair (r : Registers) (p : StackPair) (w : Word) : Registers :=
  match p with
  | .bc => r.setBc w
  | .de => r.setDe w
  | .hl => r.setHl w
  | .af => r.setAf w

@[simp] theorem pair_setPair (r : Registers) (p : Pair) (w : Word) :
    (r.setPair p w).pair p = w := by
  cases p <;> simp [pair, setPair]

/-! ### Pointers -/

/-- The address that a pointer holds. -/
def pointer (r : Registers) : Pointer → Word
  | .bc => r.bc
  | .de => r.de
  | .hlIncrement | .hlDecrement => r.hl

/-- The register file after a pointer has been used. -/
def advance (r : Registers) : Pointer → Registers
  | .bc | .de => r
  | .hlIncrement => r.incrementHl
  | .hlDecrement => r.decrementHl

/-! ### The dump -/

/-- A byte register in the dump. -/
def showByte (name : String) (b : Byte) : String := name ++ " = 0x" ++ Hex.byte b

/-- A word register in the dump. -/
def showWord (name : String) (w : Word) : String := name ++ " = 0x" ++ Hex.word w

/-- A flag in the dump. -/
def showFlag (name : String) (f : Bool) : String := name ++ " = " ++ if f then "1" else "0"

/-- The registers and flags as four lines of text, without a line break at the end. -/
def dump (r : Registers) : String :=
  let row := String.intercalate "   "
  String.intercalate "\n"
    [row [showByte "A " r.a, showByte "B " r.b, showByte "C " r.c, showByte "D " r.d],
     row [showByte "E " r.e, showByte "H " r.h, showByte "L " r.l, showWord "PC" r.pc],
     showWord "SP" r.sp,
     row [showFlag "Z" r.flags.zero, showFlag "S" r.flags.sign, showFlag "P" r.flags.parity,
       showFlag "H" r.flags.halfCarry, showFlag "C" r.flags.carry]]

end Registers

end Sm83
