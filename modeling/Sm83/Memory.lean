import Sm83.Fault
import Sm83.Memory.Bank

/-!
# Memory

The processor sees 64 KB of plain memory. Every word is the address of a byte, so `get` and
`set` are total and `get_set` is their law.

Whoever computes an address as a number may run past the last byte. The checked accesses take
such numbers and refuse them with a fault that names the address. Checked writes are actions that
change memory in place, one byte after the other, so what has been written stays written if an
action fails later on. A word or a block is checked as a whole before its first byte is written.
-/

namespace Sm83

/-- The number of bytes in memory. -/
def Memory.size : Nat := 0x10000

/-- The contents of the 64 KB address space. -/
structure Memory where
  bank : Bank 16

namespace Memory

/-! ### Bytes at words -/

/-- Memory in which every byte is zero. -/
def zero : Memory := ⟨Bank.fill 0 16⟩

/-- The byte at an address. -/
def get (m : Memory) (a : Word) : Byte := m.bank.get a.toNat

/-- Memory with the byte at one address replaced. -/
def set (m : Memory) (a : Word) (b : Byte) : Memory := ⟨m.bank.set a.toNat b⟩

@[simp] theorem get_zero (a : Word) : zero.get a = 0 := Bank.get_fill 0 16 a.toNat

/-- A write is seen at its own address and nowhere else. -/
theorem get_set (m : Memory) (a a' : Word) (b : Byte) :
    (m.set a b).get a' = if a' = a then b else m.get a' := by
  exact Bank.get_set m.bank a a' b

@[simp] theorem get_set_self (m : Memory) (a : Word) (b : Byte) : (m.set a b).get a = b := by
  simp [get_set]

theorem get_set_of_ne (m : Memory) {a a' : Word} (h : a' ≠ a) (b : Byte) :
    (m.set a b).get a' = m.get a' := by
  simp [get_set, h]

/-- Memory is determined by its bytes. -/
@[ext] theorem ext {m m' : Memory} (h : ∀ a, m.get a = m'.get a) : m = m' := by
  obtain ⟨t⟩ := m
  obtain ⟨u⟩ := m'
  congr 1
  exact Bank.ext h

/-- The word whose low byte is at `a` and whose high byte follows it; the address after the
last one is zero. -/
def getWord (m : Memory) (a : Word) : Word := .ofBytes (m.get (a + 1)) (m.get a)

/-- Memory with the bytes of a word at `a` and the address after it. -/
def setWord (m : Memory) (a w : Word) : Memory := (m.set a w.low).set (a + 1) w.high

/-- All the bytes in the order of their addresses. -/
def toList (m : Memory) : List Byte := m.bank.toList

/-! ### Checked reads -/

/-- Reads the byte at an address. -/
def readByte (m : Memory) (a : Nat) : Except Fault Byte :=
  if a < size then .ok (m.get (.ofNat 16 a)) else .error (.outOfRange a)

/-- Reads a word, its low byte first. -/
def readWord (m : Memory) (a : Nat) : Except Fault Word := do
  let low ← m.readByte a
  let high ← m.readByte (a + 1)
  return .ofBytes high low

/-- Reads `count` bytes in the order of their addresses. -/
def readBlock (m : Memory) (a : Nat) : (count : Nat) → Except Fault (List Byte)
  | 0 => return []
  | count + 1 => do
    let b ← m.readByte a
    let bs ← m.readBlock (a + 1) count
    return b :: bs

/-- Every word addresses a byte. -/
@[simp] theorem readByte_toNat (m : Memory) (a : Word) : m.readByte a.toNat = .ok (m.get a) := by
  simp [readByte, size, a.isLt]

/-- A block that lies in memory is read byte by byte. -/
theorem readBlock_of_le (m : Memory) {a count : Nat} (h : a + count ≤ size) :
    m.readBlock a count = .ok ((List.range' a count).map fun i => m.get (.ofNat 16 i)) := by
  induction count generalizing a with
  | zero => rfl
  | succ count ih =>
    have ha : a < size := by omega
    rw [readBlock, readByte, if_pos ha, ih (by omega)]
    rfl

/-- A block that starts in memory and runs past its end fails at the first address behind it. -/
theorem readBlock_of_lt (m : Memory) {a count : Nat} (ha : a ≤ size) (h : size < a + count) :
    m.readBlock a count = .error (.outOfRange size) := by
  induction count generalizing a with
  | zero => omega
  | succ count ih =>
    rcases Nat.lt_or_eq_of_le ha with ha | rfl
    · rw [readBlock, readByte, if_pos ha, ih ha (by omega)]
      rfl
    · rw [readBlock, readByte, if_neg (Nat.lt_irrefl _)]
      rfl

/-! ### Checked writes -/

/-- An action on memory that yields a value or fails. -/
abbrev Action := EStateM Fault Memory

/-- Replaces the byte at an address. -/
def writeByte (a : Nat) (b : Byte) : Action Unit := do
  if size ≤ a then
    throw (.outOfRange a)
  modify (·.set (.ofNat 16 a) b)

/-- Replaces the two bytes of a word, the low one first. The address of the second one is checked
ahead of both. -/
def writeWord (a : Nat) (w : Word) : Action Unit := do
  if size ≤ a + 1 then
    throw (.outOfRange (a + 1))
  writeByte a w.low
  writeByte (a + 1) w.high

/-- Replaces the bytes from an address on, one after the other. -/
def writeBytes (a : Nat) : List Byte → Action Unit
  | [] => return
  | b :: bs => do
    writeByte a b
    writeBytes (a + 1) bs

/-- Replaces the bytes from an address on by those of a block, which must fit as a whole. An
empty block still fits right behind the last byte. -/
def writeBlock (a : Nat) (bs : List Byte) : Action Unit := do
  if size < a + bs.length then
    throw (.blockTooLarge a bs.length)
  writeBytes a bs

end Memory

end Sm83
