import Sm83.Memory.Code

/-!
# Listings

A listing walks through memory from one instruction to the next, each time by the length of the
instruction. It ends with an instruction whose bytes run past the end of memory, or behind the
last byte; it never wraps around.

A window shows the instructions around an address. Instructions vary in length, so those before
the address can only be found by walking up to it from the start of memory.

The lines of a listing are gathered in a list that is made large enough at the start for all the
lines that are asked for. What the machine that runs this can spare for a list is its `Room`. A
listing that asks for more comes to nothing: there is no answer and not even a fault.
-/

namespace Sm83

/-- One line of a listing: an instruction and where it lies. -/
structure Line where
  address : Word
  instruction : Instruction
  deriving DecidableEq

/-- The instruction of a line in assembly language. -/
def Line.text (l : Line) : String := l.instruction.text l.address

/-- A line as it is printed: the address and the instruction. -/
def Line.listed (l : Line) : String := Hex.word l.address ++ "  " ++ l.text

/-- How many lines a list can be made large enough for. A line takes thirty-two bytes, and no list
takes more than a signed number of sixty-four bits can say; but the lines of a full memory always
find room. -/
structure Room where
  lines : Nat
  enough : Memory.size ≤ lines
  limited : 32 * lines ≤ 0x7FFFFFFFFFFFFFFF

/-- The room in a process whose addresses have forty-seven bits. -/
def Room.ofProcess : Room := ⟨0x800000000000 / 32, by decide, by decide⟩

namespace Memory

/-- The line for the instruction at `pc`, if it lies in memory as a whole. -/
def lineAt? (m : Memory) (pc : Word) : Option Line :=
  match m.instructionAt pc with
  | .ok i => some ⟨pc, i⟩
  | .error _ => none

/-- Walks over at most `count` instructions from the address `a` on, and puts their lines in
front of those already found. -/
def walkLines (m : Memory) : (count a : Nat) → List Line → List Line
  | 0, _, found => found
  | count + 1, a, found =>
    if a < size then
      match m.lineAt? (.ofNat 16 a) with
      | some line => m.walkLines count (a + line.instruction.length) (line :: found)
      | none => found
    else found

/-- The lines of at most `count` consecutive instructions from the address `a` on. -/
def linesFrom (m : Memory) (a count : Nat) : List Line := (m.walkLines count a []).reverse

/-- What has been found stays behind what is found next. -/
theorem walkLines_append (m : Memory) (count a : Nat) (found : List Line) :
    m.walkLines count a found = m.walkLines count a [] ++ found := by
  induction count generalizing a found with
  | zero => rfl
  | succ count ih =>
    rw [walkLines, walkLines]
    split
    · cases m.lineAt? (.ofNat 16 a) with
      | none => rfl
      | some line =>
        simp only
        rw [ih _ (line :: found), ih _ [line], List.append_assoc]
        rfl
    · rfl

@[simp] theorem linesFrom_zero (m : Memory) (a : Nat) : m.linesFrom a 0 = [] := rfl

/-- A listing begins with the instruction at its first address and goes on behind it. -/
theorem linesFrom_succ (m : Memory) (a count : Nat) :
    m.linesFrom a (count + 1) =
      if a < size then
        match m.lineAt? (.ofNat 16 a) with
        | some line => line :: m.linesFrom (a + line.instruction.length) count
        | none => []
      else [] := by
  rw [linesFrom, walkLines]
  split
  · cases m.lineAt? (.ofNat 16 a) with
    | none => rfl
    | some line =>
      simp only
      rw [walkLines_append, List.reverse_append]
      rfl
  · rfl

/-- At most `count` consecutive instructions from `start` on, provided that there is room for
`count` lines, however many there will be. -/
def listing (m : Memory) (room : Room) (start : Word) (count : Nat) : Option (List Line) :=
  if count ≤ room.lines then some (m.linesFrom start.toNat count) else none

/-- Walks by lengths from the address `a` up to `limit`, and puts the addresses that are met in
front of those already found. Every step leads on, so `limit` steps are enough. -/
def walkAddresses (m : Memory) (limit : Nat) : (steps a : Nat) → List Word → List Word
  | 0, _, found => found
  | steps + 1, a, found =>
    if a < limit then
      m.walkAddresses limit steps (a + m.lengthAt (.ofNat 16 a)) (.ofNat 16 a :: found)
    else found

/-- The addresses below `pc` that a walk from the start of memory meets, the last one first. -/
def preceding (m : Memory) (pc : Word) : List Word := m.walkAddresses pc.toNat pc.toNat 0 []

/-- The lines of the last `before` instructions ahead of `pc`. -/
def linesAhead (m : Memory) (pc : Word) (before : Nat) : List Line :=
  ((m.preceding pc).take before).reverse.filterMap m.lineAt?

/-- The last `before` instructions ahead of `pc`, the one at `pc`, and `after` more behind it. Only
those from `pc` on need room beforehand. -/
def window (m : Memory) (room : Room) (pc : Word) (before after : Nat) : Option (List Line) := do
  let behind ← m.listing room pc (after + 1)
  return m.linesAhead pc before ++ behind

end Memory

end Sm83
