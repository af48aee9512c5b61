import Sm83.Instruction

/-!
# Decoding

An instruction begins with its code. Read as an octal numeral, a code has three digits: the
quarter of the code space, the row and the column. Within a quarter the column mostly chooses
what is done and the row on what. Operands follow the code; the low byte of a word comes first.
Every code has a meaning, if only that of an undefined one.

The length of an instruction shows in its code alone (`length_decode`).
-/

namespace Sm83

/-! ### The fields of a code -/

namespace Byte

/-- The first octal digit of a code. -/
def quarter (code : Byte) : Fin 4 := ⟨code.toNat / 64, by have := code.isLt; omega⟩

/-- The second octal digit of a code. -/
def row (code : Byte) : Fin 8 := ⟨code.toNat / 8 % 8, by omega⟩

/-- The last octal digit of a code. -/
def column (code : Byte) : Fin 8 := ⟨code.toNat % 8, by omega⟩

end Byte

/-- The place that an octal digit names. -/
def Place.ofDigit : Fin 8 → Place
  | 0 => .register .b
  | 1 => .register .c
  | 2 => .register .d
  | 3 => .register .e
  | 4 => .register .h
  | 5 => .register .l
  | 6 => .atHl
  | 7 => .register .a

/-- The pair that a row names; rows come in twos. -/
def Pair.ofRow : Fin 8 → Pair
  | 0 | 1 => .bc
  | 2 | 3 => .de
  | 4 | 5 => .hl
  | 6 | 7 => .sp

/-- The pair that a row of stack instructions names. -/
def StackPair.ofRow : Fin 8 → StackPair
  | 0 | 1 => .bc
  | 2 | 3 => .de
  | 4 | 5 => .hl
  | 6 | 7 => .af

/-- The pointer that a row names. -/
def Pointer.ofRow : Fin 8 → Pointer
  | 0 | 1 => .bc
  | 2 | 3 => .de
  | 4 | 5 => .hlIncrement
  | 6 | 7 => .hlDecrement

/-- The condition that a row names, in either half of a column. -/
def Condition.ofRow : Fin 8 → Condition
  | 0 | 4 => .notZero
  | 1 | 5 => .zero
  | 2 | 6 => .notCarry
  | 3 | 7 => .carry

/-- The operation on the accumulator that a row names. -/
def Accumulation.ofRow : Fin 8 → Accumulation
  | 0 => .add
  | 1 => .addCarry
  | 2 => .subtract
  | 3 => .subtractCarry
  | 4 => .and
  | 5 => .xor
  | 6 => .or
  | 7 => .compare

/-- The rotation or shift that a row names. -/
def Shift.ofRow : Fin 8 → Shift
  | 0 => .rotate .left
  | 1 => .rotate .right
  | 2 => .rotate .leftThroughCarry
  | 3 => .rotate .rightThroughCarry
  | 4 => .arithmeticLeft
  | 5 => .arithmeticRight
  | 6 => .swap
  | 7 => .logicalRight

/-- The operation on bits that a code in the second table stands for. -/
def BitOperation.ofCode (code : Byte) : BitOperation :=
  match code.quarter with
  | 0 => .shift (.ofRow code.row)
  | 1 => .test code.row
  | 2 => .reset code.row
  | 3 => .set code.row

/-! ### The tables -/

namespace Instruction

/-- The codes of the first quarter, followed by the byte `n` or the word `nn`. -/
def ofFirstQuarter (row column : Fin 8) (n : Byte) (nn : Word) : Instruction :=
  match column with
  | 0 =>
    match row with
    | 0 => nop
    | 1 => storeSp nn
    | 2 => stop
    | 3 => jumpRelative none n
    | _ => jumpRelative (some (.ofRow row)) n
  | 1 => if row.val % 2 = 0 then loadPair (.ofRow row) nn else addHl (.ofRow row)
  | 2 =>
    if row.val % 2 = 0 then storeA (.pointer (.ofRow row)) else loadA (.pointer (.ofRow row))
  | 3 => if row.val % 2 = 0 then incrementPair (.ofRow row) else decrementPair (.ofRow row)
  | 4 => increment (.ofDigit row)
  | 5 => decrement (.ofDigit row)
  | 6 => load (.ofDigit row) (.immediate n)
  | 7 =>
    match row with
    | 0 => rotateA .left
    | 1 => rotateA .right
    | 2 => rotateA .leftThroughCarry
    | 3 => rotateA .rightThroughCarry
    | 4 => decimalAdjust
    | 5 => complement
    | 6 => setCarry
    | 7 => flipCarry

/-- The codes of the second quarter. HALT has the code that would load a byte in memory from
itself. -/
def ofSecondQuarter (row column : Fin 8) : Instruction :=
  if row = 6 ∧ column = 6 then halt else load (.ofDigit row) (.place (.ofDigit column))

/-- The code `code` of the last quarter, followed by the byte `n` or the word `nn`. -/
def ofLastQuarter (code : Byte) (row column : Fin 8) (n : Byte) (nn : Word) : Instruction :=
  match column with
  | 0 =>
    match row with
    | 4 => storeA (.lastPage n)
    | 5 => addSp n
    | 6 => loadA (.lastPage n)
    | 7 => loadHlSp n
    | _ => ret (some (.ofRow row))
  | 1 =>
    match row with
    | 1 => ret none
    | 3 => retInterrupt
    | 5 => jumpHl
    | 7 => loadSpHl
    | _ => pop (.ofRow row)
  | 2 =>
    match row with
    | 4 => storeA .lastPageC
    | 5 => storeA (.absolute nn)
    | 6 => loadA .lastPageC
    | 7 => loadA (.absolute nn)
    | _ => jump (some (.ofRow row)) nn
  | 3 =>
    match row with
    | 0 => jump none nn
    | 1 => bits (.ofCode n) (.ofDigit n.column)
    | 6 => disableInterrupts
    | 7 => enableInterrupts
    | _ => undefined code
  | 4 => if row.val < 4 then call (some (.ofRow row)) nn else undefined code
  | 5 =>
    if row.val % 2 = 0 then push (.ofRow row)
    else if row = 1 then call none nn else undefined code
  | 6 => accumulate (.ofRow row) (.immediate n)
  | 7 => restart row

/-- The instruction with the given code, followed by two bytes of which it may use some. -/
def decode (code n₁ n₂ : Byte) : Instruction :=
  match code.quarter with
  | 0 => ofFirstQuarter code.row code.column n₁ (.ofBytes n₂ n₁)
  | 1 => ofSecondQuarter code.row code.column
  | 2 => accumulate (.ofRow code.row) (.place (.ofDigit code.column))
  | 3 => ofLastQuarter code code.row code.column n₁ (.ofBytes n₂ n₁)

/-- The instruction at the start of a list of bytes. Bytes that are missing count as zero; no
instruction uses more than three. -/
def ofBytes (bytes : List Byte) : Instruction :=
  decode (bytes.getD 0 0) (bytes.getD 1 0) (bytes.getD 2 0)

/-! ### Lengths -/

/-- How many bytes the instruction with this code takes. -/
def encodedLength (code : Byte) : Nat := (decode code 0 0).length

/-- The length of an instruction does not depend on its operands. -/
theorem length_decode (code n₁ n₂ : Byte) :
    (decode code n₁ n₂).length = encodedLength code := by
  unfold encodedLength decode ofFirstQuarter ofLastQuarter
  split <;> (try rfl) <;> split <;> (try rfl) <;> split <;> (try rfl)
  split <;> rfl

theorem encodedLength_pos (code : Byte) : 0 < encodedLength code := length_pos _

theorem encodedLength_le (code : Byte) : encodedLength code ≤ 3 := length_le _

end Instruction

end Sm83
