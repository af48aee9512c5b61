import Sm83.Proofs.Fetch

/-!
# The bytes of an instruction

The decoder turns a code and the bytes behind it into an instruction. This file goes the other way:
`Instruction.code` and `Instruction.operands` are the bytes that an instruction was made of. They
are written from the same three octal digits that the decoder reads, so that each table of the
decoder meets its inverse here.

What decoding keeps is all that it reads. `code_decode` finds the code again, `operands_decode` the
operand bytes that the code asks for, and `decode_eq_iff` draws the conclusion: two readings give
the same instruction exactly if they agree on those bytes.

A program is bytes in memory, so a statement about a program says which bytes they are.
`Memory.Encodes` does that for one instruction, without the decoder, and
`Memory.instruction_of_encodes` is where the decoder comes in: what is written is also read, if the
bytes are decoded to this instruction at all. They are not for `LD (HL), (HL)`, whose code is that
of HALT.
-/

namespace Sm83

/-! ### Digits and rows -/

/-- The code with the given octal digits. -/
def Byte.ofDigits (quarter row column : Nat) : Byte := .ofNat 8 (64 * quarter + 8 * row + column)

/-- The octal digit that names a place. -/
def Place.digit : Place → Nat
  | .register .b => 0
  | .register .c => 1
  | .register .d => 2
  | .register .e => 3
  | .register .h => 4
  | .register .l => 5
  | .atHl => 6
  | .register .a => 7

/-- The first of the two rows of a pair. -/
def Pair.row : Pair → Nat
  | .bc => 0
  | .de => 2
  | .hl => 4
  | .sp => 6

/-- The first of the two rows of a pair that can be pushed. -/
def StackPair.row : StackPair → Nat
  | .bc => 0
  | .de => 2
  | .hl => 4
  | .af => 6

/-- The first of the two rows of a pointer. -/
def Pointer.row : Pointer → Nat
  | .bc => 0
  | .de => 2
  | .hlIncrement => 4
  | .hlDecrement => 6

/-- The row of a condition in the first half of a column. -/
def Condition.row : Condition → Nat
  | .notZero => 0
  | .zero => 1
  | .notCarry => 2
  | .carry => 3

/-- The row of an operation on the accumulator. -/
def Accumulation.row : Accumulation → Nat
  | .add => 0
  | .addCarry => 1
  | .subtract => 2
  | .subtractCarry => 3
  | .and => 4
  | .xor => 5
  | .or => 6
  | .compare => 7

/-- The row of a rotation. -/
def Rotation.row : Rotation → Nat
  | .left => 0
  | .right => 1
  | .leftThroughCarry => 2
  | .rightThroughCarry => 3

/-- The row of a rotation or shift. -/
def Shift.row : Shift → Nat
  | .rotate r => r.row
  | .arithmeticLeft => 4
  | .arithmeticRight => 5
  | .swap => 6
  | .logicalRight => 7

/-- The code in the second table of an operation on the bits of a place. -/
def BitOperation.code (op : BitOperation) (target : Place) : Byte :=
  match op with
  | .shift s => .ofDigits 0 s.row target.digit
  | .test i => .ofDigits 1 i.val target.digit
  | .reset i => .ofDigits 2 i.val target.digit
  | .set i => .ofDigits 3 i.val target.digit

theorem BitOperation.code_ofCode (n : Byte) :
    (BitOperation.ofCode n).code (.ofDigit n.column) = n := by
  revert n; decide

/-- What is written to the second table is found there again. -/
theorem BitOperation.ofCode_code (op : BitOperation) (target : Place) :
    ofCode (op.code target) = op ∧ .ofDigit (op.code target).column = target := by
  cases op with
  | shift k =>
    cases target with
    | register r =>
      cases k with
      | rotate d => cases d <;> cases r <;> exact ⟨rfl, rfl⟩
      | _ => cases r <;> exact ⟨rfl, rfl⟩
    | atHl =>
      cases k with
      | rotate d => cases d <;> exact ⟨rfl, rfl⟩
      | _ => exact ⟨rfl, rfl⟩
  | test j | reset j | set j =>
    cases target with
    | register r => cases r <;> revert j <;> decide
    | atHl => revert j; decide

/-! ### Code and operands -/

namespace Instruction

/-- The code of an instruction. -/
def code : Instruction → Byte
  | nop => .ofDigits 0 0 0
  | storeSp _ => .ofDigits 0 1 0
  | stop => .ofDigits 0 2 0
  | jumpRelative none _ => .ofDigits 0 3 0
  | jumpRelative (some c) _ => .ofDigits 0 (4 + c.row) 0
  | loadPair p _ => .ofDigits 0 p.row 1
  | addHl p => .ofDigits 0 (p.row + 1) 1
  | storeA (.pointer p) => .ofDigits 0 p.row 2
  | loadA (.pointer p) => .ofDigits 0 (p.row + 1) 2
  | incrementPair p => .ofDigits 0 p.row 3
  | decrementPair p => .ofDigits 0 (p.row + 1) 3
  | increment t => .ofDigits 0 t.digit 4
  | decrement t => .ofDigits 0 t.digit 5
  | load t (.immediate _) => .ofDigits 0 t.digit 6
  | rotateA r => .ofDigits 0 r.row 7
  | decimalAdjust => .ofDigits 0 4 7
  | complement => .ofDigits 0 5 7
  | setCarry => .ofDigits 0 6 7
  | flipCarry => .ofDigits 0 7 7
  | halt => .ofDigits 1 6 6
  | load t (.place p) => .ofDigits 1 t.digit p.digit
  | accumulate op (.place p) => .ofDigits 2 op.row p.digit
  | ret (some c) => .ofDigits 3 c.row 0
  | storeA (.lastPage _) => .ofDigits 3 4 0
  | addSp _ => .ofDigits 3 5 0
  | loadA (.lastPage _) => .ofDigits 3 6 0
  | loadHlSp _ => .ofDigits 3 7 0
  | pop p => .ofDigits 3 p.row 1
  | ret none => .ofDigits 3 1 1
  | retInterrupt => .ofDigits 3 3 1
  | jumpHl => .ofDigits 3 5 1
  | loadSpHl => .ofDigits 3 7 1
  | jump (some c) _ => .ofDigits 3 c.row 2
  | storeA .lastPageC => .ofDigits 3 4 2
  | storeA (.absolute _) => .ofDigits 3 5 2
  | loadA .lastPageC => .ofDigits 3 6 2
  | loadA (.absolute _) => .ofDigits 3 7 2
  | jump none _ => .ofDigits 3 0 3
  | bits _ _ => .ofDigits 3 1 3
  | disableInterrupts => .ofDigits 3 6 3
  | enableInterrupts => .ofDigits 3 7 3
  | call (some c) _ => .ofDigits 3 c.row 4
  | push p => .ofDigits 3 p.row 5
  | call none _ => .ofDigits 3 1 5
  | accumulate op (.immediate _) => .ofDigits 3 op.row 6
  | restart v => .ofDigits 3 v.val 7
  | undefined c => c

/-- The operand bytes of an instruction, but for the padding of STOP. The low byte of a word comes
first. -/
def operands : Instruction → List Byte
  | load _ (.immediate n) | accumulate _ (.immediate n) | storeA (.lastPage n)
  | loadA (.lastPage n) | loadHlSp n | addSp n | jumpRelative _ n => [n]
  | bits op target => [op.code target]
  | storeA (.absolute nn) | loadA (.absolute nn) | loadPair _ nn | storeSp nn | jump _ nn
  | call _ nn => [nn.low, nn.high]
  | _ => []

/-- The code can be found again. -/
theorem code_decode (c n₁ n₂ : Byte) : (decode c n₁ n₂).code = c := by
  -- operand bytes play no part in it, and so it is enough to look at each code once
  have h_zero : (decode c n₁ n₂).code = (decode c 0 0).code := by
    unfold decode ofFirstQuarter ofLastQuarter
    split <;> (try rfl) <;> split <;> (try rfl) <;> split <;> (try rfl)
    split <;> rfl
  rw [h_zero]
  clear h_zero
  revert c
  decide

/-- The operand bytes can be found again, as far as the code asks for them. -/
theorem operands_decode (c n₁ n₂ : Byte) :
    (decode c n₁ n₂).operands = [n₁, n₂].take (fetchedLength c - 1) := by
  rw [fetchedLength, ← fetchedBytes_decode c n₁ n₂]
  -- the two cells with something to compute: a word, and a code in the second table
  have h_word : [(Word.ofBytes n₂ n₁).low, (Word.ofBytes n₂ n₁).high] = [n₁, n₂] := by
    rw [Word.low_ofBytes, Word.high_ofBytes]
  have h_bits := BitOperation.code_ofCode n₁
  unfold decode ofFirstQuarter ofSecondQuarter ofLastQuarter
  split <;> (try split) <;> (try split) <;> (try split) <;>
    first
    | rfl
    | exact h_word
    | exact congrArg (fun n => [n]) h_bits

theorem decode_eq_stop_iff {c n₁ n₂ : Byte} : decode c n₁ n₂ = stop ↔ c = 0x10 := by
  constructor
  · intro h
    rw [← code_decode c n₁ n₂, h]
    rfl
  · rintro rfl
    rfl

theorem decode_eq_halt_iff {c n₁ n₂ : Byte} : decode c n₁ n₂ = halt ↔ c = 0x76 := by
  constructor
  · intro h
    rw [← code_decode c n₁ n₂, h]
    rfl
  · rintro rfl
    rfl

/-- Only STOP has a byte that is not read. -/
theorem fetchedLength_eq {c : Byte} (h : c ≠ 0x10) : fetchedLength c = encodedLength c :=
  (length_eq_fetchedBytes fun h_stop => h (decode_eq_stop_iff.1 h_stop)).symm

/-- **Decoding loses nothing that it reads.** -/
theorem decode_eq_iff {c n₁ n₂ c' n₁' n₂' : Byte} :
    decode c n₁ n₂ = decode c' n₁' n₂' ↔
      c = c' ∧ (1 < fetchedLength c → n₁ = n₁') ∧ (2 < fetchedLength c → n₂ = n₂') := by
  constructor
  · intro h
    obtain rfl : c = c' := by rw [← code_decode c n₁ n₂, h, code_decode]
    have h_operands := congrArg operands h
    rw [operands_decode, operands_decode] at h_operands
    refine ⟨rfl, fun h₁ => ?_, fun h₂ => ?_⟩
    · obtain ⟨k, hk⟩ := Nat.exists_eq_add_of_lt h₁
      rw [show fetchedLength c - 1 = k + 1 by omega] at h_operands
      exact (List.cons.inj h_operands).1
    · obtain ⟨k, hk⟩ := Nat.exists_eq_add_of_lt h₂
      rw [show fetchedLength c - 1 = k + 2 by omega] at h_operands
      exact (List.cons.inj (List.cons.inj h_operands).2).1
  · rintro ⟨rfl, h₁, h₂⟩
    exact decode_congr h₁ h₂

/-! ### Instructions in memory -/

/-- The bytes of an instruction, but for the padding of STOP. -/
def bytes (i : Instruction) : List Byte := i.code :: i.operands

/-- Whether there are bytes that are decoded to this instruction. -/
def Encodable (i : Instruction) : Prop := ∃ code n₁ n₂, decode code n₁ n₂ = i

theorem encodable_push (p : StackPair) : (push p).Encodable := by
  refine ⟨.ofDigits 3 p.row 5, 0, 0, ?_⟩
  cases p <;> rfl

theorem encodable_pop (p : StackPair) : (pop p).Encodable := by
  refine ⟨.ofDigits 3 p.row 1, 0, 0, ?_⟩
  cases p <;> rfl

theorem encodable_accumulate (op : Accumulation) (source : Source) :
    (accumulate op source).Encodable := by
  cases source with
  | place p =>
    refine ⟨.ofDigits 2 op.row p.digit, 0, 0, ?_⟩
    cases op <;> cases p with
    | register r => cases r <;> rfl
    | atHl => rfl
  | immediate n =>
    refine ⟨.ofDigits 3 op.row 6, n, 0, ?_⟩
    cases op <;> rfl

theorem encodable_bits (op : BitOperation) (target : Place) : (bits op target).Encodable := by
  obtain ⟨operation, place⟩ := op.ofCode_code target
  refine ⟨.ofDigits 3 1 3, op.code target, 0, ?_⟩
  show bits (.ofCode (op.code target)) (.ofDigit (op.code target).column) = bits op target
  rw [operation, place]

end Instruction

namespace Memory

/-- **A written instruction.** The bytes from an address on are those of the instruction. -/
def Encodes (m : Memory) (a : Word) (i : Instruction) : Prop :=
  ∀ k (h : k < i.bytes.length), m.get (a + .ofNat 16 k) = i.bytes[k]

instance (m : Memory) (a : Word) (i : Instruction) : Decidable (m.Encodes a i) :=
  inferInstanceAs (Decidable (∀ k (h : k < i.bytes.length), m.get (a + .ofNat 16 k) = i.bytes[k]))

/-- What is written is read. -/
theorem instruction_of_encodes {m : Memory} {a : Word} {i : Instruction} (written : m.Encodes a i)
    (encodable : i.Encodable) : m.instruction a = i := by
  obtain ⟨c, n₁, n₂, rfl⟩ := encodable
  have code : m.get a = c := by
    have first := written 0 (Nat.zero_lt_succ _)
    rw [BitVec.add_zero] at first
    exact first.trans (Instruction.code_decode c n₁ n₂)
  rw [instruction, Instruction.decode_eq_iff, code]
  -- an operand byte is only written down if the code asks for it
  refine ⟨rfl, fun h₁ => ?_, fun h₂ => ?_⟩
  · have second := written 1 (by simp [Instruction.bytes, Instruction.operands_decode]; omega)
    simpa [Instruction.bytes, Instruction.operands_decode] using second
  · have third := written 2 (by simp [Instruction.bytes, Instruction.operands_decode]; omega)
    simpa [Instruction.bytes, Instruction.operands_decode] using third

end Memory

end Sm83
