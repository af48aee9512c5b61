import Sm83.Memory.Code

/-!
# The instruction at an address

`Memory.fetch` reads a code and then the operand that the instruction with this code takes, if it
takes one, and fails where that runs past the end of memory. Most statements about the processor
want the instruction itself, whether or not it can be fetched: `Memory.instruction` reads three
bytes at any address, going on at zero behind the last byte, and decodes them. Nothing is lost by
that, since the bytes that an instruction does not ask for do not influence it
(`Instruction.decode_congr`), and `Memory.fetch_eq` says when the two readings agree:

* where the code and the operand lie in memory, `fetch` yields that instruction;
* where they do not, it fails at the first address behind memory, whatever the code.

`Memory.instructionAt_eq` says the same of the reading for a listing, which takes as many bytes as
the instruction is long. The processor has no need of lengths, so that the two readings take the
same bytes is a property of the table of lengths (`Instruction.length_eq_fetchedBytes`). They differ
for the padding of STOP only.
-/

namespace Sm83

theorem Word.ofNat_toNat_add (a : Word) (n : Nat) :
    BitVec.ofNat 16 (a.toNat + n) = a + BitVec.ofNat 16 n := by
  rw [BitVec.ofNat_add, BitVec.ofNat_toNat, BitVec.setWidth_eq]

namespace Instruction

/-! ### The bytes that are read -/

/-- How many bytes the processor reads to carry an instruction out: its code, and the byte or the
word that it takes as its operand. -/
def fetchedBytes : Instruction → Nat
  | load _ (.immediate _) | accumulate _ (.immediate _) | storeA (.lastPage _)
  | loadA (.lastPage _) | loadHlSp _ | addSp _ | bits _ _ | jumpRelative _ _ => 2
  | storeA (.absolute _) | loadA (.absolute _) | loadPair _ _ | storeSp _ | jump _ _
  | call _ _ => 3
  | _ => 1

/-- There is a code, and perhaps an operand of one byte or two. -/
theorem fetchedBytes_cases (i : Instruction) :
    i.fetchedBytes = 1 ∨ i.fetchedBytes = 2 ∨ i.fetchedBytes = 3 := by
  fun_cases fetchedBytes i <;> decide

theorem fetchedBytes_pos (i : Instruction) : 0 < i.fetchedBytes := by
  have := i.fetchedBytes_cases
  omega

/-- **The lengths are right.** But for STOP, the length of an instruction counts the bytes that the
processor reads for it. -/
theorem length_eq_fetchedBytes {i : Instruction} (h : i ≠ stop) : i.length = i.fetchedBytes := by
  cases i with
  | stop => exact absurd rfl h
  | load target source | accumulate op source => cases source <;> rfl
  | storeA l | loadA l => cases l <;> rfl
  | _ => rfl

theorem fetchedBytes_le_length (i : Instruction) : i.fetchedBytes ≤ i.length := by
  by_cases h : i = stop
  · subst h
    decide
  · exact Nat.le_of_eq (length_eq_fetchedBytes h).symm

/-- Like the length, the number of bytes that are read shows in the code alone. -/
theorem fetchedBytes_decode (code n₁ n₂ : Byte) :
    (decode code n₁ n₂).fetchedBytes = (decode code 0 0).fetchedBytes := by
  -- one goal for each cell of the tables: what is decoded there differs in its operands only
  unfold decode ofFirstQuarter ofLastQuarter
  split <;> (try rfl) <;> split <;> (try rfl) <;> split <;> (try rfl)
  split <;> rfl

/-- How many bytes the processor reads for the instruction with this code. -/
def fetchedLength (code : Byte) : Nat := (decode code 0 0).fetchedBytes

theorem fetchedLength_le (code : Byte) : fetchedLength code ≤ encodedLength code :=
  fetchedBytes_le_length _

/-! ### The bytes that are not read -/

/-- **Only the bytes that are read count.** Two readings of a code give the same instruction if
they agree on the operand bytes that the code asks for. -/
theorem decode_congr {code n₁ n₂ n₁' n₂' : Byte} (h₁ : 1 < fetchedLength code → n₁ = n₁')
    (h₂ : 2 < fetchedLength code → n₂ = n₂') : decode code n₁ n₂ = decode code n₁' n₂' := by
  revert h₁ h₂
  unfold fetchedLength decode ofFirstQuarter ofLastQuarter
  -- in each cell of the tables the code asks for no operand byte, for one or for both
  split <;> (try split) <;> (try split) <;> (try split) <;> intro h₁ h₂ <;>
    first
    | rfl
    | rw [h₁ (Nat.lt_succ_self 1)]
    | rw [h₁ (Nat.le_succ 2), h₂ (Nat.lt_succ_self 2)]

theorem ofBytes_take {code n₁ n₂ : Byte} {count : Nat} (h : fetchedLength code ≤ count) :
    ofBytes ([code, n₁, n₂].take count) = decode code n₁ n₂ := by
  have h_pos : 0 < fetchedLength code := fetchedBytes_pos _
  -- the bytes that are cut off are decoded as zeros
  match count with
  | 0 => exact absurd h (by omega)
  | 1 =>
    exact decode_congr (fun h' => absurd h (Nat.not_le.2 h'))
      (fun h' => absurd h (Nat.not_le.2 (Nat.lt_of_succ_lt h')))
  | 2 => exact decode_congr (fun _ => rfl) (fun h' => absurd h (Nat.not_le.2 h'))
  | _ + 3 => rw [List.take_of_length_le (Nat.le_add_left 3 _)]; rfl

/-! ### Operands -/

section Complete

variable {f : Type → Type} [Monad f] {byte byte' : f Byte} {word word' : f Word}
  {lookUp : Byte → f Instruction} {i : Instruction} {e : Fault}

/-- What an instruction does not take is not read. -/
theorem complete_congr (h₁ : i.fetchedBytes = 2 → byte = byte')
    (h₂ : i.fetchedBytes = 3 → word = word') :
    i.complete byte word lookUp = i.complete byte' word' lookUp := by
  cases i with
  | load target source | accumulate op source =>
    cases source with
    | place p => rfl
    | immediate n => rw [h₁ rfl]; rfl
  | storeA l | loadA l =>
    cases l with
    | pointer p | lastPageC => rfl
    | absolute a => rw [h₂ rfl]; rfl
    | lastPage n => rw [h₁ rfl]; rfl
  | loadHlSp _ | addSp _ | bits _ _ | jumpRelative _ _ => rw [h₁ rfl]; rfl
  | loadPair _ _ | storeSp _ | jump _ _ | call _ _ => rw [h₂ rfl]; rfl
  | _ => rfl

theorem complete_of_byte_error {word : Except Fault Word} {lookUp : Byte → Except Fault Instruction}
    (h : i.fetchedBytes = 2) : i.complete (.error e) word lookUp = .error e := by
  revert h
  fun_cases fetchedBytes i <;> intro h <;> first | rfl | cases h

theorem complete_of_word_error {byte : Except Fault Byte} {lookUp : Byte → Except Fault Instruction}
    (h : i.fetchedBytes = 3) : i.complete byte (.error e) lookUp = .error e := by
  revert h
  fun_cases fetchedBytes i <;> intro h <;> first | rfl | cases h

/-- A code that is completed from the bytes behind it is decoded with them. -/
theorem complete_decode {lookUp : Byte → Except Fault Instruction} (code n₁ n₂ : Byte)
    (h : ∀ n : Byte, lookUp n = .ok (bits (.ofCode n) (.ofDigit n.column))) :
    (decode code 0 0).complete (.ok n₁) (.ok (.ofBytes n₂ n₁)) lookUp
      = .ok (decode code n₁ n₂) := by
  unfold decode ofFirstQuarter ofSecondQuarter ofLastQuarter
  -- in each cell of the tables the operand is what has been read, or the second table says it
  split <;> (try split) <;> (try split) <;> (try split) <;> first | rfl | exact h n₁

end Complete

end Instruction

namespace Memory

/-- The instruction at `pc`, where memory is read as if it went on at zero behind its last
byte. -/
def instruction (m : Memory) (pc : Word) : Instruction :=
  .decode (m.get pc) (m.get (pc + 1)) (m.get (pc + 2))

theorem readBlock_eq_take (m : Memory) {pc : Word} {count : Nat} (hc : count ≤ 3)
    (h : pc.toNat + count ≤ size) :
    m.readBlock pc.toNat count
      = .ok ([m.get pc, m.get (pc + 1), m.get (pc + 2)].take count) := by
  rw [readBlock_of_le m h]
  -- the block is read at numbers, and the instruction at words
  have h₀ : BitVec.ofNat 16 pc.toNat = pc := BitVec.ofNat_toNat 16 pc
  have h₁ : BitVec.ofNat 16 (pc.toNat + 1) = pc + 1 := Word.ofNat_toNat_add pc 1
  have h₂ : BitVec.ofNat 16 (pc.toNat + 1 + 1) = pc + 2 := Word.ofNat_toNat_add pc 2
  match count with
  | 0 => rfl
  | 1 => simp only [List.range', List.map_cons, List.map_nil, h₀]; rfl
  | 2 => simp only [List.range', List.map_cons, List.map_nil, h₀, h₁]; rfl
  | 3 => simp only [List.range', List.map_cons, List.map_nil, h₀, h₁, h₂]; rfl
  | _ + 4 => exact absurd hc (by omega)

theorem readByte_behind (m : Memory) (pc : Word) :
    m.readByte (pc.toNat + 1) =
      if pc.toNat + 2 ≤ size then .ok (m.get (pc + 1)) else .error (.outOfRange size) := by
  have h₁ : BitVec.ofNat 16 (pc.toNat + 1) = pc + 1 := Word.ofNat_toNat_add pc 1
  rw [readByte, h₁]
  by_cases h : pc.toNat + 1 < size
  · rw [if_pos h, if_pos (Nat.succ_le_of_lt h)]
  · -- nothing but the end of memory follows the last byte
    have h_end : pc.toNat + 1 = size := Nat.le_antisymm pc.isLt (Nat.not_lt.1 h)
    rw [if_neg h, if_neg (Nat.not_le_of_lt (Nat.lt_succ_of_le (Nat.not_lt.1 h))), h_end]

theorem readWord_behind (m : Memory) (pc : Word) :
    m.readWord (pc.toNat + 1) =
      if pc.toNat + 3 ≤ size then .ok (.ofBytes (m.get (pc + 2)) (m.get (pc + 1)))
      else .error (.outOfRange size) := by
  have h₂ : BitVec.ofNat 16 (pc.toNat + 1 + 1) = pc + 2 := Word.ofNat_toNat_add pc 2
  rw [readWord, readByte_behind, readByte, h₂]
  by_cases h : pc.toNat + 3 ≤ size
  · rw [if_pos h, if_pos (show pc.toNat + 1 + 1 < size from h), if_pos (Nat.le_of_succ_le h)]
    rfl
  · rw [if_neg h, if_neg (show ¬pc.toNat + 1 + 1 < size from h)]
    by_cases h_low : pc.toNat + 2 ≤ size
    · have h_end : pc.toNat + 1 + 1 = size := by omega
      rw [if_pos h_low, h_end]
      rfl
    · rw [if_neg h_low]
      rfl

/-- **What is fetched.** The processor gets the instruction at `pc` if the bytes it needs lie in
memory, and fails right behind memory if they do not. -/
theorem fetch_eq (m : Memory) (pc : Word) :
    m.fetch pc =
      if pc.toNat + (m.instruction pc).fetchedBytes ≤ size then .ok (m.instruction pc)
      else .error (.outOfRange size) := by
  have h_count : (m.instruction pc).fetchedBytes
      = (Instruction.decode (m.get pc) 0 0).fetchedBytes :=
    Instruction.fetchedBytes_decode _ _ _
  have h_whole := Instruction.complete_decode (m.get pc) (m.get (pc + 1)) (m.get (pc + 2))
    fun n => (rfl : (pure (.decode 0xCB n 0) : Except Fault Instruction) = _)
  rw [fetch, readByte_toNat, h_count, readByte_behind, readWord_behind]
  change Instruction.complete _ _ _ (.decode (m.get pc) 0 0) = _
  -- what the code does not ask for may as well have been read
  obtain h | h | h := (Instruction.decode (m.get pc) 0 0).fetchedBytes_cases <;> rw [h]
  · rw [if_pos (show pc.toNat + 1 ≤ size from pc.isLt)]
    exact (Instruction.complete_congr (by omega) (by omega)).trans h_whole
  · by_cases h_fits : pc.toNat + 2 ≤ size
    · simp only [if_pos h_fits]
      exact (Instruction.complete_congr (fun _ => rfl) (by omega)).trans h_whole
    · simp only [if_neg h_fits]
      exact Instruction.complete_of_byte_error h
  · by_cases h_fits : pc.toNat + 3 ≤ size
    · simp only [if_pos h_fits]
      exact (Instruction.complete_congr (by omega) (fun _ => rfl)).trans h_whole
    · simp only [if_neg h_fits]
      exact Instruction.complete_of_word_error h

theorem length_instruction (m : Memory) (pc : Word) :
    (m.instruction pc).length = m.lengthAt pc :=
  Instruction.length_decode _ _ _

/-- **What is listed.** The instruction at `pc` is listed if all its bytes lie in memory. -/
theorem instructionAt_eq (m : Memory) (pc : Word) :
    m.instructionAt pc =
      if pc.toNat + m.lengthAt pc ≤ size then .ok (m.instruction pc)
      else .error (.outOfRange size) := by
  unfold instructionAt
  split
  · next h =>
    have h_le : m.lengthAt pc ≤ 3 := Instruction.encodedLength_le _
    rw [readBlock_eq_take m h_le h]
    exact congrArg Except.ok (Instruction.ofBytes_take (Instruction.fetchedLength_le _))
  · next h =>
    rw [readBlock_of_lt m (Nat.le_of_lt pc.isLt) (Nat.lt_of_not_le h)]
    rfl

theorem assemblyAt_eq (m : Memory) (pc : Word) :
    m.assemblyAt pc =
      if pc.toNat + m.lengthAt pc ≤ size then .ok ((m.instruction pc).text pc)
      else .error (.outOfRange size) := by
  rw [assemblyAt, instructionAt_eq]
  split <;> rfl

/-- Two memories have the same instruction at `pc` if they agree on the bytes that its code asks
for. -/
theorem instruction_congr_of_fetched {m m' : Memory} {pc : Word}
    (h : ∀ i < Instruction.fetchedLength (m.get pc),
      m.get (pc + .ofNat 16 i) = m'.get (pc + .ofNat 16 i)) :
    m.instruction pc = m'.instruction pc := by
  have h_pos : 0 < Instruction.fetchedLength (m.get pc) := Instruction.fetchedBytes_pos _
  have h_code : m.get pc = m'.get pc := by
    have h_first := h 0 h_pos
    rwa [BitVec.add_zero] at h_first
  rw [instruction, instruction, ← h_code]
  exact Instruction.decode_congr (h 1) (h 2)

/-- Two memories have the same instruction at `pc` if they agree on its bytes. -/
theorem instruction_congr {m m' : Memory} {pc : Word}
    (h : ∀ i < m.lengthAt pc, m.get (pc + .ofNat 16 i) = m'.get (pc + .ofNat 16 i)) :
    m.instruction pc = m'.instruction pc :=
  instruction_congr_of_fetched fun i hi =>
    h i (Nat.lt_of_lt_of_le hi (Instruction.fetchedLength_le _))

end Memory

end Sm83
