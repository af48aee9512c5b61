import Sm83.Proofs.Accumulation
import Sm83.Proofs.SingleBits

/-!
# Counting up and down

An increment and a decrement of the same operand undo each other. The operand may be a byte at a
place or a pair (`Counter`), and either of the two may come first (`Direction`), so there is one
statement and not twenty-four: `counting_undone` says that the second step finds what the first one
has left, and that nothing but the program counter and, for a byte, the flags differs in the end.

A pair is counted as a word, so that a carry between its halves is nobody's concern. A byte leaves
flags behind. They describe the last byte that was counted to, which is the one that was there in
the beginning, and the half-carry tells how it was reached (`Flags.CountedTo`).

The byte at the address in HL may belong to the program. It may even be the code of the first
instruction, which has been read by then, and gets back its own code. Only the second code must not
be counted before it is read.
-/

namespace Sm83

/-- A direction of counting. -/
inductive Direction where
  | up | down
  deriving DecidableEq

namespace Direction

/-- The other direction. -/
def reverse : Direction → Direction
  | up => down
  | down => up

/-- What is added to a word in one step. -/
def stride : Direction → Word
  | up => 1
  | down => -1

/-- The low half of a byte right after it has wrapped around. -/
def wrapped : Direction → Nat
  | up => 0
  | down => 15

/-- A stride there and one back. -/
theorem add_stride_add_stride_reverse (d : Direction) (w : Word) :
    w + d.stride + d.reverse.stride = w := by
  cases d with
  | up =>
    show w + 1 + -1 = w
    rw [← BitVec.sub_eq_add_neg, BitVec.add_sub_cancel]
  | down =>
    show w + -1 + 1 = w
    rw [← BitVec.sub_eq_add_neg, BitVec.sub_add_cancel]

end Direction

/-- What can be counted: a byte at a place, or a pair. -/
inductive Counter where
  | byte (p : Place)
  | word (p : Pair)
  deriving DecidableEq

namespace Counter

/-- The instruction that counts in a direction. -/
def instruction : Counter → Direction → Instruction
  | byte p, .up => .increment p
  | byte p, .down => .decrement p
  | word p, .up => .incrementPair p
  | word p, .down => .decrementPair p

variable (t : Counter) (d : Direction)

theorem encodable_instruction : (t.instruction d).Encodable := by
  cases t with
  | byte p =>
    cases d with
    | up =>
      refine ⟨.ofDigits 0 p.digit 4, 0, 0, ?_⟩
      cases p with
      | register r => cases r <;> rfl
      | atHl => rfl
    | down =>
      refine ⟨.ofDigits 0 p.digit 5, 0, 0, ?_⟩
      cases p with
      | register r => cases r <;> rfl
      | atHl => rfl
  | word p =>
    cases d with
    | up =>
      refine ⟨.ofDigits 0 p.row 3, 0, 0, ?_⟩
      cases p <;> rfl
    | down =>
      refine ⟨.ofDigits 0 (p.row + 1) 3, 0, 0, ?_⟩
      cases p <;> rfl

theorem length_instruction : (t.instruction d).length = 1 := by
  cases t <;> cases d <;> rfl

theorem bytes_instruction : (t.instruction d).bytes = [(t.instruction d).code] := by
  cases t <;> cases d <;> rfl

end Counter

/-! ### Bytes -/

/-- **The flags after counting.** A byte was counted in the direction `d` and came to `n`; the flags
were `f` and are `f'`. The half-carry tells that the low half has wrapped around, which shows in the
byte that was reached. -/
structure Flags.CountedTo (f : Flags) (d : Direction) (n : Byte) (f' : Flags) : Prop where
  carry : f'.carry = f.carry
  zero : f'.zero = true ↔ n.toNat = 0
  sign : f'.sign = true ↔ 128 ≤ n.toNat
  parity : f'.parity = true ↔ n.toNat % 2 = 0
  halfCarry : f'.halfCarry = true ↔ n.toNat % 16 = d.wrapped

namespace Arithmetic

/-- Counts a byte in a direction. -/
def count (d : Direction) (f : Flags) (n : Byte) : Byte × Flags :=
  match d with
  | .up => increment f n
  | .down => decrement f n

variable (d : Direction) (f f' : Flags) (n : Byte)

theorem countedTo_count : f.CountedTo d (count d f n).1 (count d f n).2 := by
  -- in both directions the flags are those of the result, with the carry handed on
  cases d with
  | up | down =>
    exact ⟨rfl, Flags.zero_ofResult .., Flags.sign_ofResult .., Flags.parity_ofResult ..,
      beq_iff_eq⟩

/-- A byte that is counted back is what it was, whatever the flags are. -/
theorem count_reverse_count : (count d.reverse f' (count d f n).1).1 = n := by
  cases d with
  | up => exact BitVec.add_sub_cancel n 1
  | down => exact BitVec.sub_add_cancel n 1

theorem carry_count : (count d f n).2.carry = f.carry :=
  (countedTo_count d f n).carry

end Arithmetic

/-! ### Pairs -/

/-- What is in a pair may be put back. -/
theorem Registers.setPair_pair (r : Registers) (p : Pair) : r.setPair p (r.pair p) = r := by
  cases p with
  | bc => simp [setPair, pair, setBc, bc]
  | de => simp [setPair, pair, setDe, de]
  | hl => simp [setPair, pair, setHl, hl]
  | sp => rfl

theorem Memory.set_set (m : Memory) (a : Word) (b b' : Byte) :
    (m.set a b).set a b' = m.set a b' := by
  ext x : 1
  simp only [get_set]
  split <;> rfl

namespace Machine

variable {s : Machine} {t : Counter} {d : Direction}

/-! ### One count -/

theorem perform_byte (s : Machine) (p : Place) (d : Direction) :
    s.perform ((Counter.byte p).instruction d)
      = (s.setFlags (Arithmetic.count d s.registers.flags (s.read p)).2).write p
          (Arithmetic.count d s.registers.flags (s.read p)).1 := by
  cases d <;> rfl

theorem perform_word (s : Machine) (p : Pair) (d : Direction) :
    s.perform ((Counter.word p).instruction d) = s.setPair p (s.registers.pair p + d.stride) := by
  cases d with
  | up => rfl
  | down => exact congrArg (s.setPair p) (BitVec.sub_eq_add_neg _ 1)

/-- A count succeeds wherever it stands. -/
theorem step_of_count (written : s.memory.Encodes s.registers.pc (t.instruction d)) :
    step s = .ok (s.registers.pc + 1)
      ((s.perform (t.instruction d)).setPc (s.registers.pc + 1)) := by
  have clear : s.obstacle (t.instruction d) = none := by
    cases t <;> cases d <;> exact obstacle_eq_none nofun rfl rfl
  have straight : (t.instruction d).isBranch = false := by
    cases t <;> cases d <;> rfl
  have fits : s.registers.pc.toNat + (t.instruction d).length ≤ 0x10000 := by
    rw [t.length_instruction]
    exact s.registers.pc.isLt
  have first := step_of_encodes written (t.encodable_instruction d) fits clear straight
  rwa [t.length_instruction] at first

/-- A count in one place leaves the code at another one. -/
theorem encodes_of_count {a : Word} {i : Instruction} (written : s.memory.Encodes a i)
    (one : i.bytes = [i.code]) (apart : t = .byte .atHl → s.registers.hl ≠ a) (pc : Word) :
    ((s.perform (t.instruction d)).setPc pc).memory.Encodes a i := by
  intro k hk
  -- its code is all there is to it
  obtain rfl : k = 0 := by
    rw [one] at hk
    exact Nat.lt_one_iff.1 hk
  rw [← written 0 hk, BitVec.add_zero]
  cases t with
  | byte p =>
    rw [perform_byte]
    exact get_memory_write (s.setFlags _) _ fun atHl => (apart (by rw [atHl])).symm
  | word p =>
    rw [perform_word]
    rfl

/-! ### There and back -/

/-- A byte that is written twice is the later one, and so are the flags. -/
theorem write_setFlags_write (s : Machine) (p : Place) (v v' : Byte) (f f' : Flags) (pc : Word) :
    ((((s.setFlags f).write p v).setPc pc).setFlags f').write p v'
      = ((s.setFlags f').write p v').setPc pc := by
  cases p with
  | register x => cases x <;> rfl
  | atHl =>
    show setPc (setFlags (s.setMemory ((s.memory.set s.registers.hl v).set s.registers.hl v')) f')
      pc = _
    rw [Memory.set_set]
    rfl

/-- A byte that is counted there and back differs in its flags only. -/
theorem perform_byte_back (s : Machine) (p : Place) (d : Direction) (pc : Word) :
    ∃ f, s.registers.flags.CountedTo d.reverse (s.read p) f ∧
      ((s.perform ((Counter.byte p).instruction d)).setPc pc).perform
        ((Counter.byte p).instruction d.reverse) = (s.setFlags f).setPc pc := by
  let there := Arithmetic.count d s.registers.flags (s.read p)
  let back := Arithmetic.count d.reverse there.2 there.1
  have restored : back.1 = s.read p := Arithmetic.count_reverse_count ..
  have counted : there.2.CountedTo d.reverse back.1 back.2 := Arithmetic.countedTo_count ..
  rw [restored] at counted
  refine ⟨back.2, ⟨?_, counted.zero, counted.sign, counted.parity, counted.halfCarry⟩, ?_⟩
  · exact counted.carry.trans (Arithmetic.carry_count ..)
  · have flags : (((s.setFlags there.2).write p there.1).setPc pc).registers.flags = there.2 :=
      flags_write (s.setFlags there.2) p there.1
    have found : (((s.setFlags there.2).write p there.1).setPc pc).read p = there.1 := by
      rw [read_setPc, read_write]
    calc ((s.perform ((Counter.byte p).instruction d)).setPc pc).perform
          ((Counter.byte p).instruction d.reverse)
        = ((((s.setFlags there.2).write p there.1).setPc pc).setFlags back.2).write p back.1 := by
          rw [perform_byte, perform_byte, flags, found]
      _ = ((s.setFlags back.2).write p back.1).setPc pc := write_setFlags_write ..
      _ = (s.setFlags back.2).setPc pc := by rw [restored, write_read_setFlags]

theorem pair_setPc (s : Machine) (p : Pair) (pc : Word) :
    (s.setPc pc).registers.pair p = s.registers.pair p := by
  cases p <;> rfl

/-- A pair that is counted there and back is as it was. -/
theorem perform_word_back (s : Machine) (p : Pair) (d : Direction) (pc : Word) :
    ((s.perform ((Counter.word p).instruction d)).setPc pc).perform
      ((Counter.word p).instruction d.reverse) = s.setPc pc := by
  let there := s.registers.pair p + d.stride
  have found : ((s.setPair p there).setPc pc).registers.pair p = there := by
    rw [pair_setPc]
    exact s.registers.pair_setPair p there
  have back : there + d.reverse.stride = s.registers.pair p := d.add_stride_add_stride_reverse _
  calc ((s.perform ((Counter.word p).instruction d)).setPc pc).perform
        ((Counter.word p).instruction d.reverse)
      = ((s.setPair p there).setPc pc).setPair p (s.registers.pair p) := by
        rw [perform_word, perform_word, found, back]
    _ = (s.setPair p (s.registers.pair p)).setPc pc := by cases p <;> rfl
    _ = s.setPc pc := by
        rw [setPair, Registers.setPair_pair]
        rfl

/-- What a count there and back leaves behind is the machine before it, with flags that tell of the
byte that was counted, and with the flags before it if it was a word. -/
theorem perform_back (s : Machine) (t : Counter) (d : Direction) (pc : Word) :
    ∃ f, (∀ p, t = .byte p → s.registers.flags.CountedTo d.reverse (s.read p) f) ∧
      (∀ p, t = .word p → f = s.registers.flags) ∧
      ((s.perform (t.instruction d)).setPc pc).perform (t.instruction d.reverse)
        = (s.setFlags f).setPc pc := by
  cases t with
  | byte p =>
    obtain ⟨f, counted, performed⟩ := s.perform_byte_back p d pc
    refine ⟨f, ?_, nofun, performed⟩
    rintro _ ⟨⟩
    exact counted
  | word p => exact ⟨s.registers.flags, nofun, fun _ _ => rfl, s.perform_word_back p d pc⟩

/-- **Counting is undone** by counting the other way. An increment and the decrement of the same
operand behind it, or a decrement and the increment, succeed and leave all registers but the program
counter, memory and the latch as they were. A pair leaves the flags as they were, too. A byte leaves
flags that describe it, with the carry as it was and a half-carry if the way back has wrapped its
low half around. Where the byte in memory is counted, it must not be the second code. -/
theorem counting_undone (s : Machine) (t : Counter) (d : Direction)
    (first : s.memory.Encodes s.registers.pc (t.instruction d))
    (second : s.memory.Encodes (s.registers.pc + 1) (t.instruction d.reverse))
    (apart : t = .byte .atHl → s.registers.hl ≠ s.registers.pc + 1) :
    ∃ u v, step s = .ok (s.registers.pc + 1) u ∧ step u = .ok (s.registers.pc + 1 + 1) v ∧
      (∀ x, v.registers.get x = s.registers.get x) ∧ v.registers.sp = s.registers.sp ∧
      v.memory = s.memory ∧ v.halted = s.halted ∧
      (∀ p, t = .word p → v.registers.flags = s.registers.flags) ∧
      ∀ p, t = .byte p →
        s.registers.flags.CountedTo d.reverse (s.read p) v.registers.flags := by
  have written := encodes_of_count (d := d) second (t.bytes_instruction d.reverse) apart
    (s.registers.pc + 1)
  obtain ⟨f, byte, word, performed⟩ := s.perform_back t d (s.registers.pc + 1)
  refine ⟨_, _, step_of_count first, step_of_count written, ?_⟩
  -- from here on both steps count only for what they have made together
  rw [performed]
  refine ⟨fun x => ?_, rfl, rfl, rfl, word, byte⟩
  calc (((s.setFlags f).setPc _).setPc _).registers.get x
      = ((s.setFlags f).setPc _).registers.get x := get_setPc ..
    _ = (s.setFlags f).registers.get x := get_setPc ..
    _ = s.registers.get x := get_setFlags ..

/-- `INC (HL)` at the last address, with HL pointing at it, counts its own code up and goes on with
`DEC (HL)` at zero, which counts it down again. `DEC HL` and `INC HL` go below zero and come back
with the flags as they were. -/
theorem counting_undone_around_memory :
    let s : Machine :=
      ⟨{ Registers.zero with h := 0xFF, l := 0xFF, pc := 0xFFFF, flags := .unpack 0x01 },
        (Memory.zero.set 0xFFFF 0x34).set 0 0x35, false⟩
    let s' : Machine :=
      ⟨{ Registers.zero with flags := .unpack 0xFF }, (Memory.zero.set 0 0x2B).set 1 0x23, false⟩
    (∃ u v, step s = .ok 0 u ∧ u.memory.get 0xFFFF = 0x35 ∧ step u = .ok 1 v ∧
        v.memory.get 0xFFFF = 0x34 ∧ v.registers.flags.carry = true ∧
        v.registers.flags.halfCarry = false) ∧
      ∃ u v, step s' = .ok 1 u ∧ u.registers.hl = 0xFFFF ∧ step u = .ok 2 v ∧
        v.registers.h = 0 ∧ v.registers.flags = .unpack 0xFF := by
  intro s s'
  obtain ⟨u, v, up, down, -, -, memory, -, -, byte⟩ :=
    counting_undone s (.byte .atHl) .up (by decide) (by decide) (by decide)
  obtain ⟨u', v', down', up', register, -, -, -, word, -⟩ :=
    counting_undone s' (.word .hl) .down (by decide) (by decide) nofun
  have counted := byte .atHl rfl
  have around : s.registers.pc + 1 = 0 := by decide
  rw [around] at up down
  have own : u.memory.get 0xFFFF = 0x35 := by
    obtain ⟨-, -, rfl⟩ := step_eq_ok_iff.1 up
    decide
  have below : u'.registers.hl = 0xFFFF := by
    obtain ⟨-, -, rfl⟩ := step_eq_ok_iff.1 down'
    decide
  refine ⟨⟨u, v, up, own, down, ?_, counted.carry.trans (by decide), ?_⟩, u', v', down', below, up',
    (register .h).trans (by decide), word .hl rfl⟩
  · rw [memory]
    decide
  · exact Bool.eq_false_iff.2 fun h => absurd (counted.halfCarry.1 h) (by decide)

end Machine

end Sm83
