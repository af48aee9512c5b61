import Sm83.Proofs.Frame
import Sm83.Proofs.StraightLine

/-!
# Operations on the bits of a byte

The second table of codes has four kinds of operation on eight places. What each kind makes of a
byte and the flags is `BitOperation.Turns`, which speaks of single bits: it says which one an
operation is about, and that the other seven stay.

All the operations can be seen as writing a byte back together with the flags, also those that
change only one of the two (`exists_operateBits_eq`). So where the byte goes, and what it does not
touch, has to be said once and not for every kind. `bits_confined_to_target` puts this together with
the decoder, for every byte that may follow the prefix.

The byte is read before it is written, and the instruction before that. It makes no difference if HL
points at the instruction.
-/

namespace Sm83

/-! ### Bits of bytes -/

namespace Arithmetic

variable (f : Flags) (n : Byte) (b : Fin 8)

theorem getLsbD_mask (i : Fin 8) : (mask b).getLsbD i = decide (i = b) := by
  revert b i; decide

theorem getLsbD_and_mask (i : Fin 8) :
    (n &&& mask b).getLsbD i = (n.getLsbD i && decide (i = b)) := by
  rw [BitVec.getLsbD_and, getLsbD_mask]

/-- Clearing a bit leaves the others. -/
theorem getLsbD_and_not_mask (i : Fin 8) :
    (n &&& ~~~mask b).getLsbD i = (n.getLsbD i && !decide (i = b)) := by
  rw [BitVec.getLsbD_and, BitVec.getLsbD_not, getLsbD_mask, decide_eq_true i.isLt, Bool.true_and]

/-- Setting a bit leaves the others. -/
theorem getLsbD_or_mask (i : Fin 8) :
    (n ||| mask b).getLsbD i = (n.getLsbD i || decide (i = b)) := by
  rw [BitVec.getLsbD_or, getLsbD_mask]

theorem and_mask_eq_zero_iff : n &&& mask b = 0 ↔ n.getLsbD b = false := by
  constructor
  · intro h
    have at_b := getLsbD_and_mask n b b
    rw [h, decide_eq_true rfl, Bool.and_true] at at_b
    rw [← at_b]
    exact BitVec.getLsbD_zero
  · intro h
    apply BitVec.eq_of_getLsbD_eq
    intro i hi
    rw [getLsbD_and_mask n b ⟨i, hi⟩]
    -- outside the mask there is nothing, and inside it there is the bit
    by_cases at_b : (⟨i, hi⟩ : Fin 8) = b
    · rw [at_b, h]
      simp
    · simp [at_b]

theorem zero_testBit : (testBit f b n).zero = true ↔ n.getLsbD b = false := by
  rw [← and_mask_eq_zero_iff]
  exact beq_iff_eq

theorem sign_testBit : (testBit f b n).sign = true ↔ b.val = 7 ∧ n.getLsbD b = true := by
  -- the sign is the highest bit of what the mask leaves
  have top : (testBit f b n).sign = (n &&& mask b).getLsbD (7 : Fin 8) :=
    BitVec.msb_eq_getLsbD_last (n &&& mask b)
  rw [top, getLsbD_and_mask, Bool.and_eq_true, decide_eq_true_iff]
  constructor
  · rintro ⟨bit, rfl⟩
    exact ⟨rfl, bit⟩
  · rintro ⟨last, bit⟩
    obtain rfl : b = 7 := Fin.ext last
    exact ⟨bit, rfl⟩

theorem parity_testBit : (testBit f b n).parity = true ↔ b.val ≠ 0 ∨ n.getLsbD b = false := by
  -- and the parity is its lowest one, inverted
  have bottom : (testBit f b n).parity = !(n &&& mask b).getLsbD (0 : Fin 8) := rfl
  rw [bottom, getLsbD_and_mask]
  by_cases first : b = 0
  · subst first
    simp
  · simp [first, Ne.symm first]

end Arithmetic

/-- **What an operation does.** It turns the byte `n` and the flags `f` into `n'` and `f'`. -/
def BitOperation.Turns (op : BitOperation) (n : Byte) (f : Flags) (n' : Byte) (f' : Flags) : Prop :=
  match op with
  | .shift k => (n', f') = Arithmetic.shift k f.carry n
  | .test b => n' = n ∧ f'.carry = f.carry ∧ f'.halfCarry = true ∧
      (f'.zero = true ↔ n.getLsbD b = false) ∧
      (f'.sign = true ↔ b.val = 7 ∧ n.getLsbD b = true) ∧
      (f'.parity = true ↔ b.val ≠ 0 ∨ n.getLsbD b = false)
  | .reset b => f' = f ∧ n'.getLsbD b = false ∧ ∀ i : Fin 8, i ≠ b → n'.getLsbD i = n.getLsbD i
  | .set b => f' = f ∧ n'.getLsbD b = true ∧ ∀ i : Fin 8, i ≠ b → n'.getLsbD i = n.getLsbD i

namespace Machine

/-! ### Places -/

section Places

variable (s : Machine) (p : Place) (v : Byte)

theorem read_write : (s.write p v).read p = v := by
  cases p with
  | register x => exact s.registers.get_set_self x v
  | atHl => exact s.memory.get_set_self s.registers.hl v

/-- What is read may be written back. -/
theorem write_read : s.write p (s.read p) = s := by
  cases p with
  | register x => cases x <;> rfl
  | atHl =>
    have same : s.memory.set s.registers.hl (s.memory.get s.registers.hl) = s.memory := by
      ext a : 1
      rw [Memory.get_set]
      split
      · next h => rw [h]
      · rfl
    show s.setMemory (s.memory.set s.registers.hl (s.memory.get s.registers.hl)) = s
    rw [same]
    rfl

theorem read_setFlags (f : Flags) : (s.setFlags f).read p = s.read p := by
  cases p with
  | register x => exact get_setFlags s f
  | atHl => rfl

theorem write_read_setFlags (f : Flags) : (s.setFlags f).write p (s.read p) = s.setFlags f := by
  have back := (s.setFlags f).write_read p
  rwa [read_setFlags] at back

theorem read_setPc (pc : Word) : (s.setPc pc).read p = s.read p := by
  cases p with
  | register x => exact get_setPc s pc
  | atHl => rfl

variable {p} in
theorem get_memory_write {a : Word} (h : p = .atHl → a ≠ s.registers.hl) :
    (s.write p v).memory.get a = s.memory.get a := by
  cases p with
  | register x => rfl
  | atHl => exact s.memory.get_set_of_ne (h rfl) v

end Places

/-! ### Operations on a place -/

variable {s : Machine}

/-- **Every operation writes** a byte and the flags, if only those that have been there. -/
theorem exists_operateBits_eq (s : Machine) (op : BitOperation) (target : Place) :
    ∃ v f, op.Turns (s.read target) s.registers.flags v f ∧
      s.operateBits op target = (s.setFlags f).write target v := by
  cases op with
  | shift k => exact ⟨_, _, rfl, rfl⟩
  | test b =>
    refine ⟨s.read target, Arithmetic.testBit s.registers.flags b (s.read target), ?_, ?_⟩
    · exact ⟨rfl, rfl, rfl, Arithmetic.zero_testBit .., Arithmetic.sign_testBit ..,
        Arithmetic.parity_testBit ..⟩
    · exact (write_read_setFlags s target _).symm
  | reset b =>
    refine ⟨_, s.registers.flags, ⟨rfl, ?_, fun i hi => ?_⟩, rfl⟩
    · rw [Arithmetic.getLsbD_and_not_mask, decide_eq_true rfl, Bool.not_true, Bool.and_false]
    · rw [Arithmetic.getLsbD_and_not_mask, decide_eq_false hi, Bool.not_false, Bool.and_true]
  | set b =>
    refine ⟨_, s.registers.flags, ⟨rfl, ?_, fun i hi => ?_⟩, rfl⟩
    · rw [Arithmetic.getLsbD_or_mask, decide_eq_true rfl, Bool.or_true]
    · rw [Arithmetic.getLsbD_or_mask, decide_eq_false hi, Bool.or_false]

theorem encodes_bits {m : Memory} {a : Word} {op : BitOperation} {target : Place}
    (prefixed : m.get a = 0xCB) (code : m.get (a + 1) = op.code target) :
    m.Encodes a (.bits op target) := by
  intro k hk
  match k, hk with
  | 0, _ => rwa [BitVec.add_zero]
  | 1, _ => exact code

/-- **Operations on bits are confined to their target.** Any byte may follow the prefix, and stands
for an operation and a target. If both bytes lie in memory the step succeeds and goes on behind
them. It turns the byte at the target and the flags as the operation says, and changes no other
register, no other byte of memory, and neither the stack pointer nor the latch. -/
theorem bits_confined_to_target (s : Machine) (prefixed : s.memory.get s.registers.pc = 0xCB)
    (fits : s.registers.pc.toNat + 2 ≤ 0x10000) :
    (∃ op target, s.memory.get (s.registers.pc + 1) = BitOperation.code op target) ∧
    ∀ op target, s.memory.get (s.registers.pc + 1) = BitOperation.code op target →
      ∃ t, step s = .ok (s.registers.pc + 2) t ∧ t.registers.pc = s.registers.pc + 2 ∧
        op.Turns (s.read target) s.registers.flags (t.read target) t.registers.flags ∧
        (∀ x, target ≠ .register x → t.registers.get x = s.registers.get x) ∧
        (∀ a, (target = .atHl → a ≠ s.registers.hl) → t.memory.get a = s.memory.get a) ∧
        t.registers.sp = s.registers.sp ∧ t.halted = s.halted := by
  refine ⟨⟨_, _, (BitOperation.code_ofCode _).symm⟩, ?_⟩
  intro op target code
  have first := step_of_encodes (encodes_bits prefixed code) (Instruction.encodable_bits op target)
    fits (obstacle_eq_none nofun rfl rfl) rfl
  obtain ⟨v, f, turns, written⟩ := s.exists_operateBits_eq op target
  have performed : s.perform (.bits op target) = (s.setFlags f).write target v := written
  rw [performed] at first
  -- from here on the operation counts only for what it has made of byte and flags
  refine ⟨_, first, rfl, ?_, fun x hx => ?_, fun a ha => ?_, ?_, ?_⟩
  · rw [read_setPc, read_write]
    show op.Turns _ _ v ((s.setFlags f).write target v).registers.flags
    rwa [flags_write]
  · have apart : x ∉ target.registers := by
      cases target with
      | register y => exact fun h => hx (congrArg _ (List.mem_singleton.1 h).symm)
      | atHl => exact List.not_mem_nil
    calc (((s.setFlags f).write target v).setPc _).registers.get x
        = ((s.setFlags f).write target v).registers.get x := get_setPc ..
      _ = (s.setFlags f).registers.get x := get_write apart ..
      _ = s.registers.get x := get_setFlags ..
  · exact get_memory_write (s.setFlags f) v ha
  · exact sp_write (s.setFlags f) target v
  · cases target <;> rfl

/-- `SET 0, (HL)` at the very end of memory sets a bit of its own code, and the run goes on at zero.
`BIT 7, H` in the same place finds the sign of H. -/
theorem bits_confined_to_target_at_end :
    let s : Machine :=
      ⟨{ Registers.zero with h := 0xFF, l := 0xFF, pc := 0xFFFE, flags := .unpack 0x01 },
        (Memory.zero.set 0xFFFE 0xCB).set 0xFFFF 0xC6, false⟩
    let s' : Machine := s.setMemory (s.memory.set 0xFFFF 0x7C)
    (∃ t, step s = .ok 0 t ∧ (t.read .atHl).getLsbD 0 = true ∧ t.memory.get 0xFFFE = 0xCB ∧
        t.registers.flags = .unpack 0x01) ∧
      ∃ t, step s' = .ok 0 t ∧ t.registers.flags.sign = true ∧ t.registers.flags.zero = false ∧
        t.memory.get 0xFFFF = 0x7C := by
  intro s s'
  obtain ⟨-, writes⟩ := bits_confined_to_target s (by decide) (by decide)
  obtain ⟨-, tests⟩ := bits_confined_to_target s' (by decide) (by decide)
  obtain ⟨t, step, -, ⟨flags, bit, -⟩, -, memory, -⟩ := writes (.set 0) .atHl (by decide)
  obtain ⟨t', step', -, ⟨-, -, -, zero, sign, -⟩, -, memory', -⟩ :=
    tests (.test 7) (.register .h) (by decide)
  have around : s.registers.pc + 2 = 0 := by decide
  have around' : s'.registers.pc + 2 = 0 := by decide
  rw [around] at step
  rw [around'] at step'
  refine ⟨⟨t, step, bit, ?_, flags⟩, t', step', sign.2 (by decide), ?_, ?_⟩
  · exact (memory 0xFFFE fun _ => by decide).trans (by decide)
  · exact Bool.eq_false_iff.2 fun h => absurd (zero.1 h) (by decide)
  · exact (memory' 0xFFFF nofun).trans (by decide)

end Machine

end Sm83
