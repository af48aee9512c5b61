import Sm83.Proofs.Frame
import Sm83.Proofs.LongSum
import Sm83.Proofs.StraightLine

/-!
# Operations on the accumulator

The accumulator meets an operand in one of eight ways, and each of them is arithmetic on integers or
on bits. `Accumulation.exact` is what it comes to before anything is cut off, and `Yields` reads the
byte and the flags off that number: the byte is what is left of it, and a carry tells that the
number, or that of the low halves, lies out of range.

`Yields` looks at the two kinds of operation alike, except that a carry can come from arithmetic
only, and that AND sets the half-carry. So there are three cases to prove and not eight: sums,
differences, and operations on bits (`yields_add`, `yields_subtract`, `yields_bits`), the first two
with the carry that goes in as a parameter. A comparison yields what a subtraction does, and
`accumulate_yields` notes that it does not keep it.

`accumulator_step_is_exact` is the statement about steps. There the operand may be the accumulator
itself, or a byte of the instruction that is read through HL.
-/

namespace Sm83

/-! ### Exact results -/

namespace Accumulation

/-- What an operation makes of two numbers and a carry, before anything is cut off. -/
def exact (op : Accumulation) (a n c : Nat) : ℤ :=
  match op with
  | .add => a + n
  | .addCarry => a + n + c
  | .subtract | .compare => a - n
  | .subtractCarry => a - n - c
  | .and => (a &&& n : Nat)
  | .xor => (a ^^^ n : Nat)
  | .or => (a ||| n : Nat)

/-- Whether an operation treats its operands as numbers, and not bit by bit. -/
def isArithmetic : Accumulation → Bool
  | .and | .xor | .or => false
  | _ => true

/-- **The result of an operation.** From the accumulator `a`, the operand `n` and the carry `c` the
operation makes the byte `r` and the flags `f`. -/
structure Yields (op : Accumulation) (a n : Byte) (c : Bool) (r : Byte) (f : Flags) : Prop where
  result : (r.toNat : ℤ) = op.exact a.toNat n.toNat c.toNat % 256
  carry : f.carry = true ↔ op.isArithmetic = true ∧
    (op.exact a.toNat n.toNat c.toNat < 0 ∨ 255 < op.exact a.toNat n.toNat c.toNat)
  halfCarry : f.halfCarry = true ↔ op = .and ∨ op.isArithmetic = true ∧
    (op.exact (a.toNat % 16) (n.toNat % 16) c.toNat < 0 ∨
      15 < op.exact (a.toNat % 16) (n.toNat % 16) c.toNat)
  zero : f.zero = true ↔ r.toNat = 0
  sign : f.sign = true ↔ 128 ≤ r.toNat
  parity : f.parity = true ↔ r.toNat % 2 = 0

end Accumulation

namespace Flags

variable (r : Byte) (h c : Bool)

theorem zero_ofResult : (ofResult r h c).zero = true ↔ r.toNat = 0 := by
  rw [ofResult, beq_iff_eq]
  exact BitVec.toNat_inj.symm

theorem sign_ofResult : (ofResult r h c).sign = true ↔ 128 ≤ r.toNat := by
  rw [ofResult, BitVec.msb_eq_decide, decide_eq_true_iff]

theorem parity_ofResult : (ofResult r h c).parity = true ↔ r.toNat % 2 = 0 :=
  r.isEven_iff

end Flags

/-! ### The three kinds of operation -/

namespace Arithmetic

open Accumulation

variable {op : Accumulation} {a n : Byte} {c : Bool}

/-- Sums are cut to a byte, and carry beyond it. -/
theorem yields_add (k : Bool) (arithmetic : op.isArithmetic = true)
    (sum : ∀ x y : Nat, op.exact x y c.toNat = x + y + k.toNat) :
    op.Yields a n c (add a n k).1 (add a n k).2 where
  result := by
    -- both sides are the same sum, cut to a byte
    rw [sum, toNat_fst_add, byteSum]
    omega
  carry := by
    rw [carry_add, decide_eq_true_iff, sum, byteSum, and_iff_right arithmetic]
    omega
  halfCarry := by
    have not_and : op ≠ .and := by rintro rfl; cases arithmetic
    show decide (0xF < nibbleSum a n k) = true ↔ _
    rw [decide_eq_true_iff, sum, nibbleSum, or_iff_right not_and, and_iff_right arithmetic]
    omega
  zero := Flags.zero_ofResult ..
  sign := Flags.sign_ofResult ..
  parity := Flags.parity_ofResult ..

/-- Differences wrap around below zero, and carry there. -/
theorem yields_subtract (k : Bool) (arithmetic : op.isArithmetic = true)
    (difference : ∀ x y : Nat, op.exact x y c.toNat = x - y - k.toNat) :
    op.Yields a n c (subtract a n k).1 (subtract a n k).2 where
  result := by
    -- each of the two subtractions wraps around by a whole byte, which does not count
    have := Bool.toNat_lt k
    simp only [difference, subtract, BitVec.toNat_sub, Byte.toNat_ofCarry]
    omega
  carry := by
    have nothing : byteSum 0 n k = n.toNat + k.toNat := by simp [byteSum]
    show decide (a.toNat < byteSum 0 n k) = true ↔ _
    rw [decide_eq_true_iff, difference, nothing, and_iff_right arithmetic]
    omega
  halfCarry := by
    have not_and : op ≠ .and := by rintro rfl; cases arithmetic
    have nothing : nibbleSum 0 n k = n.toNat % 16 + k.toNat := by simp [nibbleSum]
    show decide (a.toNat % 16 < nibbleSum 0 n k) = true ↔ _
    rw [decide_eq_true_iff, difference, nothing, or_iff_right not_and, and_iff_right arithmetic]
    omega
  zero := Flags.zero_ofResult ..
  sign := Flags.sign_ofResult ..
  parity := Flags.parity_ofResult ..

/-- What is done bit by bit stays within a byte, so nothing is cut off. -/
theorem yields_bits {r : Byte} (h : Bool) (logic : op.isArithmetic = false)
    (bits : op.exact a.toNat n.toNat c.toNat = r.toNat) (half : h = true ↔ op = .and) :
    op.Yields a n c r (.ofResult r h false) where
  result := by
    rw [bits]
    omega
  carry := by simp [Flags.ofResult, logic]
  halfCarry := by simp [Flags.ofResult, logic, half]
  zero := Flags.zero_ofResult ..
  sign := Flags.sign_ofResult ..
  parity := Flags.parity_ofResult ..

/-- **Every operation yields its exact result**, cut to a byte. A comparison puts the accumulator in
its place. -/
theorem accumulate_yields (op : Accumulation) (c : Bool) (a n : Byte) :
    ∃ r, op.Yields a n c r (accumulate op c a n).2 ∧
      (accumulate op c a n).1 = if op = .compare then a else r := by
  cases op with
  | add => exact ⟨_, yields_add false rfl fun _ _ => (add_zero _).symm, rfl⟩
  | addCarry => exact ⟨_, yields_add c rfl fun _ _ => rfl, rfl⟩
  | subtract => exact ⟨_, yields_subtract false rfl fun _ _ => (sub_zero _).symm, rfl⟩
  | subtractCarry => exact ⟨_, yields_subtract c rfl fun _ _ => rfl, rfl⟩
  -- this yields a difference, too, but does not put it into the accumulator
  | compare => exact ⟨_, yields_subtract false rfl fun _ _ => (sub_zero _).symm, rfl⟩
  | and =>
    refine ⟨_, yields_bits true rfl ?_ (by decide), rfl⟩
    exact congrArg Nat.cast (BitVec.toNat_and a n).symm
  | xor =>
    refine ⟨_, yields_bits false rfl ?_ (by decide), rfl⟩
    exact congrArg Nat.cast (BitVec.toNat_xor a n).symm
  | or =>
    refine ⟨_, yields_bits false rfl ?_ (by decide), rfl⟩
    exact congrArg Nat.cast (BitVec.toNat_or a n).symm

end Arithmetic

/-! ### Steps -/

namespace Machine

/-- **A step on the accumulator is exact.** Where one of the operations stands at the program
counter and the step succeeds, accumulator and flags are what the operation yields from the
accumulator, the operand and the carry before the step. A comparison leaves the accumulator as it
was. But for the program counter, nothing else changes. -/
theorem accumulator_step_is_exact (s t : Machine) (pc : Word) (op : Accumulation) (source : Source)
    (written : s.memory.Encodes s.registers.pc (.accumulate op source)) (h : step s = .ok pc t) :
    (∃ r, op.Yields s.registers.a (s.operand source) s.registers.flags.carry r t.registers.flags ∧
        t.registers.a = if op = .compare then s.registers.a else r) ∧
      (∀ x, x ≠ .a → t.registers.get x = s.registers.get x) ∧
      t.registers.sp = s.registers.sp ∧ t.memory = s.memory ∧ t.halted = s.halted := by
  obtain ⟨-, -, rfl⟩ := step_eq_ok_iff.1 h
  have read : s.instruction = .accumulate op source :=
    Memory.instruction_of_encodes written (Instruction.encodable_accumulate op source)
  have next : s.next = (s.accumulate op source).setPc s.nextPc := by
    rw [Machine.next, read]
    rfl
  rw [next]
  refine ⟨Arithmetic.accumulate_yields .., ?_, rfl, rfl, rfl⟩
  intro x hx
  calc ((s.accumulate op source).setPc s.nextPc).registers.get x
      = (s.accumulate op source).registers.get x := get_setPc ..
    _ = (s.setFlags _).registers.get x := get_setA (mt List.mem_singleton.1 hx) _ _
    _ = s.registers.get x := get_setFlags ..

/-- `SBC A, (HL)` that subtracts its own code from an equal accumulator, with a borrow on the way
in, borrows from both halves. `CP A` finds the accumulator equal to itself and keeps it. -/
theorem accumulator_step_is_exact_on_own_code :
    let s : Machine :=
      ⟨{ Registers.zero with a := 0x9E, h := 0xC0, l := 0x01, pc := 0xC001, flags := .unpack 0x01 },
        (Memory.zero.set 0xC001 0x9E).set 0xC002 0xBF, false⟩
    let s' : Machine := s.setPc 0xC002
    (∃ t, step s = .ok 0xC002 t ∧ t.registers.a = 0xFF ∧ t.registers.flags.carry = true ∧
        t.registers.flags.halfCarry = true) ∧
      ∃ t, step s' = .ok 0xC003 t ∧ t.registers.a = 0x9E ∧ t.registers.flags.zero = true := by
  intro s s'
  have borrow : step s = .ok 0xC002 s.next := step_eq_ok_iff.2 ⟨by decide, by decide, rfl⟩
  have compare : step s' = .ok 0xC003 s'.next := step_eq_ok_iff.2 ⟨by decide, by decide, rfl⟩
  obtain ⟨⟨r, yields, a⟩, -⟩ :=
    accumulator_step_is_exact s _ _ .subtractCarry (.place .atHl) (by decide) borrow
  obtain ⟨⟨r', yields', a'⟩, -⟩ :=
    accumulator_step_is_exact s' _ _ .compare (.place (.register .a)) (by decide) compare
  have all : r = 0xFF := BitVec.eq_of_toNat_eq (Int.ofNat_inj.1 (yields.result.trans (by decide)))
  have none : r' = 0 := BitVec.eq_of_toNat_eq (Int.ofNat_inj.1 (yields'.result.trans (by decide)))
  refine ⟨⟨_, borrow, a.trans all, ?_, ?_⟩, _, compare, a', ?_⟩
  · exact yields.carry.2 (by decide)
  · exact yields.halfCarry.2 (by decide)
  · exact yields'.zero.2 (by rw [none]; rfl)

end Machine

end Sm83
