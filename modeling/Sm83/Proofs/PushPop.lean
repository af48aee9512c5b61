import Sm83.Proofs.Frame
import Sm83.Proofs.Subroutine

/-!
# Pairs that are pushed and popped

A word that is pushed and popped right away goes from one register pair to another one, or comes
back. `Registers.Loads` says what a load of a pair is, and `pop_takes_what_push_left` that a push
and a pop come to the load of one pair with the other.

On its way the word passes through memory, and the two bytes there may belong to the program. The
push may lie under them, since it has been read by then; all that is needed is that the pop does not
(`encodes_pop_of_pushed`). That both succeed needs room for the word, and nothing on the side of the
pop: a word that has been pushed never runs past the end of memory.

The low byte of AF is no byte of its own but five flags. Three of its bits are lost where it is
loaded, and none where it is stored, so AF itself comes back from the stack as it was.
-/

namespace Sm83

namespace Registers

variable (r : Registers) (y : StackPair) (w : Word)

/-- **A pair is loaded, and nothing else.** `r'` is `r` with the pair `y` replaced by the word `w`,
but for the program counter. In AF only the bits that stand for flags are replaced. -/
structure Loads (r' : Registers) : Prop where
  pair : y ≠ .af → r'.stackPair y = w
  accumulator : y = .af → r'.a = w.high ∧ r'.flags = .unpack w.low ∧
    r'.af = .ofBytes w.high (w.low &&& 0xE5)
  register : ∀ x, x ∉ y.registers → r'.get x = r.get x
  flags : y ≠ .af → r'.flags = r.flags
  sp : r'.sp = r.sp

theorem stackPair_setStackPair (h : y ≠ .af) : (r.setStackPair y w).stackPair y = w := by
  cases y with
  | bc => exact r.bc_setBc w
  | de => exact r.de_setDe w
  | hl => exact r.hl_setHl w
  | af => exact absurd rfl h

theorem af_setAf : (r.setAf w).af = .ofBytes w.high (w.low &&& 0xE5) := by
  rw [← Flags.pack_unpack]
  rfl

theorem flags_setStackPair (h : y ≠ .af) : (r.setStackPair y w).flags = r.flags := by
  cases y with
  | af => exact absurd rfl h
  | _ => rfl

theorem loads_setStackPair : r.Loads y w (r.setStackPair y w) where
  pair := r.stackPair_setStackPair y w
  accumulator := by
    rintro rfl
    exact ⟨rfl, rfl, r.af_setAf w⟩
  register _ hx := get_setStackPair hx w
  flags := r.flags_setStackPair y w
  sp := sp_setStackPair y w

variable {r y w}

/-- The program counter plays no part in a load. -/
theorem Loads.setPc {r' : Registers} (h : r.Loads y w r') (pc : Word) :
    r.Loads y w { r' with pc := pc } := by
  obtain ⟨pair, accumulator, register, flags, sp⟩ := h
  refine ⟨fun hy => ?_, accumulator, fun x hx => ?_, flags, sp⟩
  · rw [← pair hy]
    cases y <;> rfl
  · rw [← register x hx]
    cases x <;> rfl

/-- AF loaded with itself is as it was. -/
theorem Loads.eq_of_af {r' : Registers} (h : r.Loads .af r.af r') :
    r'.a = r.a ∧ r'.flags = r.flags := by
  obtain ⟨a, flags, -⟩ := h.accumulator rfl
  rw [a, flags, af, Word.high_ofBytes, Word.low_ofBytes, Flags.unpack_pack]
  exact ⟨rfl, rfl⟩

end Registers

namespace Machine

variable {s : Machine} {x y : StackPair}

theorem get_pushed_of_apart {a : Word} (low : a ≠ s.registers.sp - 2)
    (high : a ≠ s.registers.sp - 1) (w : Word) :
    (s.pushed w).memory.get a = s.memory.get a := by
  have above : s.registers.sp - 2 + 1 = s.registers.sp - 1 := by bv_omega
  rw [← above] at high
  exact get_pushed_of_ne s w low high

/-- A push leaves the code of the pop alone if it does not lie on the stack. -/
theorem encodes_pop_of_pushed {a : Word} (written : s.memory.Encodes a (.pop y))
    (low : a ≠ s.registers.sp - 2) (high : a ≠ s.registers.sp - 1) (w : Word) :
    (s.pushed w).memory.Encodes a (.pop y) := by
  intro k hk
  -- its code is all there is to it
  obtain rfl : k = 0 := Nat.lt_one_iff.1 hk
  rw [← written 0 hk, BitVec.add_zero]
  exact get_pushed_of_apart low high w

/-- **A word that has been pushed** can be popped into any pair, and the stack pointer is back where
it was. -/
theorem step_of_pop_pushed {w pc : Word} (room : 2 ≤ s.registers.sp.toNat)
    (written : (s.pushed w).memory.Encodes pc (.pop y)) :
    ∃ u, step ((s.pushed w).setPc pc) = .ok (pc + 1) u ∧ s.registers.Loads y w u.registers ∧
      u.memory = (s.pushed w).memory ∧ u.halted = s.halted := by
  have word : s.registers.sp - 2 ≠ 0xFFFF := by bv_omega
  have restored : s.registers.sp - 2 + 2 = s.registers.sp := by bv_omega
  have clear : ((s.pushed w).setPc pc).obstacle (.pop y) = none := by
    rw [obstacle_of_pops rfl]
    exact if_neg word
  refine ⟨_, step_of_encodes written (Instruction.encodable_pop y) pc.isLt clear rfl, ?_, rfl, rfl⟩
  -- what is popped is the word, into registers that differ in the program counter only
  have top : ((s.pushed w).setPc pc).top = w := getWord_pushed s w
  have popped : ((s.pushed w).setPc pc).popped.registers = { s.registers with pc := pc } := by
    show { s.registers with sp := s.registers.sp - 2 + 2, pc := pc } = _
    rw [restored]
  have moved : ({ s.registers with pc := pc } : Registers).setStackPair y w
      = { s.registers.setStackPair y w with pc := pc } := by cases y <;> rfl
  show s.registers.Loads y w
    { ((s.pushed w).setPc pc).popped.registers.setStackPair y ((s.pushed w).setPc pc).top with
      pc := _ }
  rw [top, popped, moved]
  exact (s.registers.loads_setStackPair y w).setPc _

/-- **A pop takes what the push has left.** A push and the pop behind it succeed and load one pair
with the other. The stack pointer is back where it was, and memory has changed in the two bytes
below it at most. The word may cover the code of the push, but not that of the pop. Pushed and
popped again, AF is as it was. -/
theorem pop_takes_what_push_left (s : Machine) (x y : StackPair)
    (push : s.memory.Encodes s.registers.pc (.push x))
    (pop : s.memory.Encodes (s.registers.pc + 1) (.pop y))
    (room : 2 ≤ s.registers.sp.toNat) (low : s.registers.pc + 1 ≠ s.registers.sp - 2)
    (high : s.registers.pc + 1 ≠ s.registers.sp - 1) :
    ∃ t u, step s = .ok (s.registers.pc + 1) t ∧ step t = .ok (s.registers.pc + 1 + 1) u ∧
      s.registers.Loads y (s.registers.stackPair x) u.registers ∧
      (∀ a, a ≠ s.registers.sp - 2 → a ≠ s.registers.sp - 1 →
        u.memory.get a = s.memory.get a) ∧
      u.halted = s.halted ∧
      (x = .af → y = .af →
        u.registers.a = s.registers.a ∧ u.registers.flags = s.registers.flags) := by
  have clear : s.obstacle (.push x) = none := by
    rw [obstacle_of_pushes rfl]
    exact if_neg (Nat.not_lt.2 room)
  have first := step_of_encodes push (Instruction.encodable_push x) s.registers.pc.isLt clear rfl
  obtain ⟨u, second, loads, memory, halted⟩ :=
    step_of_pop_pushed room (encodes_pop_of_pushed pop low high (s.registers.stackPair x))
  refine ⟨_, u, first, second, loads, fun a ha ha' => ?_, halted, ?_⟩
  · rw [memory]
    exact get_pushed_of_apart ha ha' _
  · rintro rfl rfl
    exact loads.eq_of_af

/-- `PUSH AF` with the stack pointer right behind it is covered by the word it pushes, and AF comes
back all the same. From the last address on, `PUSH BC` and `POP AF` copy B to A and five bits of C
to the flags. -/
theorem pop_takes_what_push_left_at_edges :
    let s : Machine :=
      ⟨{ Registers.zero with a := 0x42, flags := .unpack 0xFF, pc := 5, sp := 6 },
        (Memory.zero.set 5 0xF5).set 6 0xF1, false⟩
    let s' : Machine :=
      ⟨{ Registers.zero with b := 0x12, c := 0xFF, pc := 0xFFFF, sp := 3 },
        (Memory.zero.set 0xFFFF 0xC5).set 0 0xF1, false⟩
    (∃ t u, step s = .ok 6 t ∧ t.memory.get 5 = 0x42 ∧ step t = .ok 7 u ∧ u.registers.a = 0x42 ∧
        u.registers.flags = .unpack 0xFF) ∧
      ∃ t u, step s' = .ok 0 t ∧ step t = .ok 1 u ∧ u.registers.af = 0x12E5 ∧
        u.registers.sp = 3 := by
  intro s s'
  obtain ⟨t, u, push, pop, -, -, -, back⟩ := pop_takes_what_push_left s .af .af (by decide)
    (by decide) (by decide) (by decide) (by decide)
  obtain ⟨t', u', push', pop', loads, -⟩ := pop_takes_what_push_left s' .bc .af (by decide)
    (by decide) (by decide) (by decide) (by decide)
  obtain ⟨a, flags⟩ := back rfl rfl
  have covered : t.memory.get 5 = 0x42 := by
    obtain ⟨-, -, rfl⟩ := step_eq_ok_iff.1 push
    decide
  have around : s'.registers.pc + 1 = 0 := by decide
  rw [around] at push' pop'
  refine ⟨⟨t, u, push, covered, pop, a, flags⟩, t', u', push', pop', ?_, loads.sp⟩
  exact (loads.accumulator rfl).2.2.trans (by decide)

end Machine

end Sm83
