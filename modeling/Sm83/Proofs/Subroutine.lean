import Sm83.Proofs.Jump
import Sm83.Proofs.Stack

/-!
# Subroutines

A call leaves the address behind itself on the stack, and a return goes to the address that it
finds there. Whatever happens between the two, the subroutine comes back if the stack pointer does
and the two bytes of the address are left alone: `KeepsWord` describes such a run, of any length,
and `KeepsWord.getWord_eq` carries the address along it.

How the call was made and how it is returned from does not matter. Either kind of call has pushed
the address behind its own bytes (`next_of_call`), and either kind of return needs nothing but a
word on the stack (`step_of_return`). A call finds room for the word, so the word does not lie at
the last address, and therefore the return cannot fail.
-/

namespace Sm83

/-! ### Calls and returns -/

namespace Instruction

/-- Whether an instruction calls a subroutine, if its condition holds. -/
def isCall : Instruction → Bool
  | call _ _ | restart _ => true
  | _ => false

/-- Whether an instruction returns from a subroutine, if its condition holds. -/
def isReturn : Instruction → Bool
  | ret _ | retInterrupt => true
  | _ => false

variable {i : Instruction} {f : Flags}

theorem pushes_of_isCall (call : i.isCall = true) (permits : f.permits i.condition = true) :
    i.pushes f = true := by
  cases i with
  | call c a => exact permits
  | restart v => rfl
  | _ => cases call

theorem pops_of_isReturn (back : i.isReturn = true) (permits : f.permits i.condition = true) :
    i.pops f = true := by
  cases i with
  | ret c => exact permits
  | retInterrupt => rfl
  | _ => cases back

theorem fetchedBytes_of_isReturn (back : i.isReturn = true) : i.fetchedBytes = 1 := by
  cases i with
  | ret c => rfl
  | retInterrupt => rfl
  | _ => cases back

end Instruction

namespace Machine

section Instructions

variable {s : Machine} {i : Instruction}

theorem perform_of_isCall (call : i.isCall = true)
    (permits : s.registers.flags.permits i.condition = true) :
    s.perform i = s.pushed (s.registers.pc + .ofNat 16 i.length) := by
  cases i with
  | call c a => exact if_pos permits
  | restart v => rfl
  | _ => cases call

theorem perform_of_isReturn (back : i.isReturn = true)
    (permits : s.registers.flags.permits i.condition = true) : s.perform i = s.popped := by
  cases i with
  | ret c => exact if_pos permits
  | retInterrupt => rfl
  | _ => cases back

theorem target_of_isReturn (back : i.isReturn = true)
    (permits : s.registers.flags.permits i.condition = true) : s.target i = some s.top := by
  cases i with
  | ret c => exact if_pos permits
  | retInterrupt => rfl
  | _ => cases back

/-- A call or return that is passed over does nothing. -/
theorem perform_of_not_permits (h : i.isCall = true ∨ i.isReturn = true)
    (forbidden : ¬s.registers.flags.permits i.condition = true) : s.perform i = s := by
  cases i with
  | call c a => exact if_neg forbidden
  | ret c => exact if_neg forbidden
  -- these carry no condition
  | restart v => exact absurd rfl forbidden
  | retInterrupt => exact absurd rfl forbidden
  | _ => obtain h | h := h <;> cases h

theorem getWord_pushed (s : Machine) (w : Word) :
    (s.pushed w).memory.getWord (s.pushed w).registers.sp = w := by
  show Word.ofBytes ((s.pushed w).memory.get (s.registers.sp - 2 + 1))
    ((s.pushed w).memory.get (s.registers.sp - 2)) = w
  rw [get_pushed_low, get_pushed_high, Word.ofBytes_high_low]

end Instructions

/-! ### One step -/

section Step

variable {s t : Machine}

/-- The next instruction carries no condition, or the flags meet what its condition is written to
ask of them. -/
def ConditionMet (s : Machine) : Prop :=
  s.registers.flags.Meets (s.instruction.condition.map Condition.name)

theorem conditionMet_iff :
    s.ConditionMet ↔ s.registers.flags.permits s.instruction.condition = true :=
  Flags.meets_iff ..

/-- **After a call** the address behind it is on the stack, right below where the stack was. -/
theorem next_of_call {pc : Word} (h : step s = .ok pc t) (call : s.instruction.isCall = true)
    (met : s.ConditionMet) :
    2 ≤ s.registers.sp.toNat ∧ t.registers.sp = s.registers.sp - 2 ∧
      t.memory.getWord t.registers.sp = s.behind := by
  obtain ⟨noFault, -, rfl⟩ := step_eq_ok_iff.1 h
  have permits := conditionMet_iff.1 met
  have room := not_lt_of_pushes (fault?_eq_none_iff.1 noFault).2
    (Instruction.pushes_of_isCall call permits)
  have next : s.next = (s.pushed s.behind).setPc s.nextPc :=
    congrArg (·.setPc s.nextPc) (perform_of_isCall call permits)
  rw [next]
  exact ⟨Nat.not_lt.1 room, rfl, getWord_pushed s s.behind⟩

/-- **A return** to a word that does not run past the end of memory succeeds, and moves the program
counter and the stack pointer only. -/
theorem step_of_return (back : s.instruction.isReturn = true) (met : s.ConditionMet)
    (word : s.registers.sp ≠ 0xFFFF) :
    step s = .ok s.top ((s.setSp (s.registers.sp + 2)).setPc s.top) := by
  have permits := conditionMet_iff.1 met
  have fetches : s.Fetches := by
    rw [Fetches, Instruction.fetchedBytes_of_isReturn back]
    exact s.registers.pc.isLt
  have noFault : s.fault? = none := by
    rw [fault?, if_pos fetches, obstacle_of_pops (Instruction.pops_of_isReturn back permits),
      if_neg word]
  have nextPc : s.nextPc = s.top := by
    rw [nextPc, target_of_isReturn back permits, Option.getD_some]
  refine step_eq_ok_iff.2 ⟨noFault, nextPc.symm, ?_⟩
  rw [next, nextPc, perform_of_isReturn back permits]
  rfl

end Step

/-! ### There and back -/

/-- **A run that keeps a word.** `n` steps that succeed lead from `s` to `t`, and none of them
changes the byte at `a` or the one behind it. -/
inductive KeepsWord (a : Word) : Nat → Machine → Machine → Prop where
  | refl (s : Machine) : KeepsWord a 0 s s
  | step {n : Nat} {s t u : Machine} {pc : Word} (first : Machine.step s = .ok pc t)
    (low : t.memory.get a = s.memory.get a)
    (high : t.memory.get (a + 1) = s.memory.get (a + 1))
    (rest : KeepsWord a n t u) : KeepsWord a (n + 1) s u

theorem KeepsWord.getWord_eq {a : Word} {n : Nat} {s t : Machine} (h : KeepsWord a n s t) :
    t.memory.getWord a = s.memory.getWord a := by
  induction h with
  | refl => rfl
  | step _ low high _ ih => rw [ih, Memory.getWord, Memory.getWord, low, high]

/-- **Subroutines return.** Take a call that is carried out, and any run after it that leaves the
address on the stack alone. If the stack pointer is then where the call has put it, a return goes
to the address behind the call and restores the stack pointer, and nothing else changes. A call or
return whose condition does not hold leaves the stack pointer and memory as they are. -/
theorem subroutines_return :
    (∀ (s₀ s₁ : Machine) (pc : Word), s₀.instruction.isCall = true → s₀.ConditionMet →
      step s₀ = .ok pc s₁ →
      ∀ (n : Nat) (s : Machine), KeepsWord s₁.registers.sp n s₁ s →
        s.registers.sp = s₁.registers.sp → s.instruction.isReturn = true → s.ConditionMet →
        ∃ back, step s = .ok back ((s.setSp s₀.registers.sp).setPc back) ∧
          back.toNat
            = (s₀.registers.pc.toNat + s₀.memory.lengthAt s₀.registers.pc) % 0x10000) ∧
    ∀ s : Machine, (s.instruction.isCall = true ∨ s.instruction.isReturn = true) →
      ¬s.ConditionMet →
      (stateAfter (step s)).registers.sp = s.registers.sp ∧
        (stateAfter (step s)).memory = s.memory := by
  constructor
  · intro s₀ s₁ pc call met h n s keeps level back met'
    obtain ⟨room, sp, address⟩ := next_of_call h call met
    have top : s.top = s₀.behind := by
      rw [top, level, keeps.getWord_eq, address]
    rw [sp] at level
    have word : s.registers.sp ≠ 0xFFFF := by bv_omega
    have restored : s.registers.sp + 2 = s₀.registers.sp := by bv_omega
    refine ⟨s₀.behind, ?_, toNat_behind s₀⟩
    rw [step_of_return back met' word, restored, top]
  · intro s h unmet
    rw [conditionMet_iff] at unmet
    rw [step_eq]
    cases s.fault? with
    | some f => exact ⟨rfl, rfl⟩
    | none =>
      show (s.perform s.instruction).registers.sp = _ ∧ (s.perform s.instruction).memory = _
      rw [perform_of_not_permits h unmet]
      exact ⟨rfl, rfl⟩

/-- A call in the last three bytes of memory comes back to the start, from a subroutine that pushes
and pops a word below the address. There, `RET Z` is passed over, since zero is clear. -/
theorem subroutines_return_around_memory :
    let s : Machine :=
      ⟨{ Registers.zero with pc := 0xFFFD, sp := 6 },
        (((((Memory.zero.set 0xFFFD 0xCD).set 0xFFFE 0x10).set 0x10 0xC5).set 0x11 0xC1).set 0x12
          0xC9).set 0 0xC8, false⟩
    ∃ u, step s.next.next.next = .ok 0 u ∧ u.registers.sp = 6 ∧
      (stateAfter (step u)).registers.sp = 6 := by
  intro s
  have call : step s = .ok 0x10 s.next := step_eq_ok_iff.2 ⟨by decide, by decide, rfl⟩
  have push : step s.next = .ok 0x11 s.next.next := step_eq_ok_iff.2 ⟨by decide, by decide, rfl⟩
  have pop : step s.next.next = .ok 0x12 s.next.next.next :=
    step_eq_ok_iff.2 ⟨by decide, by decide, rfl⟩
  have keeps : KeepsWord s.next.registers.sp 2 s.next s.next.next.next :=
    .step push (by decide) (by decide) (.step pop (by decide) (by decide) (.refl _))
  obtain ⟨returns, passes⟩ := subroutines_return
  obtain ⟨back, h, value⟩ := returns s s.next 0x10 (by decide) (.inl (by decide)) call 2 _ keeps
    (by decide) (by decide) (.inl (by decide))
  obtain rfl : back = 0 := BitVec.eq_of_toNat_eq (value.trans (by decide))
  refine ⟨_, h, rfl, ?_⟩
  refine (passes _ (.inr (by decide)) ?_).1
  rw [conditionMet_iff]
  decide

end Machine

end Sm83
