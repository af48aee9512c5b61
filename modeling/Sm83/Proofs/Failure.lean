import Sm83.Proofs.Execution

/-!
# When a step fails

A step reads bytes of the instruction, bytes that the instruction names, and the stack. Nearly
all of these reads and writes are at words, which every machine has a byte for. `Machine.Fails`
lists the rest: an instruction that runs past the end of memory, a word stored at the last
address, a push without room for it and a pop of a word that runs past the end.

`step_fails_iff` says that the list is complete, that each entry really fails, and with which
fault. The order of the checks is part of it: an instruction that runs past the end fails for
that reason even where it would not have found room on the stack, or would not have jumped.
-/

namespace Sm83.Machine

/-- All the bytes of the next instruction lie in memory. -/
def Fits (s : Machine) : Prop := s.registers.pc.toNat + s.instruction.length ≤ 0x10000

/-- **The failures of a step.** `s.Fails f`: the machine cannot take a step, because of `f`. -/
inductive Fails (s : Machine) : Fault → Prop where
  /-- Bytes of the instruction are missing. The padding of STOP is never missed. -/
  | missingBytes (h_stop : s.instruction ≠ .stop) (h_fits : ¬s.Fits) :
    Fails s (.outOfRange 0x10000)
  /-- The stack pointer is to be stored at the last address. -/
  | wordAtEnd (h_fits : s.Fits) (h_store : s.instruction = .storeSp 0xFFFF) :
    Fails s (.outOfRange 0x10000)
  /-- There is no room for a word below the stack pointer. -/
  | noRoom (h_fits : s.Fits) (h_pushes : s.instruction.pushes s.registers.flags = true)
    (h_sp : s.registers.sp.toNat < 2) : Fails s (.stackOverflow s.registers.sp)
  /-- The word at the stack pointer runs past the end of memory. -/
  | noWord (h_fits : s.Fits) (h_pops : s.instruction.pops s.registers.flags = true)
    (h_sp : s.registers.sp = 0xFFFF) : Fails s (.outOfRange 0x10000)

variable {s : Machine} {f : Fault}

/-- STOP can be fetched everywhere, and other instructions where they fit. -/
theorem fetches_iff : s.Fetches ↔ s.instruction = .stop ∨ s.Fits := by
  rw [Fetches, Fits]
  by_cases h : s.instruction = .stop
  · -- its code is read alone, and every machine has a byte at the program counter
    have h_pc := s.registers.pc.isLt
    have h_one : s.instruction.fetchedBytes = 1 := by rw [h]; rfl
    rw [h_one]
    exact iff_of_true h_pc (Or.inl h)
  · rw [← Instruction.length_eq_fetchedBytes h]
    exact ⟨Or.inr, fun h' => h'.resolve_left h⟩

theorem fails_of_obstacle (h_fetches : s.Fetches) (h : s.obstacle s.instruction = some f) :
    s.Fails f := by
  -- nothing stands in the way of STOP, so the other instructions are all that matter
  have h_fits (h_ne : s.instruction ≠ .stop) : s.Fits := by
    exact (fetches_iff.1 h_fetches).resolve_left h_ne
  rw [obstacle] at h
  split at h
  · next h_store =>
    cases h
    refine .wordAtEnd (h_fits ?_) h_store
    intro h_stop
    exact Instruction.noConfusion (h_stop.symm.trans h_store)
  split at h
  · next h_room =>
    cases h
    refine .noRoom (h_fits ?_) h_room.1 h_room.2
    intro h_stop
    exact Bool.noConfusion (h_stop ▸ h_room.1)
  split at h
  · next h_word =>
    cases h
    refine .noWord (h_fits ?_) h_word.1 h_word.2
    intro h_stop
    exact Bool.noConfusion (h_stop ▸ h_word.1)
  · cases h

/-- The list says why the next step fails, if it does. -/
theorem fails_iff : s.Fails f ↔ s.fault? = some f := by
  constructor
  · intro h
    cases h with
    | missingBytes h_stop h_fits =>
      -- the fetch comes first, whatever the stack looks like
      rw [fault?, if_neg (fun h => (fetches_iff.1 h).elim h_stop h_fits)]
      rfl
    | wordAtEnd h_fits h_store =>
      rw [fault?, if_pos (fetches_iff.2 (Or.inr h_fits)), obstacle, if_pos h_store]
      rfl
    | noRoom h_fits h_pushes h_sp =>
      rw [fault?, if_pos (fetches_iff.2 (Or.inr h_fits)), obstacle_of_pushes h_pushes]
      exact if_pos h_sp
    | noWord h_fits h_pops h_sp =>
      rw [fault?, if_pos (fetches_iff.2 (Or.inr h_fits)), obstacle_of_pops h_pops, if_pos h_sp]
      rfl
  · intro h
    rw [fault?] at h
    split at h
    · next h_fetches => exact fails_of_obstacle h_fetches h
    · next h_fetches =>
      cases h
      have h_not := mt fetches_iff.2 h_fetches
      exact .missingBytes (fun h => h_not (Or.inl h)) (fun h => h_not (Or.inr h))

/-- An address that a step misses is the one right behind memory. -/
theorem Fails.address_eq {a : Nat} (h : s.Fails (.outOfRange a)) : a = 0x10000 := by
  cases h <;> rfl

/-- **When a step fails.** It fails exactly in the listed cases and with the faults listed for
them, and succeeds in all others. An address that it misses is always the one right behind
memory. -/
theorem step_fails_iff (s : Machine) :
    (∀ f, (∃ t, step s = .error f t) ↔ s.Fails f) ∧
      ((∃ pc t, step s = .ok pc t) ↔ ∀ f, ¬s.Fails f) ∧
      ∀ a t, step s = .error (.outOfRange a) t → a = 0x10000 := by
  refine ⟨fun f => ?_, ?_, fun a t h => ?_⟩
  · rw [fails_iff]
    constructor
    · rintro ⟨t, h⟩
      exact (step_eq_error_iff.1 h).1
    · intro h
      exact ⟨s, step_eq_error_iff.2 ⟨h, rfl⟩⟩
  · constructor
    · rintro ⟨pc, t, h⟩ f h_fails
      have h_none := (step_eq_ok_iff.1 h).1
      rw [fails_iff.1 h_fails] at h_none
      cases h_none
    · intro h
      have h_none : s.fault? = none := Option.eq_none_iff_forall_ne_some.2 fun f h_fault =>
        h f (fails_iff.2 h_fault)
      exact ⟨s.nextPc, s.next, step_eq_ok_iff.2 ⟨h_none, rfl, rfl⟩⟩
  · exact (fails_iff.2 (step_eq_error_iff.1 h).1).address_eq

/-- A CALL at the last address but one misses the high byte of its target, and fails for that
and not for want of room on the stack. -/
theorem step_fails_cut_call :
    let s : Machine :=
      ⟨{ Registers.zero with pc := 0xFFFE, sp := 1 }, Memory.zero.set 0xFFFE 0xCD, false⟩
    (∃ t, step s = .error (.outOfRange 0x10000) t) ∧
      ¬∃ t, step s = .error (.stackOverflow 1) t := by
  intro s
  have h_fits : ¬s.Fits := by unfold Fits; decide
  refine ⟨((step_fails_iff s).1 _).2 (.missingBytes (by decide) h_fits), fun h => ?_⟩
  cases ((step_fails_iff s).1 _).1 h with
  | noRoom h_fits' => exact h_fits h_fits'

end Sm83.Machine
