import Mathlib.Logic.Relation
import Sm83.Proofs.Encoding
import Sm83.Proofs.Levels
import Sm83.Proofs.Writes

/-!
# The latch of HALT

The latch is one field of the machine, and one instruction writes it. That no other instruction
does is `Machine.halted_perform`, one case for each instruction; that no other code is decoded
as HALT is `Instruction.decode_eq_halt_iff`, which needs no case at all, since an instruction
has a single code. Together they give the step lemma `Machine.halted_next`: after a step the
latch is set if it was set before, or if the byte at the program counter was that of HALT *when
the step was taken*. Programs may rewrite themselves, so the second part speaks of the machine
of each step and not of a program.

Two consequences are drawn by induction on the number of steps. The latch after any steps is
told by the codes they have carried out (`Machine.halted_of_reaches`). And a run, which takes no
step on a halted machine, carries HALT out at most once: a session after it would be halted, and
the run could go no further (`Session.Runs.opcode_ne`).

Nothing that can be done to a session clears the latch. `Session.Handles` lists what can be
done, and `Session.Handles.halted` goes through the list.
-/

namespace Sm83

namespace Machine

/-! ### Steps of a machine -/

/-- The code that the next step looks up: the byte at the program counter. -/
def opcode (s : Machine) : Byte := s.memory.get s.registers.pc

theorem instruction_eq_halt_iff {s : Machine} : s.instruction = .halt ↔ s.opcode = 0x76 :=
  Instruction.decode_eq_halt_iff

@[simp] theorem halted_write (s : Machine) (p : Place) (v : Byte) :
    (s.write p v).halted = s.halted := by
  cases p <;> rfl

@[simp] theorem halted_release (s : Machine) (l : Location) :
    (s.release l).halted = s.halted := by
  cases l <;> rfl

theorem halted_operateBits (s : Machine) (op : BitOperation) (p : Place) :
    (s.operateBits op p).halted = s.halted := by
  cases op with
  | shift k => exact halted_write _ p _
  | test i => rfl
  | reset i => exact halted_write s p _
  | set i => exact halted_write s p _

/-- No instruction but HALT touches the latch. -/
theorem halted_perform {s : Machine} {i : Instruction} (h : i ≠ .halt) :
    (s.perform i).halted = s.halted := by
  cases i with
  | halt => exact absurd rfl h
  | load p source => exact halted_write s p _
  | storeA l => exact halted_release _ l
  | loadA l => exact halted_release s l
  | increment p => exact halted_write _ p _
  | decrement p => exact halted_write _ p _
  | bits op p => exact halted_operateBits s op p
  -- carried out or passed over, a call or a return moves words only
  | call c a =>
    show (if s.registers.flags.permits c then _ else s : Machine).halted = _
    split <;> rfl
  | ret c =>
    show (if s.registers.flags.permits c then _ else s : Machine).halted = _
    split <;> rfl
  | _ => rfl

theorem halted_next (s : Machine) : s.next.halted = true ↔ s.halted = true ∨ s.opcode = 0x76 := by
  show (s.perform s.instruction).halted = true ↔ _
  rw [← instruction_eq_halt_iff]
  by_cases h : s.instruction = .halt
  · rw [h]
    exact iff_of_true rfl (.inr rfl)
  · rw [halted_perform h]
    exact (or_iff_left h).symm

/-- **The latch along steps.** It is set after some steps that succeed exactly if it was set
before them or one of them has carried out the code of HALT. -/
theorem halted_of_reaches {n : Nat} {s t : Machine} (h : Reaches step n s t) :
    t.halted = true ↔
      s.halted = true ∨ ∃ k < n, ∃ u, Reaches step k s u ∧ u.opcode = 0x76 := by
  induction n generalizing s with
  | zero =>
    cases h
    simp
  | succ n ih =>
    obtain ⟨h_fault, rest⟩ := reaches_succ_iff.1 h
    rw [ih rest, halted_next, or_assoc]
    -- the first of the steps has its code in `s`, and the others are steps from `s.next`
    refine or_congr_right ⟨?_, ?_⟩
    · rintro (here | ⟨k, hk, u, reaches, later⟩)
      · exact ⟨0, Nat.zero_lt_succ n, s, .refl s, here⟩
      · exact ⟨k + 1, Nat.succ_lt_succ hk, u, reaches_succ_iff.2 ⟨h_fault, reaches⟩, later⟩
    · rintro ⟨k, hk, u, reaches, code⟩
      cases k with
      | zero =>
        cases reaches
        exact .inl code
      | succ k =>
        obtain ⟨-, reaches⟩ := reaches_succ_iff.1 reaches
        exact .inr ⟨k, Nat.lt_of_succ_lt_succ hk, u, reaches, code⟩

/-! The actions of a machine leave a set latch set, whether or not they succeed. -/

theorem halted_stateAfter_step {s : Machine} (h : s.halted = true) :
    (stateAfter (step s)).halted = true := by
  rw [step_eq]
  cases s.fault? with
  | some f => exact h
  | none => exact s.halted_next.mpr (.inl h)

theorem halted_stateAfter_push (s : Machine) (w : Word) :
    (stateAfter (push w s)).halted = s.halted := by
  by_cases h : s.registers.sp < 2
  · rw [push_of_lt h]
    rfl
  · rw [push_of_not_lt h]
    rfl

theorem halted_stateAfter_pop (s : Machine) :
    (stateAfter (pop s)).halted = s.halted := by
  rw [pop_eq]
  split <;> rfl

end Machine

namespace Session

/-! ### What is done to a session -/

/-- What can be done to a session: what it is asked itself, and what is done to the processor and
to the memory it hands out. -/
inductive Handles (s : Session) : Session → Prop where
  | operation {op : Operation} {ms : List Machine} {o : Observation} {t : Session}
    (does : s.Does op ms o t) : Handles s t
  | patch (address : Word) (bytes : List Byte) :
    Handles s (stateAfter (Session.patch address bytes s))
  | step : Handles s (stateAfter (onMachine Machine.step s))
  | push (w : Word) : Handles s (stateAfter (onMachine (Machine.push w) s))
  | pop : Handles s (stateAfter (onMachine Machine.pop s))
  | write (w : Memory.Write) :
    Handles s { s with machine := s.machine.setMemory (stateAfter (w.call s.machine.memory)) }
  | assign (r : Registers) : Handles s { s with machine := s.machine.setRegisters r }

theorem machine_stateAfter_onMachine {α : Type} (act : Machine.Action α) (s : Session) :
    (stateAfter (onMachine act s)).machine = stateAfter (act s.machine) := by
  rw [onMachine]
  cases act s.machine <;> rfl

theorem halted_overwrite (a : Nat) (bs : List Byte) (e : Event) (s : Session) :
    (stateAfter (overwrite a bs e s)).machine.halted = s.machine.halted := by
  rw [overwrite_eq]
  split <;> rfl

/-- A halted machine takes no step in a run. -/
theorem Runs.eq_of_halted {k : Nat} {s t : Session} (h : Runs k s t)
    (asleep : s.machine.halted = true) : t = s := by
  cases h with
  | refl => rfl
  | step awake first rest =>
    rw [asleep] at awake
    cases awake

theorem machine_stateAfter_ended (t : Session) (e : Except Fault Ending) :
    (stateAfter (t.ended e)).machine = t.machine := by
  unfold ended
  split <;> rfl

theorem machine_of_yields {s : Session} {limit : Option Nat}
    {r : EStateM.Result Fault Session Ending} (h : s.Yields limit r)
    (asleep : s.machine.halted = true) : (stateAfter r).machine = s.machine := by
  obtain ⟨t, e, ends, rfl⟩ := exists_ends_of_yields h
  rw [machine_stateAfter_ended]
  cases ends with
  | halted runs | outOfSteps runs | failed runs => rw [runs.eq_of_halted asleep]

/-- **Nothing clears the latch.** -/
theorem Handles.halted {s t : Session} (h : s.Handles t) (asleep : s.machine.halted = true) :
    t.machine.halted = true := by
  cases h with
  | operation does =>
    cases does with
    | load bytes address => exact (halted_overwrite _ _ _ s).trans asleep
    | step =>
      rw [step_eq]
      cases s.machine.fault? with
      | some f => exact asleep
      | none => exact s.machine.halted_next.mpr (.inl asleep)
    | run n =>
      have yields : s.Yields (some n) (run n s) := rfl
      rw [machine_of_yields yields asleep, asleep]
    | @runToEnd fuel r ends =>
      have yields : s.Yields none r := ⟨fuel, ends⟩
      rw [machine_of_yields yields asleep, asleep]
  | patch address bytes => exact (halted_overwrite _ _ _ s).trans asleep
  | step =>
    rw [machine_stateAfter_onMachine]
    exact Machine.halted_stateAfter_step asleep
  | push w =>
    rw [machine_stateAfter_onMachine, Machine.halted_stateAfter_push, asleep]
  | pop =>
    rw [machine_stateAfter_onMachine, Machine.halted_stateAfter_pop, asleep]
  | write w => exact asleep
  | assign r => exact asleep

theorem halted_of_handles {s t : Session} (h : Relation.ReflTransGen Handles s t)
    (asleep : s.machine.halted = true) : t.machine.halted = true := by
  induction h with
  | refl => exact asleep
  | tail _ last ih => exact last.halted ih

/-! ### The steps of a run -/

theorem Runs.unique {k : Nat} {s t t' : Session} (h : Runs k s t) (h' : Runs k s t') : t = t' := by
  induction k generalizing s with
  | zero =>
    cases h
    cases h'
    rfl
  | succ k ih => exact ih (runs_succ_iff.1 h).2.2 (runs_succ_iff.1 h').2.2

theorem Runs.exists_last {k : Nat} {s u : Session} (h : Runs (k + 1) s u) :
    ∃ t pc, Runs k s t ∧ t.machine.halted = false ∧ Session.step t = .ok pc u := by
  induction k generalizing s with
  | zero =>
    obtain ⟨awake, h_fault, rest⟩ := runs_succ_iff.1 h
    cases rest
    exact ⟨s, _, .refl s, awake, step_of_no_fault h_fault⟩
  | succ k ih =>
    obtain ⟨awake, h_fault, rest⟩ := runs_succ_iff.1 h
    obtain ⟨t, pc, runs, last⟩ := ih rest
    exact ⟨t, pc, runs_succ_iff.2 ⟨awake, h_fault, runs⟩, last⟩

/-- On its way to a session that is awake, a run does not come upon the code of HALT. -/
theorem Runs.opcode_ne {k j : Nat} {s t w : Session} (h : Runs k s t)
    (awake : t.machine.halted = false) (before : Runs j s w) (hj : j < k) :
    w.machine.opcode ≠ 0x76 := by
  induction j generalizing k s with
  | zero =>
    obtain ⟨k, rfl⟩ := Nat.exists_eq_add_of_lt hj
    rw [Nat.zero_add, runs_succ_iff] at h
    cases before
    intro code
    -- the next session would have halted, and so the run would have stopped there
    have asleep : w.next.machine.halted = true := w.machine.halted_next.mpr (.inr code)
    rw [h.2.2.eq_of_halted asleep, asleep] at awake
    cases awake
  | succ j ih =>
    obtain ⟨k, rfl⟩ := Nat.exists_eq_add_of_lt hj
    exact ih (runs_succ_iff.1 h).2.2 (runs_succ_iff.1 before).2.2 (by omega)

/-- A run that sets the latch does so in its last step, and that step is its only HALT. -/
theorem exists_halt_of_yields {s u : Session} {limit : Option Nat}
    (awake : s.machine.halted = false) (h : s.Yields limit (.ok .halted u)) :
    ∃ k t v, Runs k s t ∧ Session.step t = .ok v.machine.registers.pc v ∧ u.Agrees v ∧
      u.machine.registers.pc = t.machine.registers.pc + 1 ∧
      ∀ j ≤ k, ∀ w, Runs j s w → (w.machine.opcode = 0x76 ↔ j = k) := by
  obtain ⟨v, e, ends, eq⟩ := exists_ends_of_yields h
  cases ends with
  | outOfSteps => cases eq
  | failed => cases eq
  | @halted k runs asleep =>
    cases eq
    cases k with
    | zero =>
      -- the session has been awake at the start, so there is a last step
      cases runs
      rw [awake] at asleep
      cases asleep
    | succ k =>
      obtain ⟨t, pc, before, awake', last⟩ := runs.exists_last
      obtain ⟨noFault, rfl, rfl⟩ := step_eq_ok_iff.1 last
      have code : t.machine.opcode = 0x76 := by
        have := t.machine.halted_next.mp asleep
        rw [awake'] at this
        exact this.resolve_left Bool.false_ne_true
      have pc : t.machine.nextPc = t.machine.registers.pc + 1 := by
        rw [Machine.nextPc, Machine.instruction_eq_halt_iff.mpr code]
        rfl
      refine ⟨k, t, t.next, before, last, agrees_concluded _ _, pc, fun j hj w reach => ⟨?_, ?_⟩⟩
      · intro code'
        refine (Nat.lt_or_eq_of_le hj).resolve_left fun earlier => ?_
        exact before.opcode_ne awake' reach earlier code'
      · rintro rfl
        rw [reach.unique before, code]

/-- **Only HALT sets the latch, and nothing clears it.** After steps that succeed it is set
exactly if it was set before or one of them looked up the code of HALT, and whatever is done to a
session, a set latch stays set. So a run that starts awake and halts has carried out HALT in its
last step and in no other, and stands right behind it. -/
theorem latch_set_only_by_halt :
    (∀ (n : Nat) (s t : Machine), Reaches Machine.step n s t →
      (t.halted = true ↔
        s.halted = true ∨ ∃ k < n, ∃ u, Reaches Machine.step k s u ∧ u.opcode = 0x76)) ∧
    (∀ s t : Session, Relation.ReflTransGen Handles s t → s.machine.halted = true →
      t.machine.halted = true) ∧
    ∀ (s u : Session) (limit : Option Nat), s.machine.halted = false →
      s.Yields limit (.ok .halted u) →
      ∃ k t v, Runs k s t ∧ Session.step t = .ok v.machine.registers.pc v ∧ u.Agrees v ∧
        u.machine.registers.pc = t.machine.registers.pc + 1 ∧
        ∀ j ≤ k, ∀ w, Runs j s w → (w.machine.opcode = 0x76 ↔ j = k) :=
  ⟨fun _ _ _ => Machine.halted_of_reaches, fun _ _ => halted_of_handles,
    fun _ _ _ => exists_halt_of_yields⟩

/-- `BIT 6, (HL)` and `LD B, 0x76` have the byte of HALT in second place and do not halt. The HALT
behind them, at the last address, does, and overwriting it does not wake the machine. -/
theorem latch_set_only_by_halt_behind_operands :
    let m := ((((Memory.zero.set 0xFFFB 0xCB).set 0xFFFC 0x76).set 0xFFFD 0x06).set 0xFFFE
      0x76).set 0xFFFF 0x76
    let s : Session := ⟨⟨{ Registers.zero with pc := 0xFFFB }, m, false⟩, 0, none⟩
    s.next.next.machine.halted = false ∧
      ∃ u, run 9 s = .ok .halted u ∧
        (∃ k t v, Runs k s t ∧ Session.step t = .ok v.machine.registers.pc v ∧ u.Agrees v ∧
          u.machine.registers.pc = t.machine.registers.pc + 1 ∧
          ∀ j ≤ k, ∀ w, Runs j s w → (w.machine.opcode = 0x76 ↔ j = k)) ∧
        (stateAfter (patch 0xFFFF [0] u)).machine.halted = true := by
  intro m s
  obtain ⟨latch, keep, last⟩ := latch_set_only_by_halt
  have three : Runs 3 s s.next.next.next :=
    runs_succ_iff.2 ⟨rfl, by decide, runs_succ_iff.2 ⟨by decide, by decide,
      runs_succ_iff.2 ⟨by decide, by decide, .refl _⟩⟩⟩
  have two : Reaches Machine.step 2 s.machine s.machine.next.next :=
    Machine.reaches_succ_iff.2 ⟨by decide, Machine.reaches_succ_iff.2 ⟨by decide, .refl _⟩⟩
  have all : Reaches Machine.step 3 s.machine s.machine.next.next.next :=
    Machine.reaches_succ_iff.2 ⟨by decide, Machine.reaches_succ_iff.2 ⟨by decide,
      Machine.reaches_succ_iff.2 ⟨by decide, .refl _⟩⟩⟩
  have asleep : s.next.next.next.machine.halted = true :=
    (latch 3 _ _ all).mpr (.inr ⟨2, by decide, _, two, by decide⟩)
  have halts : run 9 s = .ok .halted (s.next.next.next.concluded true) :=
    run_of_halted three asleep (by decide)
  refine ⟨by decide, _, halts, last s _ (some 9) rfl halts, ?_⟩
  exact keep _ _ (.single (.patch 0xFFFF [0])) asleep

end Session
end Sm83
