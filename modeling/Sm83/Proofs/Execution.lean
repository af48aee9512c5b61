import Sm83.Machine.Step
import Sm83.Proofs.Action
import Sm83.Proofs.Fetch
import Sm83.Proofs.Writes

/-!
# Steps as functions of the machine

`Machine.step` is an action: it reads and changes the machine piece by piece and may fail at
several places on the way. This file says once what a step comes to, and everything else about
steps is derived from it:

* `Machine.obstacle` is what stands in the way of an instruction, if anything does;
* `Machine.perform` is the machine after it, and `Machine.target` the address it jumps to;
* `Machine.fault?`, `Machine.nextPc` and `Machine.next` say the same of the instruction at the
  program counter;
* `Machine.after` is the machine after several steps.

`execute_eq` and `step_eq` tie them to the actions. In both, **a failure comes before the first
effect**: the machine that an error leaves behind is the machine before.
-/

namespace Sm83

/-! ### Instructions that use the stack -/

namespace Instruction

/-- Whether an instruction pushes a word, given the flags. -/
def pushes (f : Flags) : Instruction → Bool
  | push _ | restart _ => true
  | call c _ => f.permits c
  | _ => false

/-- Whether an instruction pops a word, given the flags. -/
def pops (f : Flags) : Instruction → Bool
  | pop _ | retInterrupt => true
  | ret c => f.permits c
  | _ => false

theorem pops_eq_false {f : Flags} {i : Instruction} (h : i.pushes f = true) :
    i.pops f = false := by
  cases i <;> first | rfl | cases h

end Instruction

/-! ### Words in memory -/

namespace Memory

/-- A word can be read everywhere but at the last address. -/
theorem readWord_toNat (m : Memory) (a : Word) :
    m.readWord a.toNat = if a = 0xFFFF then .error (.outOfRange size) else .ok (m.getWord a) := by
  rw [readWord, readByte_toNat]
  split
  · next h =>
    -- the low byte is there, and the high byte is the one that is missed
    subst h
    rfl
  · next h =>
    have h_lt : a.toNat + 1 < size := by
      have h_ne : a.toNat ≠ 0xFFFF := fun h' => h (BitVec.eq_of_toNat_eq h')
      have := a.isLt
      rw [size]; omega
    have h_succ : BitVec.ofNat 16 (a.toNat + 1) = a + 1 := Word.ofNat_toNat_add a 1
    rw [readByte, if_pos h_lt, h_succ]
    rfl

end Memory

namespace Machine

/-! ### Actions of memory -/

section OnMemory

variable {α : Type} {act : Memory.Action α} {s : Machine} {m : Memory}

theorem onMemory_ok {x : α} (h : act s.memory = .ok x m) :
    onMemory act s = .ok x (s.setMemory m) := by
  rw [onMemory, h]

theorem onMemory_error {f : Fault} (h : act s.memory = .error f m) :
    onMemory act s = .error f (s.setMemory m) := by
  rw [onMemory, h]

end OnMemory

/-! ### The stack -/

/-- The machine after a word has been pushed. -/
def pushed (s : Machine) (w : Word) : Machine :=
  (s.setMemory (s.memory.setWord (s.registers.sp - 2) w)).setSp (s.registers.sp - 2)

/-- The word at the stack pointer. -/
def top (s : Machine) : Word := s.memory.getWord s.registers.sp

/-- The machine after a word has been popped. -/
def popped (s : Machine) : Machine := s.setSp (s.registers.sp + 2)

section Stack

variable {s : Machine}

theorem push_of_lt (h : s.registers.sp < 2) (w : Word) :
    push w s = .error (.stackOverflow s.registers.sp) s := by
  change (if s.registers.sp < 2 then _ else _ : Action Unit) s = _
  rw [if_pos h]
  rfl

/-- Where there is room, the word does not reach the end of memory. -/
theorem push_of_not_lt (h : ¬s.registers.sp < 2) (w : Word) : push w s = .ok () (s.pushed w) := by
  have h_inside : s.registers.sp - 2 ≠ 0xFFFF := fun h' => h (by bv_omega)
  change (if s.registers.sp < 2 then _ else _ : Action Unit) s = _
  rw [if_neg h]
  change (onMemory (Memory.writeWord (s.registers.sp - 2).toNat w) >>= fun _ => _) s = _
  rw [bind_ok (onMemory_ok ((Memory.writeWord_toNat _ _ _).trans (if_neg h_inside)))]
  rfl

theorem pop_of_eq (h : s.registers.sp = 0xFFFF) : pop s = .error (.outOfRange Memory.size) s := by
  rw [pop_eq, Memory.readWord_toNat, if_pos h]

theorem pop_of_ne (h : s.registers.sp ≠ 0xFFFF) : pop s = .ok s.top s.popped := by
  rw [pop_eq, Memory.readWord_toNat, if_neg h]
  rfl

end Stack

/-! ### What an instruction does -/

/-- What stands in the way of an instruction whose bytes have been read. -/
def obstacle (s : Machine) (i : Instruction) : Option Fault :=
  if i = .storeSp 0xFFFF then some (.outOfRange Memory.size)
  else if i.pushes s.registers.flags ∧ s.registers.sp < 2 then
    some (.stackOverflow s.registers.sp)
  else if i.pops s.registers.flags ∧ s.registers.sp = 0xFFFF then
    some (.outOfRange Memory.size)
  else none

/-- The machine after an instruction, but for the program counter. -/
def perform (s : Machine) (i : Instruction) : Machine :=
  match i with
  | .nop | .stop | .disableInterrupts | .enableInterrupts | .undefined _
  | .jumpRelative _ _ | .jump _ _ | .jumpHl => s
  | .halt => { s with halted := true }
  | .load target source => s.load target source
  | .storeA l => s.storeA l
  | .loadA l => s.loadA l
  | .loadPair p w => s.setPair p w
  | .storeSp address => s.setMemory (s.memory.setWord address s.registers.sp)
  | .loadSpHl => s.setSp s.registers.hl
  | .loadHlSp offset => s.offsetSp .hl offset
  | .push p => s.pushed (s.registers.stackPair p)
  | .pop p => s.popped.setRegisters (s.popped.registers.setStackPair p s.top)
  | .increment target => s.increment target
  | .decrement target => s.decrement target
  | .incrementPair p => s.incrementPair p
  | .decrementPair p => s.decrementPair p
  | .accumulate op source => s.accumulate op source
  | .addHl p => s.addHl p
  | .addSp offset => s.offsetSp .sp offset
  | .decimalAdjust => s.decimalAdjust
  | .complement => s.complement
  | .setCarry => s.assignCarry true
  | .flipCarry => s.assignCarry !s.registers.flags.carry
  | .rotateA r => s.rotateA r
  | .bits op target => s.operateBits op target
  | .call c _ =>
    if s.registers.flags.permits c then s.pushed (s.registers.pc + .ofNat 16 i.length) else s
  | .restart _ => s.pushed (s.registers.pc + .ofNat 16 i.length)
  | .ret c => if s.registers.flags.permits c then s.popped else s
  | .retInterrupt => s.popped

/-- The address that an instruction jumps to, or `none` where the next instruction follows. -/
def target (s : Machine) (i : Instruction) : Option Word :=
  match i with
  | .jumpRelative c offset =>
    if s.registers.flags.permits c then some (relativeTarget s.registers.pc offset) else none
  | .jump c address | .call c address =>
    if s.registers.flags.permits c then some address else none
  | .jumpHl => some s.registers.hl
  | .ret c => if s.registers.flags.permits c then some s.top else none
  | .retInterrupt => some s.top
  | .restart vector => some (.ofBytes 0 (restartTarget vector))
  | _ => none

/-! #### Obstacles -/

section Obstacle

variable {s : Machine} {i : Instruction}

theorem obstacle_of_pushes (h : i.pushes s.registers.flags = true) :
    s.obstacle i =
      if s.registers.sp < 2 then some (.stackOverflow s.registers.sp) else none := by
  have h_store : i ≠ .storeSp 0xFFFF := by rintro rfl; cases h
  have h_pops : ¬(i.pops s.registers.flags = true ∧ s.registers.sp = 0xFFFF) := by
    rintro ⟨h', -⟩
    exact Bool.noConfusion ((Instruction.pops_eq_false h).symm.trans h')
  rw [obstacle, if_neg h_store, if_neg h_pops]
  simp only [h, true_and]

theorem obstacle_of_pops (h : i.pops s.registers.flags = true) :
    s.obstacle i =
      if s.registers.sp = 0xFFFF then some (.outOfRange Memory.size) else none := by
  have h_store : i ≠ .storeSp 0xFFFF := by rintro rfl; cases h
  have h_pushes : ¬(i.pushes s.registers.flags = true ∧ s.registers.sp < 2) := by
    rintro ⟨h', -⟩
    exact Bool.noConfusion (h.symm.trans (Instruction.pops_eq_false h'))
  rw [obstacle, if_neg h_store, if_neg h_pushes]
  simp only [h, true_and]

theorem obstacle_eq_none (h_store : i ≠ .storeSp 0xFFFF)
    (h_pushes : i.pushes s.registers.flags = false)
    (h_pops : i.pops s.registers.flags = false) : s.obstacle i = none := by
  rw [obstacle, if_neg h_store, if_neg (fun h => Bool.noConfusion (h_pushes.symm.trans h.1)),
    if_neg (fun h => Bool.noConfusion (h_pops.symm.trans h.1))]

section Clear

/-! What an instruction has found where nothing stands in its way. -/

variable (h_clear : s.obstacle i = none)

include h_clear

theorem not_lt_of_pushes (h_pushes : i.pushes s.registers.flags = true) :
    ¬s.registers.sp < 2 := by
  intro h_lt
  rw [obstacle_of_pushes h_pushes, if_pos h_lt] at h_clear
  cases h_clear

theorem ne_of_pops (h_pops : i.pops s.registers.flags = true) : s.registers.sp ≠ 0xFFFF := by
  intro h_eq
  rw [obstacle_of_pops h_pops, if_pos h_eq] at h_clear
  cases h_clear

theorem ne_of_storeSp {address : Word} (h_store : i = .storeSp address) : address ≠ 0xFFFF := by
  rintro rfl
  rw [obstacle, if_pos h_store] at h_clear
  cases h_clear

end Clear

end Obstacle

/-! #### The actions that can fail -/

theorem storeSp_of_eq (s : Machine) :
    storeSp 0xFFFF s = .error (.outOfRange Memory.size) s := by
  change onMemory (Memory.writeWord (0xFFFF : Word).toNat s.registers.sp) s = _
  exact onMemory_error ((Memory.writeWord_toNat s.memory 0xFFFF _).trans (if_pos rfl))

theorem storeSp_of_ne {address : Word} (h : address ≠ 0xFFFF) (s : Machine) :
    storeSp address s
      = .ok () (s.setMemory (s.memory.setWord address s.registers.sp)) := by
  change onMemory (Memory.writeWord address.toNat s.registers.sp) s = _
  exact onMemory_ok ((Memory.writeWord_toNat s.memory address _).trans (if_neg h))

theorem callFrom_eq (length : Nat) (target : Word) (s : Machine) :
    callFrom length target s =
      if s.registers.sp < 2 then .error (.stackOverflow s.registers.sp) s
      else .ok (some target) (s.pushed (s.registers.pc + .ofNat 16 length)) := by
  change (push (s.registers.pc + .ofNat 16 length) >>= fun _ => pure (some target)) s = _
  split
  · next h => rw [bind_error (push_of_lt h _)]
  · next h => rw [bind_ok (push_of_not_lt h _)]; rfl

theorem popJump_eq (s : Machine) :
    popJump s =
      if s.registers.sp = 0xFFFF then .error (.outOfRange Memory.size) s
      else .ok (some s.top) s.popped := by
  change (pop >>= fun target => pure (some target)) s = _
  split
  · next h => rw [bind_error (pop_of_eq h)]
  · next h => rw [bind_ok (pop_of_ne h)]; rfl

/-- **What an instruction comes to.** Either something stands in its way and the machine stays
as it is, or it is carried out. -/
theorem execute_eq (i : Instruction) (s : Machine) :
    execute i s = match s.obstacle i with
      | some f => .error f s
      | none => .ok (s.target i) (s.perform i) := by
  cases i with
  | storeSp address =>
    -- the one write at an address that the instruction names and that may be the last one
    change (storeSp address >>= fun _ => pure none) s = _
    by_cases h : address = 0xFFFF
    · subst h
      rw [bind_error (storeSp_of_eq s)]
      rfl
    · rw [bind_ok (storeSp_of_ne h s), obstacle_eq_none (fun h' => h (by cases h'; rfl)) rfl rfl]
      rfl
  | push p =>
    -- the room is looked for before anything is written
    change (push (s.registers.stackPair p) >>= fun _ => pure none) s = _
    rw [obstacle_of_pushes rfl]
    by_cases h : s.registers.sp < 2
    · rw [bind_error (push_of_lt h _), if_pos h]
    · rw [bind_ok (push_of_not_lt h _), if_neg h]
      rfl
  | pop p =>
    -- the word is read before the stack pointer moves or the pair is loaded
    change (pop >>= fun w => proceed fun s => s.setRegisters (s.registers.setStackPair p w)) s = _
    rw [obstacle_of_pops rfl]
    by_cases h : s.registers.sp = 0xFFFF
    · rw [bind_error (pop_of_eq h), if_pos h]
    · rw [bind_ok (pop_of_ne h), if_neg h]
      rfl
  | call c address =>
    -- only a call that is carried out needs room
    change (if s.registers.flags.permits c then callFrom _ address else pure none) s = _
    by_cases h : s.registers.flags.permits c
    · rw [if_pos h, callFrom_eq, obstacle_of_pushes (i := .call c address) h]
      split
      · rfl
      · simp only [target, perform, if_pos h]
    · rw [if_neg h, obstacle_eq_none (i := .call c address) nofun (Bool.eq_false_iff.2 h) rfl]
      simp only [target, perform, if_neg h]
      rfl
  | restart vector =>
    change callFrom _ _ s = _
    rw [callFrom_eq, obstacle_of_pushes rfl]
    split <;> rfl
  | ret c =>
    -- only a return that is carried out needs a word
    change (if s.registers.flags.permits c then popJump else pure none) s = _
    by_cases h : s.registers.flags.permits c
    · rw [if_pos h, popJump_eq, obstacle_of_pops (i := .ret c) h]
      split
      · rfl
      · simp only [target, perform, if_pos h]
    · rw [if_neg h, obstacle_eq_none (i := .ret c) nofun rfl (Bool.eq_false_iff.2 h)]
      simp only [target, perform, if_neg h]
      rfl
  | retInterrupt =>
    change popJump s = _
    rw [popJump_eq, obstacle_of_pops rfl]
    split <;> rfl
  -- nothing stands in the way of the others, and both sides compute to the same machine
  | _ => rfl

/-! ### What a step does -/

/-- The instruction at the program counter. -/
def instruction (s : Machine) : Instruction := s.memory.instruction s.registers.pc

/-- The bytes that the next instruction needs lie in memory. -/
def Fetches (s : Machine) : Prop :=
  s.registers.pc.toNat + s.instruction.fetchedBytes ≤ Memory.size

instance (s : Machine) : Decidable s.Fetches := inferInstanceAs (Decidable (_ ≤ _))

/-- Why the next step fails, if it does: bytes of the instruction are missing, or something
stands in its way. -/
def fault? (s : Machine) : Option Fault :=
  if s.Fetches then s.obstacle s.instruction else some (.outOfRange Memory.size)

theorem fault?_eq_none_iff {s : Machine} :
    s.fault? = none ↔ s.Fetches ∧ s.obstacle s.instruction = none := by
  rw [fault?]
  by_cases h : s.Fetches
  · rw [if_pos h, and_iff_right h]
  · rw [if_neg h]
    exact iff_of_false nofun fun h' => h h'.1

/-- Where the next step leads the program counter. -/
def nextPc (s : Machine) : Word :=
  (s.target s.instruction).getD (s.registers.pc + .ofNat 16 s.instruction.length)

/-- The machine after the next step. -/
def next (s : Machine) : Machine := (s.perform s.instruction).setPc s.nextPc

/-- **What a step comes to.** Either it fails and the machine stays as it is, or it carries the
instruction out and moves the program counter on. -/
theorem step_eq (s : Machine) :
    step s = match s.fault? with
      | some f => .error f s
      | none => .ok s.nextPc s.next := by
  change ((MonadExcept.ofExcept (s.memory.fetch s.registers.pc) : Action _) >>= _) s = _
  by_cases h : s.Fetches
  · have h_fetch : s.memory.fetch s.registers.pc = .ok s.instruction := by
      rw [Memory.fetch_eq]
      exact if_pos h
    rw [h_fetch, fault?, if_pos h]
    change (execute s.instruction >>= _) s = _
    have h_execute := execute_eq s.instruction s
    cases h_obstacle : s.obstacle s.instruction with
    | some f =>
      -- the program counter is not reached
      rw [h_obstacle] at h_execute
      rw [bind_error h_execute]
    | none =>
      rw [h_obstacle] at h_execute
      rw [bind_ok h_execute]
      rfl
  · -- the instruction is not even asked what stands in its way
    have h_fetch : s.memory.fetch s.registers.pc = .error (.outOfRange Memory.size) := by
      rw [Memory.fetch_eq]
      exact if_neg h
    rw [h_fetch, fault?, if_neg h]
    rfl

theorem step_eq_error_iff {s t : Machine} {f : Fault} :
    step s = .error f t ↔ s.fault? = some f ∧ t = s := by
  rw [step_eq]
  cases s.fault? <;> simp [eq_comm]

theorem step_eq_ok_iff {s t : Machine} {pc : Word} :
    step s = .ok pc t ↔ s.fault? = none ∧ pc = s.nextPc ∧ t = s.next := by
  rw [step_eq]
  cases s.fault? <;> simp [eq_comm]

/-! ### Steps in a row -/

/-- The machine after some calls of `step`. A call that fails counts, too. -/
def after (s : Machine) : Nat → Machine
  | 0 => s
  | n + 1 => stateAfter (step (s.after n))

/-- There is one way to take steps in a row. -/
theorem reaches_succ_iff {n : Nat} {s t : Machine} :
    Reaches step (n + 1) s t ↔ s.fault? = none ∧ Reaches step n s.next t := by
  constructor
  · rintro (_ | ⟨first, rest⟩)
    obtain ⟨h_fault, -, rfl⟩ := step_eq_ok_iff.1 first
    exact ⟨h_fault, rest⟩
  · rintro ⟨h_fault, rest⟩
    exact .step (step_eq_ok_iff.2 ⟨h_fault, rfl, rfl⟩) rest

/-- The next step carries out the instruction: it is the one that is fetched, and it does not
fail. -/
def Executes (s : Machine) (i : Instruction) : Prop :=
  s.memory.fetch s.registers.pc = .ok i ∧ ∃ pc t, step s = .ok pc t

theorem executes_iff {s : Machine} {i : Instruction} :
    s.Executes i ↔ s.instruction = i ∧ s.fault? = none := by
  constructor
  · rintro ⟨h_fetch, pc, t, h_step⟩
    have h_fault := (step_eq_ok_iff.1 h_step).1
    rw [Memory.fetch_eq] at h_fetch
    split at h_fetch
    · exact ⟨Except.ok.inj h_fetch, h_fault⟩
    · cases h_fetch
  · rintro ⟨rfl, h_fault⟩
    -- a step that does not fail has fetched its instruction
    refine ⟨?_, s.nextPc, s.next, step_eq_ok_iff.2 ⟨h_fault, rfl, rfl⟩⟩
    rw [Memory.fetch_eq]
    exact if_pos (fault?_eq_none_iff.1 h_fault).1

instance (s : Machine) (i : Instruction) : Decidable (s.Executes i) :=
  decidable_of_iff' _ executes_iff

end Machine

end Sm83
