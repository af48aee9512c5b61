import Sm83.Proofs.HiddenFlags

/-!
# What a step leaves alone

An instruction changes the registers it names and the flags its class defines, and no others. The
two lists are `Instruction.namedRegisters` and `Instruction.definedFlags`. Both are read off the
instruction alone; whether a call or a return is carried out matters for the stack pointer only,
which moves by the length of a word (`Machine.Spares.sp`).

The functions that compute flags are shared by instructions with different lists: a comparison
subtracts but names no register, the short rotations of the accumulator go through the long ones,
and `LD HL, SP+e` is the one load that computes. So the lists are compared with what is carried
out, one case for each instruction: `value_perform` for the flags, `get_perform` for the byte
registers, `sp_perform` for the stack pointer and `hl_perform` for a pointer that counts.
`step_spares` puts them together.
-/

namespace Sm83

/-! ### The registers that operands name -/

/-- The registers of a place. -/
def Place.registers : Place → List Register
  | .register r => [r]
  | .atHl => []

/-- The byte registers of a pair. -/
def Pair.registers : Pair → List Register
  | .bc => [.b, .c]
  | .de => [.d, .e]
  | .hl => [.h, .l]
  | .sp => []

/-- The byte registers of a pair that can be popped. -/
def StackPair.registers : StackPair → List Register
  | .bc => [.b, .c]
  | .de => [.d, .e]
  | .hl => [.h, .l]
  | .af => [.a]

/-- The registers that move when a location is used. -/
def Location.registers : Location → List Register
  | .pointer .hlIncrement | .pointer .hlDecrement => [.h, .l]
  | _ => []

/-- By how much HL moves when a pointer is used. -/
def Pointer.stride : Pointer → Word
  | .bc | .de => 0
  | .hlIncrement => 1
  | .hlDecrement => -1

namespace Instruction

/-- **The byte registers that an instruction names** as its destination, or moves along. The
accumulator is the destination of all that is done to it, but for a comparison. -/
def namedRegisters : Instruction → List Register
  | load target _ | increment target | decrement target => target.registers
  | bits (.test _) _ => []
  | bits _ target => target.registers
  | storeA l => l.registers
  | loadA l => .a :: l.registers
  | loadPair p _ | incrementPair p | decrementPair p => p.registers
  | pop p => p.registers
  | loadHlSp _ | addHl _ => [.h, .l]
  | accumulate .compare _ => []
  | accumulate _ _ | decimalAdjust | complement | rotateA _ => [.a]
  | _ => []

/-- **The flags that the class of an instruction defines.** Transfers, jumps and the control of the
processor define none, unless they compute or take the flags from memory. -/
def definedFlags : Instruction → List Flag
  | increment _ | decrement _ | bits (.test _) _ => [.zero, .sign, .halfCarry, .parity]
  | bits (.reset _) _ | bits (.set _) _ => []
  | complement => [.halfCarry]
  | setCarry | flipCarry => [.halfCarry, .carry]
  | accumulate _ _ | addHl _ | addSp _ | loadHlSp _ | decimalAdjust | rotateA _ | bits _ _
  | pop .af => [.zero, .sign, .halfCarry, .parity, .carry]
  | _ => []

/-- Whether an instruction has the stack pointer as its destination. -/
def namesSp : Instruction → Bool
  | loadPair .sp _ | incrementPair .sp | decrementPair .sp | loadSpHl | addSp _ => true
  | _ => false

/-- The pointer through which an instruction reads or writes. -/
def pointer? : Instruction → Option Pointer
  | storeA (.pointer p) | loadA (.pointer p) => some p
  | _ => none

/-- Whether nothing is done but to go on. -/
def isIdle : Instruction → Bool
  | nop | stop | disableInterrupts | enableInterrupts | undefined _ => true
  | _ => false

end Instruction

/-- What counts or tests a bit defines all flags but the carry. -/
theorem Flag.eq_carry_of_notMem {x : Flag} (h : x ∉ [Flag.zero, .sign, .halfCarry, .parity]) :
    x = .carry := by
  cases x with
  | carry => rfl
  | _ => exact absurd (by decide) h

theorem Flag.mem_all (x : Flag) : x ∈ [Flag.zero, .sign, .halfCarry, .parity, .carry] := by
  cases x <;> decide

namespace Registers

variable {r : Registers} {x : Register}

theorem get_setPair {p : Pair} (h : x ∉ p.registers) (w : Word) :
    (r.setPair p w).get x = r.get x := by
  cases p <;> cases x <;> first | rfl | exact absurd (by decide) h

theorem get_setStackPair {p : StackPair} (h : x ∉ p.registers) (w : Word) :
    (r.setStackPair p w).get x = r.get x := by
  cases p <;> cases x <;> first | rfl | exact absurd (by decide) h

theorem sp_setStackPair (p : StackPair) (w : Word) : (r.setStackPair p w).sp = r.sp := by
  cases p <;> rfl

theorem flags_setPair (p : Pair) (w : Word) : (r.setPair p w).flags = r.flags := by
  cases p <;> rfl

end Registers

namespace Machine

variable {s : Machine} {i : Instruction}

/-! ### Flags -/

theorem flags_write (s : Machine) (p : Place) (v : Byte) :
    (s.write p v).registers.flags = s.registers.flags := by
  cases p with
  | register x => cases x <;> rfl
  | atHl => rfl

theorem flags_release (s : Machine) (l : Location) :
    (s.release l).registers.flags = s.registers.flags := by
  cases l with
  | pointer p => cases p <;> rfl
  | _ => rfl

/-- **Flags that the class does not define** stay as they are. -/
theorem value_perform {x : Flag} (h : x ∉ i.definedFlags) :
    (s.perform i).registers.flags.value x = s.registers.flags.value x := by
  -- most instructions do not touch the flags at all
  have same {f : Flags} (eq : f = s.registers.flags) :
      f.value x = s.registers.flags.value x := by rw [eq]
  cases i with
  | load target source => exact same (flags_write ..)
  | storeA l => exact same (flags_release (s.setMemory _) l)
  | loadA l => exact same (flags_release s l)
  | loadPair p _ | incrementPair p | decrementPair p => exact same (Registers.flags_setPair p _)
  | pop p =>
    cases p with
    | af => exact absurd x.mem_all h
    | _ => rfl
  | increment target | decrement target =>
    obtain rfl := Flag.eq_carry_of_notMem h
    show (write _ target _).registers.flags.value .carry = _
    rw [flags_write]
    rfl
  | complement =>
    cases x with
    | halfCarry => exact absurd (by decide) h
    | _ => rfl
  | setCarry | flipCarry =>
    cases x with
    | halfCarry | carry => exact absurd (by decide) h
    | _ => rfl
  | bits op target =>
    cases op with
    | shift k => exact absurd x.mem_all h
    | test j =>
      obtain rfl := Flag.eq_carry_of_notMem h
      rfl
    | reset j => exact same (flags_write ..)
    | set j => exact same (flags_write ..)
  | call c address =>
    show (if s.registers.flags.permits c then _ else s : Machine).registers.flags.value x = _
    split <;> rfl
  | ret c =>
    show (if s.registers.flags.permits c then _ else s : Machine).registers.flags.value x = _
    split <;> rfl
  -- these define all flags
  | accumulate | addHl | addSp | loadHlSp | decimalAdjust | rotateA =>
    exact absurd x.mem_all h
  | _ => rfl

/-! ### Byte registers -/

section Get

variable {x : Register}

theorem get_setFlags (s : Machine) (f : Flags) :
    (s.setFlags f).registers.get x = s.registers.get x := by
  cases x <;> rfl

theorem get_setSp (s : Machine) (w : Word) :
    (s.setSp w).registers.get x = s.registers.get x := by
  cases x <;> rfl

theorem get_setPc (s : Machine) (w : Word) :
    (s.setPc w).registers.get x = s.registers.get x := by
  cases x <;> rfl

theorem get_setA (h : x ∉ [Register.a]) (s : Machine) (v : Byte) :
    (s.setA v).registers.get x = s.registers.get x :=
  Registers.get_set_of_ne s.registers (x := .a) (fun eq => h (List.mem_singleton.2 eq)) v

theorem get_write {p : Place} (h : x ∉ p.registers) (s : Machine) (v : Byte) :
    (s.write p v).registers.get x = s.registers.get x := by
  cases p with
  | register y => exact Registers.get_set_of_ne _ (fun eq => h (List.mem_singleton.2 eq)) v
  | atHl => rfl

theorem get_release {l : Location} (h : x ∉ l.registers) (s : Machine) :
    (s.release l).registers.get x = s.registers.get x := by
  cases l with
  | pointer p =>
    cases p with
    | hlIncrement | hlDecrement => exact Registers.get_setPair (p := .hl) h _
    | _ => rfl
  | _ => rfl

theorem get_pushed (s : Machine) (w : Word) :
    (s.pushed w).registers.get x = s.registers.get x :=
  get_setSp (s.setMemory _) _

/-- **Byte registers that an instruction does not name** stay as they are. -/
theorem get_perform (h : x ∉ i.namedRegisters) :
    (s.perform i).registers.get x = s.registers.get x := by
  cases i with
  | load target source => exact get_write h s _
  | storeA l => exact get_release h (s.setMemory _)
  | loadA l =>
    obtain ⟨accumulator, moved⟩ := List.ne_and_not_mem_of_not_mem_cons h
    exact (get_setA (mt List.mem_singleton.1 accumulator) _ _).trans (get_release moved s)
  | loadPair p _ | incrementPair p | decrementPair p => exact Registers.get_setPair h _
  | loadSpHl => exact get_setSp s _
  | loadHlSp _ | addHl _ =>
    exact (Registers.get_setPair (p := .hl) h _).trans (get_setFlags s _)
  | addSp offset => exact (get_setSp (s.setFlags _) _).trans (get_setFlags s _)
  | push p => exact get_pushed s _
  | pop p => exact (Registers.get_setStackPair h _).trans (get_setSp s _)
  | increment _ | decrement _ => exact (get_write h _ _).trans (get_setFlags s _)
  | accumulate op source =>
    cases op with
    | compare =>
      -- the accumulator is put back as it was
      show ((s.setFlags _).setA s.registers.a).registers.get x = _
      cases x <;> rfl
    | _ => exact (get_setA h _ _).trans (get_setFlags s _)
  | decimalAdjust | complement | rotateA _ => exact (get_setA h _ _).trans (get_setFlags s _)
  | setCarry | flipCarry => exact get_setFlags s _
  | bits op target =>
    cases op with
    | shift k => exact (get_write h _ _).trans (get_setFlags s _)
    | test j => exact get_setFlags s _
    | reset j => exact get_write h s _
    | set j => exact get_write h s _
  | call c address =>
    show (if s.registers.flags.permits c then _ else s : Machine).registers.get x = _
    split
    · exact get_pushed s _
    · rfl
  | restart vector => exact get_pushed s _
  | ret c =>
    show (if s.registers.flags.permits c then _ else s : Machine).registers.get x = _
    split
    · exact get_setSp s _
    · rfl
  | retInterrupt => exact get_setSp s _
  | _ => rfl

end Get

/-! ### The stack pointer -/

theorem sp_write (s : Machine) (p : Place) (v : Byte) :
    (s.write p v).registers.sp = s.registers.sp := by
  cases p with
  | register x => cases x <;> rfl
  | atHl => rfl

theorem sp_release (s : Machine) (l : Location) :
    (s.release l).registers.sp = s.registers.sp := by
  cases l with
  | pointer p => cases p <;> rfl
  | _ => rfl

/-- **The stack pointer** moves by a word when one is pushed or popped, and otherwise only if it is
the destination. -/
theorem sp_perform (h : i.namesSp = false) :
    (s.perform i).registers.sp =
      if i.pushes s.registers.flags then s.registers.sp - 2
      else if i.pops s.registers.flags then s.registers.sp + 2
      else s.registers.sp := by
  cases i with
  | load target source => exact sp_write s target _
  | storeA l => exact sp_release (s.setMemory _) l
  | loadA l => exact sp_release s l
  | loadPair p w | incrementPair p | decrementPair p =>
    cases p with
    | sp => cases h
    | _ => rfl
  | pop p => exact Registers.sp_setStackPair p _
  | increment target | decrement target => exact sp_write _ target _
  | bits op target =>
    cases op with
    | shift k => exact sp_write _ target _
    | test j => rfl
    | reset j => exact sp_write s target _
    | set j => exact sp_write s target _
  | call c address =>
    show (if s.registers.flags.permits c then s.pushed _ else s : Machine).registers.sp =
      if s.registers.flags.permits c then s.registers.sp - 2 else s.registers.sp
    split <;> rfl
  | ret c =>
    show (if s.registers.flags.permits c then s.popped else s : Machine).registers.sp =
      if s.registers.flags.permits c then s.registers.sp + 2 else s.registers.sp
    split <;> rfl
  | loadSpHl | addSp => cases h
  | _ => rfl

/-! ### HL -/

theorem hl_release (s : Machine) (p : Pointer) :
    (s.release (.pointer p)).registers.hl = s.registers.hl + p.stride := by
  cases p with
  | bc | de => exact (BitVec.add_zero _).symm
  | hlIncrement => exact Registers.hl_setHl _ _
  | hlDecrement => exact (Registers.hl_setHl _ _).trans (BitVec.sub_eq_add_neg _ _)

/-- **HL moves along** with a pointer that is used. -/
theorem hl_perform {p : Pointer} (h : i.pointer? = some p) :
    (s.perform i).registers.hl = s.registers.hl + p.stride := by
  cases i with
  | storeA l =>
    cases l with
    | pointer q =>
      obtain rfl := Option.some.inj h
      exact hl_release (s.setMemory _) q
    | _ => cases h
  | loadA l =>
    cases l with
    | pointer q =>
      obtain rfl := Option.some.inj h
      exact hl_release s q
    | _ => cases h
  | _ => cases h

/-! ### Steps -/

theorem perform_of_isIdle (h : i.isIdle = true) : s.perform i = s := by
  cases i with
  | nop | stop | disableInterrupts | enableInterrupts | undefined _ => rfl
  | _ => cases h

/-- **Only what is named.** The registers and flags of `t` are those of `s`, but for those that the
instruction is there to change. A word on the stack moves the stack pointer by two, a pointer may
move HL by one, and where nothing is done the program counter moves alone. -/
structure Spares (s : Machine) (i : Instruction) (t : Machine) : Prop where
  flag : ∀ x, x ∉ i.definedFlags → t.registers.flags.value x = s.registers.flags.value x
  register : ∀ x, x ∉ i.namedRegisters → t.registers.get x = s.registers.get x
  sp : i.namesSp = false → t.registers.sp =
    if i.pushes s.registers.flags then s.registers.sp - 2
    else if i.pops s.registers.flags then s.registers.sp + 2
    else s.registers.sp
  hl : ∀ p, i.pointer? = some p → t.registers.hl = s.registers.hl + p.stride
  idle : i.isIdle = true → t = s.setPc t.registers.pc

/-- **What a step leaves alone.** A step that succeeds changes the registers that its instruction
names and the flags that its class defines, and no others. -/
theorem step_spares (s t : Machine) (pc : Word) (h : step s = .ok pc t) :
    s.Spares s.instruction t := by
  obtain ⟨-, -, rfl⟩ := step_eq_ok_iff.1 h
  -- behind the instruction only the program counter is left to be moved
  refine ⟨fun x hx => value_perform hx, fun x hx => ?_, fun hi => sp_perform hi,
    fun p hp => hl_perform hp, fun hi => ?_⟩
  · exact (get_setPc _ _).trans (get_perform hx)
  · show (s.perform s.instruction).setPc _ = s.setPc s.nextPc
    rw [perform_of_isIdle hi]

/-- `LD A, (HL+)` from the last address moves HL on to zero. `RET C` at the last word of the stack
moves the stack pointer to zero, and if the carry is clear it moves nothing. -/
theorem step_spares_at_edges :
    let s : Machine :=
      ⟨{ Registers.zero with h := 0xFF, l := 0xFF, sp := 0xFFFE, flags := .unpack 0xFF },
        (Memory.zero.set 0 0x2A).set 0xFFFF 0xD8, false⟩
    let taken : Machine := s.setPc 0xFFFF
    let passed : Machine := taken.setFlags .clear
    (∃ t, step s = .ok 1 t ∧ t.registers.hl = 0 ∧ t.registers.sp = 0xFFFE ∧
        t.registers.flags = s.registers.flags) ∧
      (∃ t, step taken = .ok 0xD800 t ∧ t.registers.sp = 0 ∧ t.registers.hl = 0xFFFF) ∧
      ∃ t, step passed = .ok 0 t ∧ t.registers.sp = 0xFFFE := by
  intro s taken passed
  have load : step s = .ok 1 s.next := step_eq_ok_iff.2 ⟨by decide, by decide, rfl⟩
  have back : step taken = .ok 0xD800 taken.next := step_eq_ok_iff.2 ⟨by decide, by decide, rfl⟩
  have pass : step passed = .ok 0 passed.next := step_eq_ok_iff.2 ⟨by decide, by decide, rfl⟩
  have loaded := step_spares s _ _ load
  have returned := step_spares taken _ _ back
  have passed_over := step_spares passed _ _ pass
  refine ⟨⟨_, load, ?_, ?_, ?_⟩, ⟨_, back, ?_, ?_⟩, _, pass, ?_⟩
  · exact (loaded.hl .hlIncrement (by decide)).trans (by decide)
  · exact (loaded.sp (by decide)).trans (by decide)
  · exact Flags.ext_value fun x => loaded.flag x (by cases x <;> decide)
  · exact (returned.sp (by decide)).trans (by decide)
  · rw [Registers.hl, show taken.next.registers.h = 0xFF from returned.register .h (by decide),
      show taken.next.registers.l = 0xFF from returned.register .l (by decide)]
    rfl
  · exact (passed_over.sp (by decide)).trans (by decide)

end Machine

end Sm83
