import Sm83.Proofs.Execution

/-!
# Flags that stay hidden

Most instructions look at few flags or at none. A flag that is never looked at has no influence
on anything else: two machines that differ in it only keep differing in it only. This file makes
that precise for any set of flags.

* `Instruction.tests` lists the flags that decide whether an instruction takes effect, and
  `Instruction.exposes` those on which anything else than the flags themselves may depend after
  it. PUSH AF exposes all of them, since it writes the packed flags to memory.
* `Machine.conceal H` clears the flags of `H`. Where an instruction exposes none of them, it does
  the same with and without them (`target_conceal`, `perform_conceal`); so `conceal` turns the
  comparison of two machines into an equation.
* `Machine.AgreesBut H s t` says that two machines agree in everything but the flags of `H`. It
  is carried through one step by `step_alike` and through any number of them by `runsAlike`.

The main statement, `hidden_flags_stay_hidden`, is about the flags that no condition tests: sign
and parity come to light through PUSH AF only, and the half-carry through PUSH AF and DAA only.
-/

namespace Sm83

/-- The names of the condition flags. -/
inductive Flag where
  | zero | sign | halfCarry | parity | carry
  deriving DecidableEq

/-! ### Flags by name -/

namespace Flags

variable {H : List Flag} {f g : Flags} {x : Flag}

/-- The flag with a name. -/
def value (f : Flags) : Flag → Bool
  | .zero => f.zero
  | .sign => f.sign
  | .halfCarry => f.halfCarry
  | .parity => f.parity
  | .carry => f.carry

theorem ext_value (h : ∀ x, f.value x = g.value x) : f = g := by
  obtain ⟨z, s, hc, p, c⟩ := f
  obtain ⟨z', s', hc', p', c'⟩ := g
  congr 1
  · exact h .zero
  · exact h .sign
  · exact h .halfCarry
  · exact h .parity
  · exact h .carry

/-- The flags with those of `H` cleared. -/
def conceal (H : List Flag) (f : Flags) : Flags where
  zero := f.zero && .zero ∉ H
  sign := f.sign && .sign ∉ H
  halfCarry := f.halfCarry && .halfCarry ∉ H
  parity := f.parity && .parity ∉ H
  carry := f.carry && .carry ∉ H

theorem value_conceal (H : List Flag) (f : Flags) (x : Flag) :
    (f.conceal H).value x = (f.value x && x ∉ H) := by
  cases x <;> rfl

theorem value_conceal_of_notMem (hx : x ∉ H) : (f.conceal H).value x = f.value x := by
  rw [value_conceal, decide_eq_true hx, Bool.and_true]

theorem conceal_eq_iff : f.conceal H = g.conceal H ↔ ∀ x, x ∉ H → f.value x = g.value x := by
  constructor
  · intro h x hx
    rw [← value_conceal_of_notMem hx, h, value_conceal_of_notMem hx]
  · intro h
    refine ext_value fun x => ?_
    rw [value_conceal, value_conceal]
    by_cases hx : x ∈ H
    · rw [decide_eq_false (not_not_intro hx), Bool.and_false, Bool.and_false]
    · rw [h x hx]

theorem conceal_conceal : (f.conceal H).conceal H = f.conceal H :=
  conceal_eq_iff.2 fun _ hx => value_conceal_of_notMem hx

theorem conceal_of_forall_notMem (h : ∀ x, x ∉ H) : f.conceal H = f :=
  ext_value fun x => value_conceal_of_notMem (h x)

/-- Flags that describe the same result agree in all but the carry. -/
theorem conceal_ofResult {result : Byte} {halfCarry c c' : Bool} (h : .carry ∉ H → c = c') :
    (ofResult result halfCarry c).conceal H = (ofResult result halfCarry c').conceal H := by
  refine conceal_eq_iff.2 fun x hx => ?_
  cases x with
  | carry => exact h hx
  -- the result itself is the same
  | _ => rfl

end Flags

/-! ### The flags that an instruction looks at -/

/-- The flag that a condition is about. -/
def Condition.flag : Condition → Flag
  | .notZero | .zero => .zero
  | .notCarry | .carry => .carry

/-- The flags that an operation on the accumulator takes in. -/
def Accumulation.exposes : Accumulation → List Flag
  | .addCarry | .subtractCarry => [.carry]
  | _ => []

/-- The flags that a rotation takes in. -/
def Rotation.exposes : Rotation → List Flag
  | .leftThroughCarry | .rightThroughCarry => [.carry]
  | _ => []

/-- The flags that a rotation or shift takes in. -/
def Shift.exposes : Shift → List Flag
  | .rotate r => r.exposes
  | _ => []

/-- The flags that an operation on bits takes in. -/
def BitOperation.exposes : BitOperation → List Flag
  | .shift s => s.exposes
  | _ => []

namespace Instruction

/-- The flags that decide whether an instruction takes effect. -/
def tests (i : Instruction) : List Flag := (i.condition.map Condition.flag).toList

/-- The flags on which registers, memory, the next address or other flags may depend after an
instruction. A flag that is only handed on, or inverted, is not among them. -/
def exposes : Instruction → List Flag
  | push .af => [.zero, .sign, .halfCarry, .parity, .carry]
  | decimalAdjust => [.halfCarry, .carry]
  | accumulate op _ => op.exposes
  | rotateA r => r.exposes
  | bits op _ => op.exposes
  | i => i.tests

theorem tests_subset_exposes {i : Instruction} {x : Flag} (h : x ∈ i.tests) : x ∈ i.exposes := by
  cases i with
  | push p => cases h
  -- either the list of what it exposes is that of what it tests, or it tests nothing
  | _ => first | exact h | cases h

end Instruction

/-! ### Arithmetic with and without a carry -/

namespace Arithmetic

variable {c c' : Bool}

theorem accumulate_congr {op : Accumulation} (h : .carry ∈ op.exposes → c = c') (a n : Byte) :
    accumulate op c a n = accumulate op c' a n := by
  cases op with
  | addCarry => rw [h (List.mem_singleton_self _)]
  | subtractCarry => rw [h (List.mem_singleton_self _)]
  | _ => rfl

theorem rotate_congr {r : Rotation} (h : .carry ∈ r.exposes → c = c') (n : Byte) :
    rotate r c n = rotate r c' n := by
  cases r with
  | leftThroughCarry => rw [h (List.mem_singleton_self _)]
  | rightThroughCarry => rw [h (List.mem_singleton_self _)]
  | _ => rfl

theorem shift_congr {k : Shift} (h : .carry ∈ k.exposes → c = c') (n : Byte) :
    shift k c n = shift k c' n := by
  cases k with
  | rotate r => rw [shift, shift, move, move, rotate_congr h]
  | _ => rfl

theorem decimalAdjust_congr {f g : Flags} (h_half : f.halfCarry = g.halfCarry)
    (h_carry : f.carry = g.carry) (a : Byte) : decimalAdjust f a = decimalAdjust g a := by
  -- the adjusted byte and its flags are computed without the other three
  obtain ⟨_, _, hc, _, c⟩ := f
  obtain ⟨_, _, hc', _, c'⟩ := g
  cases h_half
  cases h_carry
  rfl

end Arithmetic

/-! ### Machines with concealed flags -/

namespace Machine

variable {H : List Flag} {s t : Machine}

/-- The machine with the flags of `H` cleared. -/
def conceal (H : List Flag) (s : Machine) : Machine := s.setFlags (s.registers.flags.conceal H)

theorem conceal_conceal : (s.conceal H).conceal H = s.conceal H :=
  congrArg s.setFlags Flags.conceal_conceal

theorem conceal_setFlags {f g : Flags} (h : f.conceal H = g.conceal H) :
    (s.setFlags f).conceal H = (s.setFlags g).conceal H :=
  congrArg s.setFlags h

theorem get_conceal (x : Register) :
    (s.conceal H).registers.get x = s.registers.get x := by
  cases x <;> rfl

theorem read_conceal (p : Place) : (s.conceal H).read p = s.read p := by
  cases p with
  | register x => exact get_conceal x
  | atHl => rfl

theorem operand_conceal (source : Source) : (s.conceal H).operand source = s.operand source := by
  cases source with
  | place p => exact read_conceal p
  | immediate n => rfl

theorem write_conceal (p : Place) (v : Byte) :
    (s.conceal H).write p v = (s.write p v).conceal H := by
  cases p with
  | register x => cases x <;> rfl
  | atHl => rfl

theorem setPair_conceal (p : Pair) (w : Word) :
    (s.conceal H).setPair p w = (s.setPair p w).conceal H := by
  cases p <;> rfl

theorem conceal_write_setFlags {f g : Flags} (h : f.conceal H = g.conceal H) (p : Place)
    (v : Byte) : ((s.setFlags f).write p v).conceal H = ((s.setFlags g).write p v).conceal H := by
  rw [← write_conceal, ← write_conceal, conceal_setFlags h]

/-! #### Instructions that leave the flags alone -/

theorem load_conceal (target : Place) (source : Source) :
    (s.conceal H).load target source = (s.load target source).conceal H := by
  rw [load, load, operand_conceal, write_conceal]

theorem storeA_conceal (l : Location) : (s.conceal H).storeA l = (s.storeA l).conceal H := by
  cases l with
  | pointer p => cases p <;> rfl
  | _ => rfl

theorem loadA_conceal (l : Location) : (s.conceal H).loadA l = (s.loadA l).conceal H := by
  cases l with
  | pointer p => cases p <;> rfl
  | _ => rfl

theorem pair_conceal (p : Pair) : (s.conceal H).registers.pair p = s.registers.pair p := by
  cases p <;> rfl

/-! #### Instructions that hand flags on -/

theorem carry_conceal (h : .carry ∉ H) :
    (s.conceal H).registers.flags.carry = s.registers.flags.carry :=
  Flags.value_conceal_of_notMem (x := .carry) h

theorem increment_conceal (target : Place) :
    ((s.conceal H).increment target).conceal H = (s.increment target).conceal H := by
  rw [increment, increment, read_conceal]
  exact conceal_write_setFlags (Flags.conceal_ofResult carry_conceal) _ _

theorem decrement_conceal (target : Place) :
    ((s.conceal H).decrement target).conceal H = (s.decrement target).conceal H := by
  rw [decrement, decrement, read_conceal]
  exact conceal_write_setFlags (Flags.conceal_ofResult carry_conceal) _ _

theorem complement_conceal : (s.conceal H).complement.conceal H = s.complement.conceal H := by
  refine conceal_write_setFlags (Flags.conceal_eq_iff.2 fun x hx => ?_) (.register .a) _
  cases x with
  -- set in both machines, and the other flags are handed on
  | halfCarry => rfl
  | _ => exact Flags.value_conceal_of_notMem hx

/-- A new carry may depend on the old one, which is hidden where the new one is. -/
theorem assignCarry_conceal {c c' : Bool} (h : .carry ∉ H → c = c') :
    ((s.conceal H).assignCarry c).conceal H = (s.assignCarry c').conceal H := by
  refine conceal_setFlags (Flags.conceal_eq_iff.2 fun x hx => ?_)
  cases x with
  | halfCarry => rfl
  | carry => exact h hx
  | _ => exact Flags.value_conceal_of_notMem hx

/-! #### Instructions that take flags in -/

theorem accumulate_conceal {op : Accumulation} (h : ∀ x ∈ op.exposes, x ∉ H) (source : Source) :
    (s.conceal H).accumulate op source = s.accumulate op source := by
  rw [accumulate, accumulate, operand_conceal,
    Arithmetic.accumulate_congr fun h' => carry_conceal (h .carry h')]
  rfl

theorem addHl_conceal (p : Pair) : (s.conceal H).addHl p = s.addHl p := by
  rw [addHl, addHl, pair_conceal]
  rfl

theorem decimalAdjust_conceal (h_half : .halfCarry ∉ H) (h_carry : .carry ∉ H) :
    (s.conceal H).decimalAdjust = s.decimalAdjust := by
  have h_half' : (s.conceal H).registers.flags.halfCarry = s.registers.flags.halfCarry :=
    Flags.value_conceal_of_notMem (x := .halfCarry) h_half
  rw [decimalAdjust, decimalAdjust,
    Arithmetic.decimalAdjust_congr h_half' (carry_conceal h_carry)]
  rfl

theorem rotateA_conceal {r : Rotation} (h : ∀ x ∈ r.exposes, x ∉ H) :
    (s.conceal H).rotateA r = s.rotateA r := by
  rw [rotateA, rotateA, Arithmetic.rotateAccumulator, Arithmetic.rotateAccumulator,
    Arithmetic.rotate_congr fun h' => carry_conceal (h .carry h')]
  rfl

theorem operateBits_conceal {op : BitOperation} (h : ∀ x ∈ op.exposes, x ∉ H)
    (target : Place) :
    ((s.conceal H).operateBits op target).conceal H = (s.operateBits op target).conceal H := by
  cases op with
  | shift k =>
    -- the only bit operations that replace all flags
    simp only [operateBits, read_conceal]
    rw [Arithmetic.shift_congr fun h' => carry_conceal (h .carry h')]
    rfl
  | test i =>
    simp only [operateBits, read_conceal]
    exact conceal_setFlags (Flags.conceal_ofResult carry_conceal)
  | reset i => simp only [operateBits, read_conceal, write_conceal, conceal_conceal]
  | set i => simp only [operateBits, read_conceal, write_conceal, conceal_conceal]

/-! ### One step -/

section Step

variable {i : Instruction}

theorem holds_conceal {c : Condition} (h : c.flag ∉ H) :
    (s.conceal H).registers.flags.holds c = s.registers.flags.holds c := by
  have h_value := Flags.value_conceal_of_notMem (f := s.registers.flags) h
  -- a condition is its flag or the opposite of it
  cases c with
  | notZero => exact congrArg not h_value
  | notCarry => exact congrArg not h_value
  | _ => exact h_value

theorem permits_conceal {c : Option Condition} (h : ∀ x ∈ (c.map Condition.flag).toList, x ∉ H) :
    (s.conceal H).registers.flags.permits c = s.registers.flags.permits c := by
  cases c with
  | none => rfl
  | some c => exact holds_conceal (h _ (List.mem_singleton_self _))

theorem obstacle_conceal (h : ∀ x ∈ i.tests, x ∉ H) :
    (s.conceal H).obstacle i = s.obstacle i := by
  have h_pushes : i.pushes (s.conceal H).registers.flags = i.pushes s.registers.flags := by
    cases i with
    | call c address => exact permits_conceal h
    | _ => rfl
  have h_pops : i.pops (s.conceal H).registers.flags = i.pops s.registers.flags := by
    cases i with
    | ret c => exact permits_conceal h
    | _ => rfl
  rw [obstacle, h_pushes, h_pops]
  rfl

theorem target_conceal (h : ∀ x ∈ i.tests, x ∉ H) : (s.conceal H).target i = s.target i := by
  cases i with
  | jumpRelative c offset => rw [target, target, permits_conceal (c := c) h]; rfl
  | jump c address => rw [target, target, permits_conceal (c := c) h]
  | call c address => rw [target, target, permits_conceal (c := c) h]
  | ret c => rw [target, target, permits_conceal (c := c) h]; rfl
  | _ => rfl

/-- **An instruction that exposes no concealed flag** does the same without them, but for the
concealed flags themselves. -/
theorem perform_conceal (h : ∀ x ∈ i.exposes, x ∉ H) :
    ((s.conceal H).perform i).conceal H = (s.perform i).conceal H := by
  -- an instruction that leaves the flags alone commutes with concealing them
  have h_commutes {t u : Machine} (h_eq : t = u.conceal H) : t.conceal H = u.conceal H := by
    rw [h_eq, conceal_conceal]
  cases i with
  | halt => exact h_commutes rfl
  | load target source => exact h_commutes (load_conceal target source)
  | storeA l => exact h_commutes (storeA_conceal l)
  | loadA l => exact h_commutes (loadA_conceal l)
  | loadPair p w => exact h_commutes (setPair_conceal p w)
  | storeSp address => exact h_commutes rfl
  | loadSpHl => exact h_commutes rfl
  | loadHlSp offset => rfl
  | push p =>
    cases p with
    | af =>
      -- all flags go to memory, so none of them is concealed
      have h_none : ∀ x, x ∉ H := fun x => h x (by cases x <;> decide)
      have h_self : s.conceal H = s := congrArg s.setFlags (Flags.conceal_of_forall_notMem h_none)
      rw [h_self]
    | _ => exact h_commutes rfl
  | pop p =>
    cases p with
    | af =>
      -- the flags come from memory
      rfl
    | _ => exact h_commutes rfl
  | increment target => exact increment_conceal target
  | decrement target => exact decrement_conceal target
  | incrementPair p =>
    refine h_commutes ?_
    rw [perform, perform, incrementPair, incrementPair, pair_conceal, setPair_conceal]
  | decrementPair p =>
    refine h_commutes ?_
    rw [perform, perform, decrementPair, decrementPair, pair_conceal, setPair_conceal]
  | accumulate op source => exact congrArg (conceal H) (accumulate_conceal h source)
  | addHl p => exact congrArg (conceal H) (addHl_conceal p)
  | addSp offset => rfl
  | decimalAdjust =>
    exact congrArg (conceal H)
      (decimalAdjust_conceal (h .halfCarry (by decide)) (h .carry (by decide)))
  | complement => exact complement_conceal
  | setCarry => exact assignCarry_conceal fun _ => rfl
  | flipCarry => exact assignCarry_conceal fun h_carry => congrArg not (carry_conceal h_carry)
  | rotateA r => exact congrArg (conceal H) (rotateA_conceal h)
  | bits op target => exact operateBits_conceal h target
  | call c address =>
    -- the condition is visible, so both machines call or neither does
    rw [perform, perform, permits_conceal (c := c) h]
    split
    · exact h_commutes rfl
    · exact conceal_conceal
  | ret c =>
    rw [perform, perform, permits_conceal (c := c) h]
    split
    · exact h_commutes rfl
    · exact conceal_conceal
  | retInterrupt => exact h_commutes rfl
  | restart vector => exact h_commutes rfl
  -- the others do not touch the machine
  | _ => exact conceal_conceal

theorem fault?_conceal (h : ∀ x ∈ s.instruction.tests, x ∉ H) :
    (s.conceal H).fault? = s.fault? := by
  change (if s.Fetches then (s.conceal H).obstacle s.instruction else _) = _
  rw [obstacle_conceal h, fault?]

theorem nextPc_conceal (h : ∀ x ∈ s.instruction.tests, x ∉ H) :
    (s.conceal H).nextPc = s.nextPc := by
  change ((s.conceal H).target s.instruction).getD _ = _
  rw [target_conceal h]
  rfl

theorem next_conceal (h : ∀ x ∈ s.instruction.exposes, x ∉ H) :
    (s.conceal H).next.conceal H = s.next.conceal H := by
  have h_pc : (s.conceal H).nextPc = s.nextPc :=
    nextPc_conceal fun x hx => h x (Instruction.tests_subset_exposes hx)
  -- the program counter is no flag, so it can be moved after the flags have been concealed
  change (((s.conceal H).perform s.instruction).conceal H).setPc (s.conceal H).nextPc = _
  rw [perform_conceal h, h_pc]
  rfl

end Step

/-! ### Machines that agree but for hidden flags -/

/-- Two machines agree in everything but the flags of `H`. -/
structure AgreesBut (H : List Flag) (s t : Machine) : Prop where
  pc : s.registers.pc = t.registers.pc
  sp : s.registers.sp = t.registers.sp
  register (x : Register) : s.registers.get x = t.registers.get x
  flag (x : Flag) (visible : x ∉ H) : s.registers.flags.value x = t.registers.flags.value x
  memory : s.memory = t.memory
  halted : s.halted = t.halted

/-- Such machines are alike once the flags are concealed. -/
theorem agreesBut_iff : s.AgreesBut H t ↔ s.conceal H = t.conceal H := by
  constructor
  · intro h
    have h_flags := Flags.conceal_eq_iff.2 h.flag
    obtain ⟨⟨a, b, c, d, e, high, l, f, pc, sp⟩, m, latch⟩ := s
    obtain ⟨⟨a', b', c', d', e', high', l', f', pc', sp'⟩, m', latch'⟩ := t
    obtain rfl : a = a' := h.register .a
    obtain rfl : b = b' := h.register .b
    obtain rfl : c = c' := h.register .c
    obtain rfl : d = d' := h.register .d
    obtain rfl : e = e' := h.register .e
    obtain rfl : high = high' := h.register .h
    obtain rfl : l = l' := h.register .l
    obtain rfl : pc = pc' := h.pc
    obtain rfl : sp = sp' := h.sp
    obtain rfl : m = m' := h.memory
    obtain rfl : latch = latch' := h.halted
    exact congrArg (fun f => (⟨⟨a, b, c, d, e, high, l, f, pc, sp⟩, m, latch⟩ : Machine)) h_flags
  · intro h
    -- concealing flags leaves everything else as it is
    have h_eq {α : Type} (f : Machine → α) : f (s.conceal H) = f (t.conceal H) := congrArg f h
    constructor
    case pc => exact h_eq (·.registers.pc)
    case sp => exact h_eq (·.registers.sp)
    case register => exact fun x => by simpa only [get_conceal] using h_eq (·.registers.get x)
    case flag => exact Flags.conceal_eq_iff.1 (h_eq (·.registers.flags))
    case memory => exact h_eq (·.memory)
    case halted => exact h_eq (·.halted)

theorem AgreesBut.instruction_eq (h : s.AgreesBut H t) : s.instruction = t.instruction := by
  rw [instruction, instruction, h.memory, h.pc]

theorem AgreesBut.fault?_eq (h : s.AgreesBut H t) (h_tests : ∀ x ∈ s.instruction.tests, x ∉ H) :
    s.fault? = t.fault? := by
  have h_tests' : ∀ x ∈ t.instruction.tests, x ∉ H := h.instruction_eq ▸ h_tests
  rw [← fault?_conceal h_tests, ← fault?_conceal h_tests', agreesBut_iff.1 h]

/-- **One step** of two machines that agree but for some flags: where the instruction does not
test them, both give the same answer; where it does not expose them either, if it is carried out
at all, they still agree afterwards. -/
theorem step_alike (h : s.AgreesBut H t) (h_tests : ∀ x ∈ s.instruction.tests, x ∉ H)
    (h_exposes : s.fault? = none → ∀ x ∈ s.instruction.exposes, x ∉ H) :
    answer (step s) = answer (step t) ∧
      (stateAfter (step s)).AgreesBut H (stateAfter (step t)) := by
  have h_conceal := agreesBut_iff.1 h
  have h_fault := h.fault?_eq h_tests
  rw [step_eq, step_eq, ← h_fault]
  cases h_cases : s.fault? with
  | some f =>
    -- both machines stay as they are
    exact ⟨rfl, h⟩
  | none =>
    have h_tests' : ∀ x ∈ t.instruction.tests, x ∉ H := h.instruction_eq ▸ h_tests
    have h_exposes' : ∀ x ∈ t.instruction.exposes, x ∉ H := h.instruction_eq ▸ h_exposes h_cases
    have h_pc : s.nextPc = t.nextPc := by
      rw [← nextPc_conceal h_tests, ← nextPc_conceal h_tests', h_conceal]
    have h_next : s.next.AgreesBut H t.next := by
      rw [agreesBut_iff, ← next_conceal (h_exposes h_cases), ← next_conceal h_exposes', h_conceal]
    exact ⟨congrArg Except.ok h_pc, h_next⟩

/-! ### Runs side by side -/

/-- Two runs are alike for `n` steps but for the flags of `H`: every step gives the same answer
in both, and the machines agree in everything else all along. -/
structure RunsAlike (H : List Flag) (n : Nat) (s t : Machine) : Prop where
  answers : ∀ k < n, answer (step (s.after k)) = answer (step (t.after k))
  machines : ∀ k ≤ n, (s.after k).AgreesBut H (t.after k)

/-- Flags stay hidden in a run as long as no condition tests them and no instruction that is
carried out exposes them. -/
theorem runsAlike {n : Nat} (h : s.AgreesBut H t)
    (h_tests : ∀ i : Instruction, ∀ x ∈ i.tests, x ∉ H)
    (h_exposes : ∀ k < n, ∀ i, (s.after k).Executes i → ∀ x ∈ i.exposes, x ∉ H) :
    RunsAlike H n s t := by
  have h_step (k : Nat) (hk : k < n) (h_k : (s.after k).AgreesBut H (t.after k)) :=
    step_alike h_k (h_tests _) fun h_fault => h_exposes k hk _ (executes_iff.2 ⟨rfl, h_fault⟩)
  -- that the machines agree is what the steps preserve; the answers follow from it
  have h_machines : ∀ k ≤ n, (s.after k).AgreesBut H (t.after k) := by
    intro k
    induction k with
    | zero => exact fun _ => h
    | succ k ih => exact fun hk => (h_step k hk (ih (Nat.le_of_lt hk))).2
  exact ⟨fun k hk => (h_step k hk (h_machines k (Nat.le_of_lt hk))).1, h_machines⟩

end Machine

/-! ### The flags that no condition tests -/

theorem Rotation.exposes_subset {r : Rotation} {x : Flag} (h : x ∈ r.exposes) : x = .carry := by
  cases r with
  | leftThroughCarry => exact List.mem_singleton.1 h
  | rightThroughCarry => exact List.mem_singleton.1 h
  | _ => cases h

namespace Instruction

variable {i : Instruction} {x : Flag}

/-- Conditions are about zero and carry. -/
theorem tests_subset (h : x ∈ i.tests) : x = .zero ∨ x = .carry := by
  obtain ⟨c, -, rfl⟩ : ∃ c, i.condition = some c ∧ c.flag = x := by
    simpa only [tests, Option.mem_toList, Option.map_eq_some_iff] using h
  cases c with
  | notZero => exact .inl rfl
  | zero => exact .inl rfl
  | notCarry => exact .inr rfl
  | carry => exact .inr rfl

/-- Other flags come to light in two ways only. -/
theorem exposes_cases (h : x ∈ i.exposes) :
    i = .push .af ∨ (i = .decimalAdjust ∧ x = .halfCarry) ∨ x = .zero ∨ x = .carry := by
  have h_carry (h' : x = .carry) : i = .push .af ∨ (i = .decimalAdjust ∧ x = .halfCarry) ∨
      x = .zero ∨ x = .carry := .inr (.inr (.inr h'))
  cases i with
  | push p =>
    cases p with
    | af => exact .inl rfl
    | _ => cases h
  | decimalAdjust =>
    obtain rfl | rfl : x = .halfCarry ∨ x = .carry := by simpa [exposes] using h
    · exact .inr (.inl ⟨rfl, rfl⟩)
    · exact h_carry rfl
  | accumulate op source =>
    cases op with
    | addCarry => exact h_carry (List.mem_singleton.1 h)
    | subtractCarry => exact h_carry (List.mem_singleton.1 h)
    | _ => cases h
  | rotateA r => exact h_carry (r.exposes_subset h)
  | bits op target =>
    cases op with
    | shift k =>
      cases k with
      | rotate r => exact h_carry (r.exposes_subset h)
      | _ => cases h
    | _ => cases h
  | _ => exact .inr (.inr (tests_subset h))

end Instruction

namespace Machine

variable {H : List Flag} {s t : Machine}

/-- Where neither zero nor carry is hidden, PUSH AF and DAA are the only instructions to beware
of, and DAA only if the half-carry is hidden. -/
theorem runsAlike_of_untested {n : Nat} (h : s.AgreesBut H t) (h_zero : .zero ∉ H)
    (h_carry : .carry ∉ H) (h_push : ∀ k < n, ¬(s.after k).Executes (.push .af))
    (h_adjust : .halfCarry ∈ H → ∀ k < n, ¬(s.after k).Executes .decimalAdjust) :
    RunsAlike H n s t := by
  refine runsAlike h (fun i x hx => ?_) fun k hk i h_executes x hx => ?_
  · obtain rfl | rfl := Instruction.tests_subset hx
    · exact h_zero
    · exact h_carry
  · obtain rfl | ⟨rfl, rfl⟩ | rfl | rfl := Instruction.exposes_cases hx
    · exact absurd h_executes (h_push k hk)
    · exact fun h_half => h_adjust h_half k hk h_executes
    · exact h_zero
    · exact h_carry

/-- **Hidden flags stay hidden.** Two machines that agree in everything but sign and parity go on
alike as long as the first carries out no PUSH AF. If it carries out no DAA either, they may
differ in the half-carry as well. -/
theorem hidden_flags_stay_hidden (s t : Machine) (n : Nat)
    (h_push : ∀ k < n, ¬(s.after k).Executes (.push .af)) :
    (s.AgreesBut [.sign, .parity] t → RunsAlike [.sign, .parity] n s t) ∧
      (s.AgreesBut [.sign, .parity, .halfCarry] t →
        (∀ k < n, ¬(s.after k).Executes .decimalAdjust) →
        RunsAlike [.sign, .parity, .halfCarry] n s t) := by
  constructor
  · intro h
    exact runsAlike_of_untested h (by decide) (by decide) h_push fun h_half => by
      exact absurd h_half (by decide)
  · intro h h_adjust
    exact runsAlike_of_untested h (by decide) (by decide) h_push fun _ => h_adjust

/-- A machine that counts the accumulator up until it is zero, started with hidden flags set. -/
theorem hidden_flags_stay_hidden_in_loop :
    let s := start (((Memory.zero.set 0 0x3C).set 1 0x20).set 2 0xFD)
    RunsAlike [.sign, .parity] 6 s (s.setFlags ⟨false, true, false, true, false⟩) ∧
      RunsAlike [.sign, .parity, .halfCarry] 6 s (s.setFlags ⟨false, true, true, true, false⟩) := by
  intro s
  have h_push : ∀ k < 6, ¬(s.after k).Executes (.push .af) := by decide
  have h_adjust : ∀ k < 6, ¬(s.after k).Executes .decimalAdjust := by decide
  exact ⟨(hidden_flags_stay_hidden s _ 6 h_push).1 (agreesBut_iff.2 rfl),
    (hidden_flags_stay_hidden s _ 6 h_push).2 (agreesBut_iff.2 rfl) h_adjust⟩

end Machine

end Sm83
