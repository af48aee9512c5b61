import Sm83.Proofs.Execution

/-!
# The footprint of a step

A step reads the bytes of its instruction and touches the bytes that the instruction names: the
byte in HL, a location, or a word on the stack. These are its footprint, `Machine.Footprint`. What
lies elsewhere in memory has no influence on the step, and the step has none on it.

Both halves are said at once by changing a byte: `Machine.poke` puts a byte into memory, and off
the footprint it makes no difference whether that happens before a step or after it
(`step_poke_of_not_footprint`). A stray read would show the new byte to the step, and a stray write
would undo or be undone by the change.

Addresses are compared as numbers here, and do not wrap around. An address below zero or behind
the last byte belongs to no footprint; where an instruction would need such a byte, it fails.
-/

namespace Sm83

/-! ### Two writes -/

namespace Memory

variable {m : Memory} {a x : Word} {v : Byte}

/-- Writes at different addresses can be exchanged. -/
theorem set_comm (h : a ≠ x) (b : Byte) : (m.set x v).set a b = (m.set a b).set x v := by
  ext1 y
  rw [get_set, get_set, get_set, get_set]
  by_cases ha : y = a
  · have hx : y ≠ x := fun hx => h (ha.symm.trans hx)
    rw [if_pos ha, if_neg hx, if_pos ha]
  · rw [if_neg ha, if_neg ha]

theorem setWord_comm (h : a ≠ x) (h' : a + 1 ≠ x) (w : Word) :
    (m.set x v).setWord a w = (m.setWord a w).set x v := by
  rw [setWord, setWord, set_comm h, set_comm h']

theorem getWord_set_of_ne (h : a ≠ x) (h' : a + 1 ≠ x) :
    (m.set x v).getWord a = m.getWord a := by
  rw [getWord, getWord, get_set_of_ne m h, get_set_of_ne m h']

end Memory

namespace Machine

variable {s : Machine} {i : Instruction} {x : Word} {v : Byte}

/-! ### Footprints -/

/-- The byte at `x` is this place. -/
def AtPlace (s : Machine) (p : Place) (x : Word) : Prop := p = .atHl ∧ x = s.registers.hl

/-- The byte at `x` is this source. -/
def AtSource (s : Machine) (source : Source) (x : Word) : Prop :=
  ∃ p, source = .place p ∧ s.AtPlace p x

/-- The byte at `x` is one that an instruction names. Calls and returns name the words of the stack
even if their condition does not hold. -/
def Names (s : Machine) (i : Instruction) (x : Word) : Prop :=
  match i with
  | .load target source => s.AtPlace target x ∨ s.AtSource source x
  | .increment target | .decrement target | .bits _ target => s.AtPlace target x
  | .accumulate _ source => s.AtSource source x
  | .storeA l | .loadA l => x = s.address l
  | .storeSp address => x.toNat = address.toNat ∨ x.toNat = address.toNat + 1
  | .push _ | .call _ _ | .restart _ =>
    x.toNat + 2 = s.registers.sp.toNat ∨ x.toNat + 1 = s.registers.sp.toNat
  | .pop _ | .ret _ | .retInterrupt =>
    x.toNat = s.registers.sp.toNat ∨ x.toNat = s.registers.sp.toNat + 1
  | _ => False

/-- The byte at `x` is one of those that the next instruction takes. -/
def InCode (s : Machine) (x : Word) : Prop :=
  s.registers.pc.toNat ≤ x.toNat ∧
    x.toNat < s.registers.pc.toNat + s.memory.lengthAt s.registers.pc

/-- **The footprint of the next step**: the bytes of its instruction and, once that has been read,
the bytes that it names. -/
def Footprint (s : Machine) (x : Word) : Prop :=
  s.InCode x ∨ ∃ i, s.memory.fetch s.registers.pc = .ok i ∧ s.Names i x

/-- The machine with one byte of memory replaced. -/
def poke (s : Machine) (x : Word) (v : Byte) : Machine := s.setMemory (s.memory.set x v)

/-! ### Reading and writing elsewhere -/

theorem read_poke {p : Place} (h : ¬s.AtPlace p x) : (s.poke x v).read p = s.read p := by
  cases p with
  | register r => rfl
  | atHl => exact s.memory.get_set_of_ne (fun h' => h ⟨rfl, h'.symm⟩) v

theorem operand_poke {source : Source} (h : ¬s.AtSource source x) :
    (s.poke x v).operand source = s.operand source := by
  cases source with
  | place p => exact read_poke fun h' => h ⟨p, rfl, h'⟩
  | immediate n => rfl

theorem write_poke {p : Place} (h : ¬s.AtPlace p x) (b : Byte) :
    (s.poke x v).write p b = (s.write p b).poke x v := by
  cases p with
  | register r => rfl
  | atHl => exact congrArg s.setMemory (Memory.set_comm (fun h' => h ⟨rfl, h'.symm⟩) b)

/-- Flags do not move the place that is written. -/
theorem write_setFlags_poke {p : Place} (h : ¬s.AtPlace p x) (f : Flags) (b : Byte) :
    ((s.poke x v).setFlags f).write p b = ((s.setFlags f).write p b).poke x v :=
  write_poke (s := s.setFlags f) h b

theorem increment_poke {p : Place} (h : ¬s.AtPlace p x) :
    (s.poke x v).increment p = (s.increment p).poke x v := by
  rw [increment, increment, read_poke h]
  exact write_setFlags_poke h _ _

theorem decrement_poke {p : Place} (h : ¬s.AtPlace p x) :
    (s.poke x v).decrement p = (s.decrement p).poke x v := by
  rw [decrement, decrement, read_poke h]
  exact write_setFlags_poke h _ _

theorem operateBits_poke {p : Place} (h : ¬s.AtPlace p x) (op : BitOperation) :
    (s.poke x v).operateBits op p = (s.operateBits op p).poke x v := by
  cases op with
  | shift k =>
    simp only [operateBits, read_poke h]
    exact write_setFlags_poke h _ _
  | test j =>
    -- the byte is read, and only the flags change
    simp only [operateBits, read_poke h]
    rfl
  | reset j => simp only [operateBits, read_poke h, write_poke h]
  | set j => simp only [operateBits, read_poke h, write_poke h]

theorem storeA_poke {l : Location} (h : x ≠ s.address l) :
    (s.poke x v).storeA l = (s.storeA l).poke x v := by
  have h_memory : (s.memory.set x v).set (s.address l) s.registers.a
      = (s.memory.set (s.address l) s.registers.a).set x v := Memory.set_comm h.symm _
  cases l with
  | pointer p => exact congrArg (s.release (.pointer p)).setMemory h_memory
  | _ => exact congrArg s.setMemory h_memory

theorem loadA_poke {l : Location} (h : x ≠ s.address l) :
    (s.poke x v).loadA l = (s.loadA l).poke x v := by
  have h_byte : (s.poke x v).memory.get (s.address l) = s.memory.get (s.address l) :=
    s.memory.get_set_of_ne h.symm v
  change ((s.poke x v).release l).setA ((s.poke x v).memory.get (s.address l)) = _
  rw [h_byte]
  cases l <;> rfl

/-! #### The stack -/

/-- Where there is room for a word below the stack pointer, its bytes are the two below it. -/
theorem pushed_poke (h : x.toNat + 2 ≠ s.registers.sp.toNat)
    (h' : x.toNat + 1 ≠ s.registers.sp.toNat) (h_room : ¬s.registers.sp < 2) (w : Word) :
    (s.poke x v).pushed w = (s.pushed w).poke x v := by
  have h_low : s.registers.sp - 2 ≠ x := by rintro rfl; bv_omega
  have h_high : s.registers.sp - 2 + 1 ≠ x := by rintro rfl; bv_omega
  exact congrArg (fun m => (s.setMemory m).setSp (s.registers.sp - 2))
    (Memory.setWord_comm h_low h_high w)

/-- Where there is a word at the stack pointer, its bytes are the two from there on. -/
theorem top_poke (h : x.toNat ≠ s.registers.sp.toNat) (h' : x.toNat ≠ s.registers.sp.toNat + 1)
    (h_word : s.registers.sp ≠ 0xFFFF) : (s.poke x v).top = s.top := by
  have h_low : s.registers.sp ≠ x := by rintro rfl; exact h rfl
  have h_high : s.registers.sp + 1 ≠ x := by rintro rfl; bv_omega
  exact Memory.getWord_set_of_ne h_low h_high

/-! ### Instructions -/

section Instructions

variable (h : ¬s.Names i x) (h_clear : s.obstacle i = none)

include h h_clear

/-- Where nothing stands in its way, an instruction does the same with a byte replaced that it does
not name. -/
theorem perform_poke : (s.poke x v).perform i = (s.perform i).poke x v := by
  cases i with
  | load target source =>
    obtain ⟨h_target, h_source⟩ := not_or.1 h
    rw [perform, perform, load, load, operand_poke h_source, write_poke h_target]
  | storeA l => exact storeA_poke h
  | loadA l => exact loadA_poke h
  | storeSp address =>
    obtain ⟨h_first, h_second⟩ := not_or.1 h
    -- the address is not the last one, so the second byte follows the first
    have h_ne : address ≠ 0xFFFF := ne_of_storeSp h_clear rfl
    have h_low : address ≠ x := by rintro rfl; exact h_first rfl
    have h_high : address + 1 ≠ x := by rintro rfl; bv_omega
    exact congrArg s.setMemory (Memory.setWord_comm h_low h_high _)
  | push p =>
    obtain ⟨h_low, h_high⟩ := not_or.1 h
    exact pushed_poke h_low h_high (not_lt_of_pushes h_clear rfl) _
  | pop p =>
    obtain ⟨h_low, h_high⟩ := not_or.1 h
    have h_top : (s.poke x v).top = s.top := top_poke h_low h_high (ne_of_pops h_clear rfl)
    change (s.poke x v).popped.setRegisters (s.popped.registers.setStackPair p (s.poke x v).top) = _
    rw [h_top]
    rfl
  | increment target => exact increment_poke h
  | decrement target => exact decrement_poke h
  | accumulate op source =>
    rw [perform, perform, accumulate, accumulate, operand_poke h]
    rfl
  | bits op target => exact operateBits_poke h op
  | call c address =>
    obtain ⟨h_low, h_high⟩ := not_or.1 h
    by_cases h_permits : s.registers.flags.permits c
    · rw [perform, perform, if_pos h_permits,
        if_pos (show (s.poke x v).registers.flags.permits c from h_permits)]
      exact pushed_poke h_low h_high (not_lt_of_pushes h_clear h_permits) _
    · rw [perform, perform, if_neg h_permits,
        if_neg (show ¬(s.poke x v).registers.flags.permits c from h_permits)]
  | restart vector =>
    obtain ⟨h_low, h_high⟩ := not_or.1 h
    exact pushed_poke h_low h_high (not_lt_of_pushes h_clear rfl) _
  | ret c =>
    -- the stack pointer moves, and the word itself goes to the program counter
    by_cases h_permits : s.registers.flags.permits c
    · rw [perform, perform, if_pos h_permits,
        if_pos (show (s.poke x v).registers.flags.permits c from h_permits)]
      rfl
    · rw [perform, perform, if_neg h_permits,
        if_neg (show ¬(s.poke x v).registers.flags.permits c from h_permits)]
  -- the others neither read nor write memory
  | _ => rfl

theorem target_poke : (s.poke x v).target i = s.target i := by
  cases i with
  | ret c =>
    obtain ⟨h_low, h_high⟩ := not_or.1 h
    by_cases h_permits : s.registers.flags.permits c
    · rw [target, target, top_poke h_low h_high (ne_of_pops h_clear h_permits)]
      rfl
    · rw [target, target, if_neg h_permits,
        if_neg (show ¬(s.poke x v).registers.flags.permits c from h_permits)]
  | retInterrupt =>
    obtain ⟨h_low, h_high⟩ := not_or.1 h
    rw [target, target, top_poke h_low h_high (ne_of_pops h_clear rfl)]
  -- targets of jumps and calls are in registers or in the instruction itself
  | _ => rfl

end Instructions

/-! ### Steps -/

theorem fetchedBytes_instruction (s : Machine) :
    s.instruction.fetchedBytes = Instruction.fetchedLength (s.memory.get s.registers.pc) :=
  Instruction.fetchedBytes_decode _ _ _

section Code

variable (h : ¬s.InCode x)

include h

/-- A byte of the instruction that is fetched is not replaced. -/
theorem get_poke_of_fetched {j : Nat} (hj : j < s.instruction.fetchedBytes)
    (h_fetches : s.Fetches) :
    (s.poke x v).memory.get (s.registers.pc + .ofNat 16 j)
      = s.memory.get (s.registers.pc + .ofNat 16 j) := by
  refine s.memory.get_set_of_ne ?_ v
  rintro rfl
  have h_length : s.instruction.length = s.memory.lengthAt s.registers.pc :=
    s.memory.length_instruction _
  have h_le := s.instruction.fetchedBytes_le_length
  have h_toNat : (s.registers.pc + BitVec.ofNat 16 j).toNat = s.registers.pc.toNat + j := by
    rw [Fetches, Memory.size] at h_fetches
    rw [← Word.ofNat_toNat_add, BitVec.toNat_ofNat]
    omega
  exact h ⟨by omega, by omega⟩

theorem instruction_poke (h_fetches : s.Fetches) : (s.poke x v).instruction = s.instruction := by
  refine (Memory.instruction_congr_of_fetched fun j hj => ?_).symm
  have hj' : j < s.instruction.fetchedBytes := by rwa [fetchedBytes_instruction]
  exact (get_poke_of_fetched h hj' h_fetches).symm

theorem fetches_poke : (s.poke x v).Fetches ↔ s.Fetches := by
  -- how many bytes are fetched shows in the code, and that is not replaced
  have h_code : (s.poke x v).memory.get s.registers.pc = s.memory.get s.registers.pc := by
    refine s.memory.get_set_of_ne ?_ v
    rintro rfl
    exact h ⟨Nat.le_refl _, Nat.lt_add_of_pos_right (Instruction.encodedLength_pos _)⟩
  have h_bytes : (s.poke x v).instruction.fetchedBytes = s.instruction.fetchedBytes := by
    rw [fetchedBytes_instruction, fetchedBytes_instruction, ← h_code]
    rfl
  rw [Fetches, Fetches, h_bytes]
  exact Iff.rfl

end Code

section Steps

variable (h : ¬s.Footprint x)

include h

theorem not_names_of_fetches (h_fetches : s.Fetches) : ¬s.Names s.instruction x := by
  have h_fetch : s.memory.fetch s.registers.pc = .ok s.instruction := by
    rw [Memory.fetch_eq]
    exact if_pos h_fetches
  exact fun h_names => h (.inr ⟨_, h_fetch, h_names⟩)

theorem fault?_poke : (s.poke x v).fault? = s.fault? := by
  have h_code : ¬s.InCode x := fun h' => h (.inl h')
  by_cases h_fetches : s.Fetches
  · -- what stands in the way of an instruction shows in the registers
    rw [fault?, fault?, if_pos h_fetches, if_pos ((fetches_poke h_code).2 h_fetches),
      instruction_poke h_code h_fetches]
    rfl
  · rw [fault?, fault?, if_neg h_fetches, if_neg (mt (fetches_poke h_code).1 h_fetches)]

variable (h_fault : s.fault? = none)

include h_fault

theorem nextPc_poke : (s.poke x v).nextPc = s.nextPc := by
  obtain ⟨h_fetches, h_clear⟩ := fault?_eq_none_iff.1 h_fault
  rw [nextPc, nextPc, instruction_poke (fun h' => h (.inl h')) h_fetches,
    target_poke (not_names_of_fetches h h_fetches) h_clear]
  rfl

theorem next_poke : (s.poke x v).next = s.next.poke x v := by
  obtain ⟨h_fetches, h_clear⟩ := fault?_eq_none_iff.1 h_fault
  rw [next, next, nextPc_poke h h_fault, instruction_poke (fun h' => h (.inl h')) h_fetches,
    perform_poke (not_names_of_fetches h h_fetches) h_clear]
  rfl

end Steps

/-- **A step keeps to its footprint.** Off the footprint it makes no difference whether a byte of
memory is replaced before a step or after it: the step gives the same answer, and leaves the same
machine. -/
theorem step_poke_of_not_footprint (s : Machine) (x : Word) (v : Byte) (h : ¬s.Footprint x) :
    answer (step (s.poke x v)) = answer (step s) ∧
      stateAfter (step (s.poke x v)) = (stateAfter (step s)).poke x v := by
  rw [step_eq, step_eq, fault?_poke h]
  cases h_fault : s.fault? with
  | some f => exact ⟨rfl, rfl⟩
  | none => exact ⟨congrArg Except.ok (nextPc_poke h h_fault), next_poke h h_fault⟩

/-- A push from the last address, with room for exactly one word, leaves the byte above that word
alone. A store that is cut off by the end of memory does not find its address at the start. -/
theorem step_poke_of_not_footprint_at_edges :
    let s : Machine :=
      ⟨{ Registers.zero with b := 0x12, c := 0x34, pc := 0xFFFF, sp := 2 },
        Memory.zero.set 0xFFFF 0xC5, false⟩
    let cut : Machine := ⟨{ Registers.zero with pc := 0xFFFE }, Memory.zero.set 0xFFFE 0x08, false⟩
    (stateAfter (step (s.poke 2 0xAB)) = (stateAfter (step s)).poke 2 0xAB ∧
        (stateAfter (step s)).memory.getWord 0 = 0x1234) ∧
      answer (step (cut.poke 0 0xFF)) = .error (.outOfRange 0x10000) := by
  intro s cut
  have h_push : ¬s.Footprint 2 := by
    rintro (h_code | ⟨i, h_fetch, h_names⟩)
    · exact absurd h_code.1 (by decide)
    · rw [Memory.fetch_eq, if_pos (by decide)] at h_fetch
      obtain rfl := Except.ok.inj h_fetch
      rw [show s.memory.instruction s.registers.pc = .push .bc by decide] at h_names
      exact absurd h_names (show ¬(2 + 2 = 2 ∨ 2 + 1 = 2) by decide)
  have h_cut : ¬cut.Footprint 0 := by
    rintro (h_code | ⟨i, h_fetch, -⟩)
    · exact absurd h_code.1 (by decide)
    · rw [Memory.fetch_eq, if_neg (by decide)] at h_fetch
      cases h_fetch
  have h_fails : step cut = .error (.outOfRange 0x10000) cut :=
    step_eq_error_iff.2 ⟨by decide, rfl⟩
  refine ⟨⟨(step_poke_of_not_footprint s 2 0xAB h_push).2, by decide⟩, ?_⟩
  rw [(step_poke_of_not_footprint cut 0 0xFF h_cut).1, h_fails]
  rfl

end Machine

end Sm83
