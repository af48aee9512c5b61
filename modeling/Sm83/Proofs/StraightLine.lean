import Sm83.Proofs.Encoding
import Sm83.Proofs.Failure
import Sm83.Proofs.Listing

/-!
# Steps and listings

The processor and a listing both go through code by the lengths of its instructions, but each reads
memory for itself. This file compares them.

For a single step, `step_agrees_with_assembly` says that the processor moves on by the length that
a listing would unless it jumps, and that it fails where there is nothing to list. STOP at the last
address is the exception, since the processor does without its padding.

For several steps, `StraightLine` describes a run from one instruction to the next, over code that
it leaves alone. `listing_eq_of_straightLine` says that a listing made beforehand shows exactly the
instructions of such a run. The invariant is that the walk through memory as it was at the
beginning comes upon every program counter of the run (`StraightLine.walk_eq`).
-/

namespace Sm83.Machine

variable {s : Machine} {i : Instruction} {f : Fault}

/-! ### The next instruction as it is listed -/

theorem length_instruction (s : Machine) :
    s.instruction.length = s.memory.lengthAt s.registers.pc :=
  s.memory.length_instruction _

/-- The address behind the next instruction. -/
def behind (s : Machine) : Word := s.registers.pc + .ofNat 16 s.instruction.length

theorem toNat_behind (s : Machine) :
    s.behind.toNat = (s.registers.pc.toNat + s.memory.lengthAt s.registers.pc) % 0x10000 := by
  rw [behind, length_instruction, BitVec.toNat_add, BitVec.toNat_ofNat, Nat.add_mod_mod]

theorem instruction_eq_stop_iff :
    s.instruction = .stop ↔ s.memory.get s.registers.pc = 0x10 :=
  Instruction.decode_eq_stop_iff

theorem assemblyAt_of_fits (h : s.Fits) :
    s.memory.assemblyAt s.registers.pc = .ok (s.instruction.text s.registers.pc) := by
  rw [Fits, length_instruction] at h
  rw [Memory.assemblyAt_eq]
  exact if_pos h

theorem assemblyAt_eq_error_iff :
    s.memory.assemblyAt s.registers.pc = .error f ↔ ¬s.Fits ∧ f = .outOfRange 0x10000 := by
  by_cases h : s.Fits
  · rw [assemblyAt_of_fits h]
    exact iff_of_false nofun fun h' => h'.1 h
  · rw [Memory.assemblyAt_eq, if_neg (by rwa [Fits, length_instruction] at h), Except.error.injEq]
    exact ⟨fun h' => ⟨h, h'.symm⟩, fun h' => h'.2.symm⟩

/-! ### One step -/

/-- Without a jump the next instruction follows. -/
theorem target_eq_none (h : i.isBranch = false ∨ s.registers.flags.permits i.condition = false) :
    s.target i = none := by
  cases i with
  | jumpRelative c _ | jump c _ | call c _ | ret c =>
    exact if_neg (Bool.eq_false_iff.1 (h.resolve_left nofun))
  -- these jump without a condition
  | jumpHl | retInterrupt | restart _ => exact absurd h (by rintro (h | h) <;> cases h)
  | _ => rfl

/-- **A written instruction is carried out**, and the next one follows, if it fits into memory,
nothing stands in its way and it does not jump. -/
theorem step_of_encodes (written : s.memory.Encodes s.registers.pc i) (encodable : i.Encodable)
    (fits : s.registers.pc.toNat + i.length ≤ 0x10000) (clear : s.obstacle i = none)
    (straight : i.isBranch = false) :
    step s = .ok (s.registers.pc + .ofNat 16 i.length)
      ((s.perform i).setPc (s.registers.pc + .ofNat 16 i.length)) := by
  obtain rfl : s.instruction = i := Memory.instruction_of_encodes written encodable
  have noFault : s.fault? = none := fault?_eq_none_iff.2 ⟨fetches_iff.2 (.inr fits), clear⟩
  have nextPc : s.nextPc = s.behind := by
    rw [nextPc, target_eq_none (.inl straight), Option.getD_none, behind]
  refine step_eq_ok_iff.2 ⟨noFault, nextPc.symm, ?_⟩
  rw [next, nextPc, behind]

/-- STOP at the last address is carried out, and the padding it lacks is stepped over. -/
theorem step_of_stop_at_end (h_pc : s.registers.pc = 0xFFFF) (h_stop : s.instruction = .stop) :
    ∃ t, step s = .ok 1 t ∧ t.registers.pc = 1 := by
  have h_fault : s.fault? = none := by
    rw [fault?, if_pos (fetches_iff.2 (.inl h_stop)), h_stop]
    exact obstacle_eq_none (by rintro ⟨⟩) rfl rfl
  have h_next : s.nextPc = 1 := by
    rw [nextPc, h_stop, h_pc]
    rfl
  exact ⟨s.next, step_eq_ok_iff.2 ⟨h_fault, h_next.symm, rfl⟩, h_next⟩

/-- **A step agrees with the listing of its instruction.** Unless it jumps, it moves on by the
length that is listed, whatever it does to the bytes of the instruction. Where there is nothing to
list it fails, and with the same fault; only STOP at the last address is carried out unlisted. -/
theorem step_agrees_with_assembly (s : Machine) :
    (∀ pc t, step s = .ok pc t →
      s.instruction.isBranch = false ∨
        s.registers.flags.permits s.instruction.condition = false →
      t.registers.pc = pc ∧
        pc.toNat = (s.registers.pc.toNat + s.memory.lengthAt s.registers.pc) % 0x10000) ∧
    (∀ f, s.memory.assemblyAt s.registers.pc = .error f →
      ¬(s.registers.pc = 0xFFFF ∧ s.memory.get s.registers.pc = 0x10) → step s = .error f s) ∧
    (s.registers.pc = 0xFFFF ∧ s.memory.get s.registers.pc = 0x10 →
      (∃ f, s.memory.assemblyAt s.registers.pc = .error f) ∧
        ∃ t, step s = .ok 1 t ∧ t.registers.pc = 1) := by
  refine ⟨fun pc t h_step h_none => ?_, fun f h_error h_not => ?_, fun ⟨h_pc, h_code⟩ => ?_⟩
  · obtain ⟨-, rfl, rfl⟩ := step_eq_ok_iff.1 h_step
    refine ⟨rfl, ?_⟩
    rw [nextPc, target_eq_none h_none, Option.getD_none, length_instruction, BitVec.toNat_add,
      BitVec.toNat_ofNat, Nat.add_mod_mod]
  · obtain ⟨h_fits, rfl⟩ := assemblyAt_eq_error_iff.1 h_error
    have h_stop : s.instruction ≠ .stop := by
      intro h_stop
      -- STOP takes two bytes, so it is cut off at one address only
      rw [Fits, h_stop] at h_fits
      refine h_not ⟨BitVec.eq_of_toNat_eq ?_, instruction_eq_stop_iff.1 h_stop⟩
      have h_lt := s.registers.pc.isLt
      change ¬s.registers.pc.toNat + 2 ≤ 0x10000 at h_fits
      change s.registers.pc.toNat = 0xFFFF
      omega
    exact step_eq_error_iff.2 ⟨fails_iff.1 (.missingBytes h_stop h_fits), rfl⟩
  · have h_stop := instruction_eq_stop_iff.2 h_code
    refine ⟨⟨_, assemblyAt_eq_error_iff.2 ⟨?_, rfl⟩⟩, step_of_stop_at_end h_pc h_stop⟩
    rw [Fits, h_stop, h_pc]
    decide

/-- `LD (HL), 0x00` may put NOP in its own place. It is one byte longer, and the processor moves on
by what was there. An operand is missed at the last address, the padding of STOP is not. -/
theorem step_agrees_with_assembly_at_edges :
    let s : Machine := ⟨Registers.zero, Memory.zero.set 0 0x36, false⟩
    let cut : Machine := ⟨{ Registers.zero with pc := 0xFFFF }, Memory.zero.set 0xFFFF 0x3E, false⟩
    let idle : Machine := ⟨{ Registers.zero with pc := 0xFFFF }, Memory.zero.set 0xFFFF 0x10, false⟩
    (∃ t, step s = .ok 2 t ∧ t.registers.pc = 2 ∧ t.memory.lengthAt 0 = 1) ∧
      step cut = .error (.outOfRange 0x10000) cut ∧ ∃ t, step idle = .ok 1 t := by
  intro s cut idle
  have h_step : step s = .ok 2 s.next := step_eq_ok_iff.2 ⟨by decide, by decide, rfl⟩
  have h_pc := ((step_agrees_with_assembly s).1 2 s.next h_step (.inl (by decide))).1
  have h_cut := (step_agrees_with_assembly cut).2.1 (.outOfRange 0x10000)
    (assemblyAt_eq_error_iff.2 ⟨by unfold Fits; decide, rfl⟩) (by decide)
  obtain ⟨-, t, h_idle, -⟩ := (step_agrees_with_assembly idle).2.2 (by decide)
  exact ⟨⟨s.next, h_step, h_pc, by decide⟩, h_cut, t, h_idle⟩

/-! ### Several steps -/

/-- **A straight line.** `n` steps that succeed and lead from one instruction to the next. Memory
ends no earlier than the last of them, and no step changes a byte of an instruction of the run. -/
structure StraightLine (s : Machine) (n : Nat) : Prop where
  succeeds : ∀ k < n, (answer (step (s.after k))).isOk
  follows : ∀ k < n, (s.after (k + 1)).registers.pc
    = (s.after k).registers.pc + .ofNat 16 (s.after k).instruction.length
  fits : ∀ k < n, (s.after k).Fits
  goesOn : ∀ k < n - 1,
    (s.after k).registers.pc.toNat + (s.after k).instruction.length < 0x10000
  keeps : ∀ j < n, ∀ k < n, ∀ i < (s.after k).instruction.length,
    (s.after (j + 1)).memory.get ((s.after k).registers.pc + .ofNat 16 i)
      = (s.after j).memory.get ((s.after k).registers.pc + .ofNat 16 i)

namespace StraightLine

variable {n : Nat}

/-- The instructions of a run are there from the beginning. -/
theorem get_eq (h : StraightLine s n) {j k : Nat} (hj : j ≤ n) (hk : k < n) {i : Nat}
    (hi : i < (s.after k).instruction.length) :
    (s.after j).memory.get ((s.after k).registers.pc + .ofNat 16 i)
      = s.memory.get ((s.after k).registers.pc + .ofNat 16 i) := by
  induction j with
  | zero => rfl
  | succ j ih => rw [h.keeps j hj k hk i hi, ih (Nat.le_of_succ_le hj)]

theorem instruction_eq (h : StraightLine s n) {k : Nat} (hk : k < n) :
    s.memory.instruction (s.after k).registers.pc = (s.after k).instruction := by
  refine (Memory.instruction_congr fun i hi => ?_).symm
  rw [← length_instruction] at hi
  exact h.get_eq (Nat.le_of_lt hk) hk hi

/-- In memory as it was, too, the next instruction begins where the step leads. -/
theorem behind_eq (h : StraightLine s n) {k : Nat} (hk : k < n) :
    s.memory.behind (s.after k).registers.pc.toNat
      = (s.after k).registers.pc.toNat + (s.after k).instruction.length := by
  rw [Memory.behind, BitVec.ofNat_toNat, BitVec.setWidth_eq, ← Memory.length_instruction,
    h.instruction_eq hk]

/-- The walk through memory as it was comes upon every program counter of the run. -/
theorem walk_eq (h : StraightLine s n) {k : Nat} (hk : k < n) :
    s.memory.walk s.registers.pc.toNat k = (s.after k).registers.pc.toNat := by
  induction k with
  | zero => rfl
  | succ k ih =>
    have hk' := Nat.lt_of_succ_lt hk
    have h_lt := h.goesOn k (Nat.lt_sub_of_add_lt hk)
    calc s.memory.walk s.registers.pc.toNat (k + 1)
        = s.memory.behind (s.memory.walk s.registers.pc.toNat k) := s.memory.walk_succ' _ k
      _ = s.memory.behind (s.after k).registers.pc.toNat := by rw [ih hk']
      _ = (s.after k).registers.pc.toNat + (s.after k).instruction.length := h.behind_eq hk'
      _ = ((s.after k).registers.pc + .ofNat 16 (s.after k).instruction.length).toNat := by
        rw [BitVec.toNat_add, BitVec.toNat_ofNat, Nat.add_mod_mod, Nat.mod_eq_of_lt h_lt]
      _ = (s.after (k + 1)).registers.pc.toNat := by rw [h.follows k hk']

/-- The instructions of a run lie in memory as a whole. -/
theorem le_fitting (h : StraightLine s n) : n ≤ s.memory.fitting s.registers.pc.toNat := by
  cases n with
  | zero => exact Nat.zero_le _
  | succ n =>
    rw [Nat.succ_le_iff, Memory.lt_fitting_iff, Memory.walk_succ', h.walk_eq (Nat.lt_succ_self n),
      h.behind_eq (Nat.lt_succ_self n)]
    exact h.fits n (Nat.lt_succ_self n)

/-- So there are not more of them than there are bytes in memory. -/
theorem le_size (h : StraightLine s n) : n ≤ Memory.size := by
  have fitting_le : s.memory.fitting s.registers.pc.toNat ≤ Memory.size :=
    Nat.sub_le_of_le_add (Memory.count_le _ _ _)
  exact Nat.le_trans h.le_fitting fitting_le

/-- What is listed from the program counter on, one line for each instruction of the run. -/
theorem linesFrom_eq (h : StraightLine s n) :
    s.memory.linesFrom s.registers.pc.toNat n
      = (List.range n).map fun k => ⟨(s.after k).registers.pc, (s.after k).instruction⟩ := by
  rw [Memory.linesFrom_eq, Nat.min_eq_left h.le_fitting]
  refine List.map_congr_left fun k hk => ?_
  have hk := List.mem_range.1 hk
  rw [Memory.line, h.walk_eq hk, BitVec.ofNat_toNat, BitVec.setWidth_eq, h.instruction_eq hk]

end StraightLine

/-- **A straight line follows the listing.** What is listed beforehand from the program counter on
are the instructions of the run, one line for each step. Every line has the address from which its
step is taken and the text that its instruction has then. There is always room for so many lines. -/
theorem listing_eq_of_straightLine (s : Machine) (n : Nat) (room : Room) (h : s.StraightLine n) :
    ∃ lines, s.memory.listing room s.registers.pc n = some lines ∧
      lines.length = n ∧
      lines.map (fun l => (l.address, Except.ok l.text))
        = (List.range n).map fun k => ((s.after k).registers.pc,
            (s.after k).memory.assemblyAt (s.after k).registers.pc) := by
  refine ⟨_, Memory.listing_of_le (Nat.le_trans h.le_size room.enough), ?_⟩
  rw [h.linesFrom_eq]
  refine ⟨by rw [List.length_map, List.length_range], ?_⟩
  rw [List.map_map]
  refine List.map_congr_left fun k hk => ?_
  rw [assemblyAt_of_fits (h.fits k (List.mem_range.1 hk))]
  rfl

/-- Two instructions at the very end of memory, the second of which writes elsewhere. -/
theorem listing_eq_of_straightLine_at_end :
    let s : Machine := ⟨{ Registers.zero with pc := 0xFFFB },
      ((((Memory.zero.set 0xFFFB 0x3E).set 0xFFFC 0x2A).set 0xFFFD 0xEA).set 0xFFFF 0xC0), false⟩
    s.StraightLine 2 ∧
      ∃ lines, s.memory.listing .ofProcess 0xFFFB 2 = some lines ∧
        lines.map (fun l => (l.address, Except.ok l.text))
          = [((0xFFFB : Word), (.ok "LD A, 0x2A" : Except Fault String)),
             (0xFFFD, .ok "LD (0xC000), A")] := by
  intro s
  have h : s.StraightLine 2 :=
    ⟨by decide, by decide, by unfold Fits; decide, by decide, by decide⟩
  obtain ⟨lines, listed, -, shown⟩ := listing_eq_of_straightLine s 2 .ofProcess h
  exact ⟨h, lines, listed, shown.trans (by decide)⟩

end Sm83.Machine
