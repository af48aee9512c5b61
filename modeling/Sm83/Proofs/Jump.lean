import Sm83.Proofs.Address
import Sm83.Proofs.StraightLine

/-!
# Jumps as they are written

The line of assembly language for a jump shows where it goes: a mnemonic, perhaps the name of a
condition, and an address. What the processor does is compared here with what a reader takes from
the line, and with nothing else. A name is understood by `Flags.Meets`, which lists the four names
and what each asks of the flags, and an address by its digits (`Hex.ReadsAs`).

For each of the four kinds of jump there is one word that is both written and jumped to
(`exists_address_of_jump`), and the condition of the instruction is the one that its name asks for
(`Flags.meets_iff`). The offset of a relative jump is not on the line, so
`jump_goes_where_written` covers jumps around either end of memory without a case of their own.
-/

namespace Sm83

/-! ### Reading a line -/

/-- What the name of a condition asks of the flags. Where no name is given, nothing is asked. -/
def Flags.Meets (f : Flags) (name : Option String) : Prop :=
  name = none ∨
    name = some "NZ" ∧ f.zero = false ∨ name = some "Z" ∧ f.zero = true ∨
    name = some "NC" ∧ f.carry = false ∨ name = some "C" ∧ f.carry = true

/-- The text is the number `n` in hexadecimal: the marker `0x` and at least one digit. -/
def Hex.ReadsAs (text : String) (n : Nat) : Prop :=
  ∃ digits, digits ≠ [] ∧ Numeral.Denotes 16 digits n ∧ text = "0x" ++ String.ofList digits

/-- The line with a mnemonic, the name of a condition if there is one, and an address. -/
def jumpLine (mnemonic : String) (name : Option String) (address : String) : String :=
  match name with
  | none => mnemonic ++ " " ++ address
  | some c => mnemonic ++ " " ++ c ++ ", " ++ address

/-- The mnemonic of a jump whose line shows its target. -/
def Instruction.jumpMnemonic? : Instruction → Option String
  | jumpRelative _ _ => some "JR"
  | jump _ _ => some "JP"
  | call _ _ => some "CALL"
  | restart _ => some "RST"
  | _ => none

/-! #### Names -/

theorem Flags.meets_iff (f : Flags) (c : Option Condition) :
    f.Meets (c.map Condition.name) ↔ f.permits c = true := by
  cases c with
  | none => exact iff_of_true (.inl rfl) rfl
  | some c => cases c <;> simp [Meets, Condition.name, permits, holds]

/-! #### Addresses -/

/-- The digits that are printed have the value of the number, cut to their width. -/
theorem Hex.denotes_digits (k : Hex.Case) (width n : Nat) :
    Numeral.Denotes 16 (Hex.digits k width n) (n % 16 ^ width) := by
  induction width generalizing n with
  | zero => exact ⟨[], .nil, by rw [Nat.pow_zero, Nat.mod_one]; rfl⟩
  | succ w ih =>
    obtain ⟨ds, digits, value⟩ := ih (n / 16)
    have last : Numeral.IsDigit 16 (Hex.digit k (n % 16)) (n % 16) :=
      ⟨Nat.mod_lt n (by decide), k, rfl⟩
    refine ⟨ds ++ [n % 16], List.rel_append digits (.cons last .nil), ?_⟩
    calc Nat.ofDigits 16 (ds ++ [n % 16]).reverse
        = n % 16 + 16 * Nat.ofDigits 16 ds.reverse := by
          rw [List.reverse_append, List.reverse_singleton, List.singleton_append, Nat.ofDigits_cons]
      _ = n % 16 + 16 * (n / 16 % 16 ^ w) := by rw [value]
      _ = n % 16 ^ (w + 1) := by rw [Nat.pow_succ', Nat.mod_mul]

theorem Hex.readsAs_digits {width n : Nat} (pos : 0 < width) (lt : n < 16 ^ width) :
    Hex.ReadsAs ("0x" ++ String.ofList (Hex.digits .upper width n)) n := by
  refine ⟨_, List.ne_nil_of_length_pos (by rwa [Hex.length_digits]), ?_, rfl⟩
  simpa only [Nat.mod_eq_of_lt lt] using Hex.denotes_digits .upper width n

theorem Word.readsAs_literal (w : Word) : Hex.ReadsAs w.literal w.toNat :=
  Hex.readsAs_digits (by decide) w.isLt

theorem Byte.readsAs_literal (b : Byte) : Hex.ReadsAs b.literal b.toNat :=
  Hex.readsAs_digits (by decide) b.isLt

theorem text_conditional (mnemonic : String) (c : Option Condition) (address : String) :
    (conditional mnemonic c [address]).text
      = jumpLine mnemonic (c.map Condition.name) address := by
  cases c <;> rfl

namespace Machine

/-! ### One word, written and jumped to -/

variable {s : Machine} {i : Instruction}

theorem exists_address_of_jump {m : String} (jumps : i.jumpMnemonic? = some m) :
    ∃ (a : Word) (text : String), Hex.ReadsAs text a.toNat ∧
      i.text s.registers.pc = jumpLine m (i.condition.map Condition.name) text ∧
      s.target i = if s.registers.flags.permits i.condition then some a else none := by
  cases i with
  | jumpRelative c _ | jump c _ | call c _ =>
    obtain rfl := Option.some.inj jumps
    exact ⟨_, _, Word.readsAs_literal _, text_conditional .., rfl⟩
  | restart vector =>
    obtain rfl := Option.some.inj jumps
    -- the vector is written as a byte and jumped to as a word
    have wide : (Word.ofBytes 0 (restartTarget vector)).toNat = (restartTarget vector).toNat := by
      rw [Word.toNat_ofBytes]
      exact Nat.zero_add _
    refine ⟨.ofBytes 0 (restartTarget vector), (restartTarget vector).literal, ?_, rfl, rfl⟩
    rw [wide]
    exact Byte.readsAs_literal _
  | _ => cases jumps

/-- **A jump goes where its line says.** Where a jump succeeds, its line has the mnemonic, the name
of its condition if it has one, and an address. If the flags meet what that name asks, the program
counter is that address afterwards, and if they do not, the jump has been stepped over. -/
theorem jump_goes_where_written (s t : Machine) (pc : Word) (m : String)
    (jumps : s.instruction.jumpMnemonic? = some m) (h : step s = .ok pc t) :
    ∃ address n, Hex.ReadsAs address n ∧
      s.memory.assemblyAt s.registers.pc
        = .ok (jumpLine m (s.instruction.condition.map Condition.name) address) ∧
      t.registers.pc = pc ∧
      (s.registers.flags.Meets (s.instruction.condition.map Condition.name) → pc.toNat = n) ∧
      (¬s.registers.flags.Meets (s.instruction.condition.map Condition.name) →
        pc.toNat = (s.registers.pc.toNat + s.memory.lengthAt s.registers.pc) % 0x10000) := by
  obtain ⟨noFault, rfl, rfl⟩ := step_eq_ok_iff.1 h
  obtain ⟨a, address, reads, line, target⟩ := exists_address_of_jump (s := s) jumps
  have fits : s.Fits := by
    refine (fetches_iff.1 (fault?_eq_none_iff.1 noFault).1).resolve_left fun stop => ?_
    rw [stop] at jumps
    cases jumps
  refine ⟨address, a.toNat, reads, ?_, rfl, fun met => ?_, fun unmet => ?_⟩
  · rw [assemblyAt_of_fits fits, line]
  · rw [Flags.meets_iff] at met
    rw [nextPc, target, if_pos met, Option.getD_some]
  · rw [Flags.meets_iff] at unmet
    rw [nextPc, target, if_neg unmet, Option.getD_none]
    exact toNat_behind s

/-- `JR NZ` at the start of memory reaches back over it. `CALL C` in the last three bytes is stepped
over, to the start again, where the carry is clear. -/
theorem jump_goes_where_written_around_memory :
    let s : Machine := ⟨Registers.zero, (Memory.zero.set 0 0x20).set 1 0x80, false⟩
    let s' : Machine :=
      ⟨{ Registers.zero with pc := 0xFFFD }, Memory.zero.set 0xFFFD 0xDC, false⟩
    (step s = .ok 0xFF82 s.next ∧ ∃ address, Hex.ReadsAs address 0xFF82 ∧
        s.memory.assemblyAt 0 = .ok (jumpLine "JR" (some "NZ") address)) ∧
      step s' = .ok 0 s'.next ∧ s'.next.registers.pc.toNat = (0xFFFD + 3) % 0x10000 ∧
        ∃ address, s'.memory.assemblyAt 0xFFFD = .ok (jumpLine "CALL" (some "C") address) := by
  intro s s'
  have back : step s = .ok 0xFF82 s.next := step_eq_ok_iff.2 ⟨by decide, by decide, rfl⟩
  have stepped : step s' = .ok 0 s'.next := step_eq_ok_iff.2 ⟨by decide, by decide, rfl⟩
  have named : s.instruction.condition.map Condition.name = some "NZ" := by decide
  have named' : s'.instruction.condition.map Condition.name = some "C" := by decide
  obtain ⟨address, n, reads, line, -, taken, -⟩ :=
    jump_goes_where_written s _ _ "JR" (by decide) back
  obtain ⟨address', n', -, line', moved, -, passed⟩ :=
    jump_goes_where_written s' _ _ "CALL" (by decide) stepped
  rw [named] at line taken
  rw [named'] at line' passed
  obtain rfl : 0xFF82 = n := taken (.inr (.inl ⟨rfl, by decide⟩))
  have unmet : ¬s'.registers.flags.Meets (some "C") := by
    show ¬Flags.clear.Meets (some "C")
    simp [Flags.Meets, Flags.clear]
  have three : s'.memory.lengthAt s'.registers.pc = 3 := by decide
  refine ⟨⟨back, address, reads, line⟩, stepped, ?_, address', line'⟩
  rw [moved, passed unmet, three]
  rfl

end Machine

end Sm83
