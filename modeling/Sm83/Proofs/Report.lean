import Mathlib.Data.List.Basic
import Sm83.Command.Outcome
import Sm83.Proofs.Assembly
import Sm83.Proofs.Listing

/-!
# The report of a run

What a run prints is put together from lines, each of which is ended by a line break. This file
takes the printed text apart again, at its line breaks (`pieces`), and finds the lines in it. That
works because no line holds a line break of its own, whatever the registers and the instructions are
(`unbroken_headLines`, `unbroken_rowLine`).

So the report is known line by line. `headLines` spells out the registers, the flags and the status,
and `rowLine` an instruction of the window. `pieces_report` says that these are the lines of the
report, and `filter_isMarked_report` that the line at the program counter, if there is one, is the
only one that is marked.
-/

namespace Sm83

/-! ### Lines without line breaks -/

/-- The text holds no line break. -/
def Unbroken (s : String) : Prop := '\n' ∉ s.toList

instance : DecidablePred Unbroken := fun _ => instDecidableNot

theorem Unbroken.append {s t : String} (hs : Unbroken s) (ht : Unbroken t) : Unbroken (s ++ t) := by
  intro h
  rw [String.toList_append, List.mem_append] at h
  exact h.elim hs ht

theorem Tight.unbroken {s : String} (h : Tight s) : Unbroken s := fun h_mem => (h _ h_mem).2.2 rfl

theorem Hex.unbroken_byte (b : Byte) : Unbroken (Hex.byte b) := (tight_digits 2 _).unbroken

theorem Hex.unbroken_word (w : Word) : Unbroken (Hex.word w) := (tight_digits 4 _).unbroken

/-- A decimal numeral consists of digits. -/
theorem lineBreak_notMem_toDigits (n : Nat) : '\n' ∉ Nat.toDigits 10 n := by
  intro h
  have h_digit : '\n'.isDigit = true := Nat.isDigit_of_mem_toDigits (by decide) (by decide) h
  exact absurd h_digit (by decide)

/-- What is in none of the lists, and not in the one that parts them, is not in all of them
together. -/
theorem notMem_intercalate {α : Type} {x : α} {sep : List α} {ls : List (List α)} (h_sep : x ∉ sep)
    (h : ∀ l ∈ ls, x ∉ l) : x ∉ sep.intercalate ls := by
  induction ls with
  | nil => exact List.not_mem_nil
  | cons l ls ih =>
    obtain ⟨hl, h⟩ := List.forall_mem_cons.1 h
    cases ls with
    | nil => rwa [List.intercalate_singleton]
    | cons l' ls =>
      rw [List.intercalate_cons_cons, List.mem_append, List.mem_append]
      exact not_or.2 ⟨not_or.2 ⟨hl, h_sep⟩, ih h⟩

theorem Statement.unbroken_text {s : Statement} (h : s.Tight) : Unbroken s.text := by
  have h_operands : ∀ o ∈ s.operands.map fun o => ' ' :: o.toList, '\n' ∉ o := by
    intro o ho
    obtain ⟨o', ho', rfl⟩ := List.mem_map.1 ho
    have h_tight := List.forall_iff_forall_mem.1 h.operands o' ho'
    exact List.not_mem_cons_of_ne_of_not_mem (by decide) h_tight.unbroken
  rw [Unbroken, toList_text, List.mem_append]
  exact not_or.2 ⟨h.mnemonic.unbroken, notMem_intercalate (by decide) h_operands⟩

theorem Line.unbroken_text (l : Line) : Unbroken l.text :=
  Statement.unbroken_text (Instruction.tight_statement l.address l.instruction)

namespace Command

/-! ### Taking a text apart -/

/-- The pieces of a text between its line breaks. Where a line break ends the text, the last piece
is empty. -/
def pieces (text : String) : List String := (text.toList.splitOn '\n').map String.ofList

theorem printed_cons (l : String) (ls : List String) :
    printed (l :: ls) = l ++ "\n" ++ printed ls := by
  rw [printed, List.map_cons, String.join_cons]
  rfl

/-- **Lines are read back.** The pieces of a printed text are its lines. -/
theorem pieces_printed {ls : List String} (h : ∀ l ∈ ls, Unbroken l) :
    pieces (printed ls) = ls ++ [""] := by
  induction ls with
  | nil => rfl
  | cons l ls ih =>
    obtain ⟨hl, h⟩ := List.forall_mem_cons.1 h
    have h_text : (printed (l :: ls)).toList = l.toList ++ '\n' :: (printed ls).toList := by
      rw [printed_cons, String.toList_append, String.toList_append, List.append_assoc]
      rfl
    have h_pieces := ih h
    rw [pieces] at h_pieces ⊢
    rw [h_text, List.splitOn_append_cons_self_of_not_mem hl, List.map_cons, h_pieces,
      String.ofList_toList]
    rfl

/-- A text that is printed as one line may hold several, parted by line breaks. -/
theorem printed_intercalate (l : String) (ls rest : List String) :
    printed (String.intercalate "\n" (l :: ls) :: rest) = printed (l :: ls ++ rest) := by
  induction ls generalizing l with
  | nil => rfl
  | cons l' ls ih =>
    have h_rest := ih l'
    rw [printed_cons] at h_rest
    rw [printed_cons, String.intercalate_cons_cons, List.cons_append, printed_cons, ← h_rest]
    simp only [String.append_assoc]

/-! ### The lines of a report -/

/-- Registers and flags in four lines. -/
def registerLines (r : Registers) : List String :=
  let bit (f : Bool) : String := if f then "1" else "0"
  ["A  = 0x" ++ Hex.byte r.a ++ "   B  = 0x" ++ Hex.byte r.b ++ "   C  = 0x" ++ Hex.byte r.c ++
      "   D  = 0x" ++ Hex.byte r.d,
    "E  = 0x" ++ Hex.byte r.e ++ "   H  = 0x" ++ Hex.byte r.h ++ "   L  = 0x" ++ Hex.byte r.l ++
      "   PC = 0x" ++ Hex.word r.pc,
    "SP = 0x" ++ Hex.word r.sp,
    "Z = " ++ bit r.flags.zero ++ "   S = " ++ bit r.flags.sign ++
      "   P = " ++ bit r.flags.parity ++ "   H = " ++ bit r.flags.halfCarry ++
      "   C = " ++ bit r.flags.carry]

/-- The lines ahead of the window: registers and flags, the status, and a rule. -/
def headLines (s : Session) : List String :=
  registerLines s.machine.registers ++
    ["HALT: " ++ (if s.machine.halted then "yes" else "no") ++ "   steps: " ++ toString s.steps,
      "----------------------------------------"]

/-- The line of the window for an instruction, if the program counter is `pc`. -/
def rowLine (pc : Word) (l : Line) : String :=
  (if l.address = pc then ">>" else "  ") ++ " " ++ Hex.word l.address ++ "  " ++ l.text

theorem dump_eq (r : Registers) : r.dump = String.intercalate "\n" (registerLines r) := by
  rw [Registers.dump]
  refine congrArg (String.intercalate "\n") ?_
  simp only [registerLines, Registers.showByte, Registers.showWord, Registers.showFlag,
    String.intercalate_cons_cons, String.intercalate_singleton, List.cons.injEq, and_true]
  -- the names of the registers stand in one piece here and in two there
  refine ⟨?_, ?_, ?_, ?_⟩ <;> apply String.toList_injective <;> simp [String.toList_append]

theorem printed_statusLines (s : Session) (ls : List String) :
    printed (statusLines s ++ ls) = printed (headLines s ++ ls) := by
  change printed (s.machine.registers.dump :: ([statusLine s, _] ++ ls)) = _
  rw [dump_eq, registerLines, printed_intercalate]
  rfl

theorem windowLine_eq (pc : Word) (l : Line) : windowLine pc l = rowLine pc l := by
  simp only [windowLine, rowLine, Line.listed, String.append_assoc]

theorem unbroken_headLines (s : Session) : ∀ l ∈ headLines s, Unbroken l := by
  have h_byte (b : Byte) : '\n' ∉ (Hex.byte b).toList := Hex.unbroken_byte b
  have h_word (w : Word) : '\n' ∉ (Hex.word w).toList := Hex.unbroken_word w
  have h_bit (f : Bool) : '\n' ∉ (if f then "1" else "0" : String).toList := by
    cases f <;> decide
  have h_halted : '\n' ∉ (if s.machine.halted then "yes" else "no" : String).toList := by
    cases s.machine.halted <;> decide
  simp [headLines, registerLines, Unbroken, String.toList_append, h_byte, h_word, h_bit, h_halted,
    lineBreak_notMem_toDigits]

theorem unbroken_rowLine (pc : Word) (l : Line) : Unbroken (rowLine pc l) := by
  have h_mark : Unbroken (if l.address = pc then ">>" else "  ") := by split <;> decide
  exact (((h_mark.append (by decide)).append (Hex.unbroken_word _)).append (by decide)).append
    l.unbroken_text

/-- **A report is read back line by line.** Its pieces are the lines ahead of the window, those of
the window, and what is left behind the last line break. -/
theorem pieces_report (s : Session) (pc : Word) (window : List Line) :
    pieces (printed (statusLines s ++ window.map (windowLine pc)))
      = headLines s ++ window.map (rowLine pc) ++ [""] := by
  have h_rows : window.map (windowLine pc) = window.map (rowLine pc) :=
    List.map_congr_left fun l _ => windowLine_eq pc l
  rw [printed_statusLines, h_rows]
  refine pieces_printed fun l hl => ?_
  rcases List.mem_append.1 hl with h_head | h_row
  · exact unbroken_headLines s l h_head
  · obtain ⟨l', -, rfl⟩ := List.mem_map.1 h_row
    exact unbroken_rowLine pc l'

/-! ### The mark -/

/-- A line begins with the mark of the program counter. -/
def IsMarked (line : String) : Prop := line.toList.take 2 = ['>', '>']

instance (line : String) : Decidable (IsMarked line) := instDecidableEqList _ _

theorem filter_isMarked_headLines (s : Session) : (headLines s).filter IsMarked = [] := by
  have h_none : ∀ l ∈ headLines s, ¬IsMarked l := by
    simp [headLines, registerLines, IsMarked, String.toList_append]
  exact List.filter_eq_nil_iff.2 fun l hl h => h_none l hl (of_decide_eq_true h)

theorem isMarked_rowLine {pc : Word} {l : Line} : IsMarked (rowLine pc l) ↔ l.address = pc := by
  simp only [IsMarked, rowLine, String.toList_append]
  split
  · next h => exact iff_of_true rfl h
  · next h => exact iff_of_false nofun h

/-- **At most one line of a report is marked.** It is the one at the program counter, if the
instruction there lies in memory. -/
theorem filter_isMarked_report (s : Session) (m : Memory) (pc : Word) (before after : Nat) :
    (headLines s ++ (m.linesAround pc before after).map (rowLine pc) ++ [""]).filter IsMarked =
      if pc.toNat + m.lengthAt pc ≤ Memory.size then
        [">> " ++ Hex.word pc ++ "  " ++ (m.instruction pc).text pc]
      else [] := by
  have h_marked : (fun l => decide (IsMarked l)) ∘ rowLine pc = fun l => decide (l.address = pc) :=
    funext fun l => decide_eq_decide.2 isMarked_rowLine
  have h_end : [""].filter IsMarked = [] := by decide
  have h_mark : ">>" ++ " " = ">> " := by decide
  rw [List.filter_append, List.filter_append, filter_isMarked_headLines, h_end, List.nil_append,
    List.append_nil, List.filter_map, h_marked, Memory.filter_address_linesAround]
  split
  · rw [List.map_singleton, rowLine, if_pos rfl, h_mark]
    rfl
  · rfl

end Command

end Sm83
