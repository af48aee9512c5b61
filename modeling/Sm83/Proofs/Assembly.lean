import Mathlib.Algebra.Group.Nat.Defs
import Mathlib.Data.List.Basic
import Sm83.Proofs.Encoding
import Sm83.Text.Numeral

/-!
# Reading assembly language

A line of assembly language determines its instruction, once it is known where the instruction
lies. This file reads the line back, in two layers that undo the two layers of writing it.

* `Statement.ofText` takes a line apart. No mnemonic and no operand holds a blank or a comma
  (`tight_statement`), so the blanks and commas of a line are those that part its operands.
* `Statement.instruction?` takes a statement for an instruction. It tells the statements apart by
  the number of their operands first, then by mnemonic, then by the shape of an operand.

Both are left inverses (`Statement.ofText_text`, `Instruction.instruction?_statement`), and so the
line is an injective function of the instruction. Nothing is said of lines that no instruction has.
-/

namespace Sm83

/-! ### Numbers -/

/-- The number that some hexadecimal digits show. -/
def Hex.value (cs : List Char) : Nat :=
  cs.foldl (fun n c => 16 * n + (Numeral.digit? 16 c).getD 0) 0

theorem Hex.value_concat {d : Nat} (hd : d < 16) (cs : List Char) :
    Hex.value (cs ++ [Hex.digit .upper d]) = 16 * Hex.value cs + d := by
  have h_digit : ∀ d < 16, (Numeral.digit? 16 (Hex.digit .upper d)).getD 0 = d := by decide
  rw [Hex.value, List.foldl_append, List.foldl_cons, List.foldl_nil, h_digit d hd]
  rfl

theorem Hex.value_digits (width n : Nat) :
    Hex.value (Hex.digits .upper width n) = n % 16 ^ width := by
  induction width generalizing n with
  | zero => rw [Nat.pow_zero, Nat.mod_one]; rfl
  | succ w ih =>
    calc Hex.value (Hex.digits .upper (w + 1) n)
        = 16 * Hex.value (Hex.digits .upper w (n / 16)) + n % 16 :=
          Hex.value_concat (Nat.mod_lt n (by decide)) _
      _ = n % 16 + 16 * (n / 16 % 16 ^ w) := by rw [ih, Nat.add_comm]
      _ = n % 16 ^ (w + 1) := by rw [Nat.pow_succ', Nat.mod_mul]

/-- The number that a text shows behind the marker `0x`, if it has the given number of digits. -/
def literal? (width : Nat) (s : String) : Option Nat :=
  match s.toList with
  | '0' :: 'x' :: cs => if cs.length = width then some (Hex.value cs) else none
  | _ => none

theorem toList_marked (cs : List Char) : ("0x" ++ String.ofList cs).toList = '0' :: 'x' :: cs := by
  rw [String.toList_append, String.toList_ofList (l := cs)]
  rfl

theorem literal?_marked (width w n : Nat) :
    literal? width ("0x" ++ String.ofList (Hex.digits .upper w n)) =
      if w = width then some (n % 16 ^ w) else none := by
  rw [literal?, toList_marked]
  change (if (Hex.digits .upper w n).length = width then some (Hex.value _) else none) = _
  rw [Hex.length_digits, Hex.value_digits]

/-- The byte with the written form `s`. -/
def Byte.ofLiteral? (s : String) : Option Byte := (literal? 2 s).map (.ofNat 8)

/-- The word with the written form `s`. -/
def Word.ofLiteral? (s : String) : Option Word := (literal? 4 s).map (.ofNat 16)

theorem Byte.ofLiteral?_literal (b : Byte) : ofLiteral? b.literal = some b := by
  have h_lt : b.toNat < 16 ^ 2 := b.isLt
  rw [ofLiteral?, literal, Hex.byte, literal?_marked, if_pos rfl, Nat.mod_eq_of_lt h_lt,
    Option.map_some, BitVec.ofNat_toNat, BitVec.setWidth_eq]

theorem Word.ofLiteral?_literal (w : Word) : ofLiteral? w.literal = some w := by
  have h_lt : w.toNat < 16 ^ 4 := w.isLt
  rw [ofLiteral?, literal, Hex.word, literal?_marked, if_pos rfl, Nat.mod_eq_of_lt h_lt,
    Option.map_some, BitVec.ofNat_toNat, BitVec.setWidth_eq]

/-- A byte has too few digits for a word. -/
theorem Word.ofLiteral?_byte (b : Byte) : ofLiteral? b.literal = none := by
  rw [ofLiteral?, Byte.literal, Hex.byte, literal?_marked, if_neg (by decide), Option.map_none]

/-! ### Names

Whatever has a name has a digit in some code, so one search reads all names. -/

/-- The value with the name `s`, among those that an octal digit can stand for. -/
def named? {α : Type} (ofDigit : Fin 8 → α) (name : α → String) (s : String) : Option α :=
  ((List.finRange 8).map ofDigit).find? fun a => name a == s

theorem Place.named?_name (p : Place) : named? ofDigit name p.name = some p := by
  cases p with
  | register r => cases r <;> rfl
  | atHl => rfl

theorem Pair.named?_name (p : Pair) : named? ofRow name p.name = some p := by
  cases p <;> rfl

theorem StackPair.named?_name (p : StackPair) : named? ofRow name p.name = some p := by
  cases p <;> rfl

theorem Condition.named?_name (c : Condition) : named? ofRow name c.name = some c := by
  cases c <;> rfl

theorem named?_bit (i : Fin 8) :
    named? id (fun i : Fin 8 => toString i.val) (toString i.val) = some i := by
  revert i; decide

/-! ### Operands -/

/-- The text in parentheses. -/
def inside? (s : String) : Option String :=
  match s.toList with
  | '(' :: cs => some (.ofList cs.dropLast)
  | _ => none

theorem inside?_parenthesized (s : String) : inside? (parenthesized s) = some s := by
  have h : (parenthesized s).toList = '(' :: (s.toList ++ [')']) := by
    rw [parenthesized, String.toList_append, String.toList_append]
    rfl
  rw [inside?, h]
  change some (String.ofList (s.toList ++ [')']).dropLast) = _
  rw [List.dropLast_concat, String.ofList_toList]

/-- Numbers have no parentheses. -/
theorem inside?_marked (cs : List Char) : inside? ("0x" ++ String.ofList cs) = none := by
  rw [inside?, toList_marked]
  rfl

/-- The source with the written form `s`. -/
def Source.ofName? (s : String) : Option Source :=
  (Byte.ofLiteral? s).map .immediate <|> (named? Place.ofDigit Place.name s).map .place

theorem Source.ofName?_name (s : Source) : ofName? s.name = some s := by
  cases s with
  | place p =>
    cases p with
    | register r => cases r <;> rfl
    | atHl => rfl
  | immediate n => rw [ofName?, name, Byte.ofLiteral?_literal]; rfl

/-- The location with the written form `s`. -/
def Location.ofName? (s : String) : Option Location :=
  (inside? s).bind fun o =>
    match Word.ofLiteral? o, Byte.ofLiteral? o with
    | some a, _ => some (.absolute a)
    | none, some n => some (.lastPage n)
    | none, none => if o = "C" then some .lastPageC
      else (named? Pointer.ofRow Pointer.name o).map .pointer

theorem Location.ofName?_name (l : Location) : ofName? l.name = some l := by
  unfold ofName? name
  cases l with
  | pointer p => cases p <;> rfl
  | absolute a =>
    simp only [inside?_parenthesized, Option.bind_some, Word.ofLiteral?_literal]
  | lastPage n =>
    simp only [inside?_parenthesized, Option.bind_some, Word.ofLiteral?_byte,
      Byte.ofLiteral?_literal]
  | lastPageC => rfl

/-- A source that is no location: HL as a pointer always moves. -/
theorem Location.ofName?_source (s : Source) : ofName? s.name = none := by
  cases s with
  | place p =>
    cases p with
    | register r => cases r <;> rfl
    | atHl => rfl
  | immediate n =>
    rw [ofName?, Source.name, Byte.literal, Hex.byte, inside?_marked, Option.bind_none]

theorem Location.ofName?_word (w : Word) : ofName? w.literal = none := by
  rw [ofName?, Word.literal, Hex.word, inside?_marked, Option.bind_none]

/-! ### Statements -/

namespace Statement

open Instruction

/-- The instruction that is written without operands. -/
def plain? (mnemonic : String) : Option Instruction :=
  match mnemonic with
  | "NOP" => some nop
  | "STOP" => some stop
  | "HALT" => some halt
  | "DI" => some disableInterrupts
  | "EI" => some enableInterrupts
  | "DAA" => some decimalAdjust
  | "CPL" => some complement
  | "SCF" => some setCarry
  | "CCF" => some flipCarry
  | "RLCA" => some (rotateA .left)
  | "RRCA" => some (rotateA .right)
  | "RLA" => some (rotateA .leftThroughCarry)
  | "RRA" => some (rotateA .rightThroughCarry)
  | "RET" => some (ret none)
  | "RETI" => some retInterrupt
  | _ => none

/-- The offset of a relative jump that is shown by its target. -/
def offset (pc target : Word) : Byte := (target - (pc + 2)).low

/-- The instruction that is written with one operand. -/
def unary? (pc : Word) (mnemonic operand : String) : Option Instruction :=
  match mnemonic with
  | "DB" => (Byte.ofLiteral? operand).map undefined
  | "PUSH" => (named? StackPair.ofRow StackPair.name operand).map push
  | "POP" => (named? StackPair.ofRow StackPair.name operand).map pop
  | "INC" => (named? Place.ofDigit Place.name operand).map increment <|>
      (named? Pair.ofRow Pair.name operand).map incrementPair
  | "DEC" => (named? Place.ofDigit Place.name operand).map decrement <|>
      (named? Pair.ofRow Pair.name operand).map decrementPair
  | "RET" => (named? Condition.ofRow Condition.name operand).map fun c => ret (some c)
  | "RST" => (Byte.ofLiteral? operand).map fun n => restart n.row
  | "JR" => (Word.ofLiteral? operand).map fun t => jumpRelative none (offset pc t)
  | "CALL" => (Word.ofLiteral? operand).map (call none)
  | "JP" => (Word.ofLiteral? operand).map (jump none) <|> some jumpHl
  | _ => match named? Shift.ofRow Shift.mnemonic mnemonic with
    | some s => (named? Place.ofDigit Place.name operand).map (bits (.shift s))
    | none => (named? Accumulation.ofRow Accumulation.mnemonic mnemonic).bind fun op =>
      (Source.ofName? operand).map (accumulate op)

/-- The instruction that is written with `LD` or `LDH`. -/
def load? (target source : String) : Option Instruction :=
  match Location.ofName? target, Location.ofName? source with
  | some (.absolute a), _ => if source = "SP" then some (storeSp a) else some (storeA (.absolute a))
  | some l, _ => some (storeA l)
  | none, some l => some (loadA l)
  | none, none => match named? Pair.ofRow Pair.name target with
    | some p => (Word.ofLiteral? source).map (loadPair p) <|>
      (Byte.ofLiteral? (.ofList (source.toList.drop 3))).map loadHlSp <|> some loadSpHl
    | none => (named? Place.ofDigit Place.name target).bind fun t =>
      (Source.ofName? source).map (load t)

/-- An operation on the bits of a place, with the number of the bit. -/
def bit? (op : Fin 8 → BitOperation) (number target : String) : Option Instruction :=
  (named? id (fun i : Fin 8 => toString i.val) number).bind fun i =>
    (named? Place.ofDigit Place.name target).map (bits (op i))

/-- A jump on a condition. -/
def jump? (go : Condition → Word → Instruction) (condition target : String) :
    Option Instruction :=
  (named? Condition.ofRow Condition.name condition).bind fun c =>
    (Word.ofLiteral? target).map (go c)

/-- The instruction that is written with two operands. -/
def binary? (pc : Word) (mnemonic o₁ o₂ : String) : Option Instruction :=
  match mnemonic with
  | "LD" | "LDH" => load? o₁ o₂
  | "BIT" => bit? .test o₁ o₂
  | "RES" => bit? .reset o₁ o₂
  | "SET" => bit? .set o₁ o₂
  | "JR" => jump? (fun c t => jumpRelative (some c) (offset pc t)) o₁ o₂
  | "JP" => jump? (fun c => jump (some c)) o₁ o₂
  | "CALL" => jump? (fun c => call (some c)) o₁ o₂
  | _ => match o₁ with
    | "HL" => (named? Pair.ofRow Pair.name o₂).map addHl
    | "SP" => (Byte.ofLiteral? o₂).map addSp
    | _ => (named? Accumulation.ofRow Accumulation.mnemonic mnemonic).bind fun op =>
      (Source.ofName? o₂).map (accumulate op)

/-- The instruction at `pc` that a statement stands for. -/
def instruction? (pc : Word) (s : Statement) : Option Instruction :=
  match s.operands with
  | [] => plain? s.mnemonic
  | [o] => unary? pc s.mnemonic o
  | [o₁, o₂] => binary? pc s.mnemonic o₁ o₂
  | _ => none

end Statement

namespace Instruction

theorem offset_relativeTarget (pc : Word) (offset : Byte) :
    Statement.offset pc (relativeTarget pc offset) = offset := by
  have h_low : ∀ n : Byte, n.signed.low = n := by decide
  rw [Statement.offset, relativeTarget, BitVec.add_comm, BitVec.add_sub_cancel, h_low]

theorem row_restartTarget (v : Fin 8) : (restartTarget v).row = v := by
  revert v; decide

/-! The forms of `LD`, apart by whether an operand is a location, then by whether the target is a
pair. -/

theorem load?_load (t : Place) (s : Source) :
    Statement.load? t.name s.name = some (load t s) := by
  have h_target : Location.ofName? t.name = none := Location.ofName?_source (.place t)
  have h_pair : named? Pair.ofRow Pair.name t.name = none := by
    cases t with
    | register r => cases r <;> rfl
    | atHl => rfl
  simp only [Statement.load?, h_target, h_pair, Location.ofName?_source, Place.named?_name,
    Source.ofName?_name, Option.bind_some, Option.map_some]

theorem load?_storeA (l : Location) : Statement.load? l.name "A" = some (storeA l) := by
  rw [Statement.load?, l.ofName?_name]
  cases l <;> rfl

theorem load?_loadA (l : Location) : Statement.load? "A" l.name = some (loadA l) := by
  rw [Statement.load?, l.ofName?_name]
  rfl

theorem load?_storeSp (nn : Word) :
    Statement.load? (parenthesized nn.literal) "SP" = some (storeSp nn) := by
  have h_target : Location.ofName? (parenthesized nn.literal) = some (.absolute nn) :=
    Location.ofName?_name (.absolute nn)
  rw [Statement.load?, h_target]
  rfl

theorem load?_loadPair (p : Pair) (nn : Word) :
    Statement.load? p.name nn.literal = some (loadPair p nn) := by
  have h_target : Location.ofName? p.name = none := by cases p <;> rfl
  simp only [Statement.load?, h_target, Location.ofName?_word, Pair.named?_name,
    Word.ofLiteral?_literal]
  rfl

theorem load?_loadHlSp (n : Byte) :
    Statement.load? "HL" ("SP+" ++ n.literal) = some (loadHlSp n) := by
  have h_chars : ("SP+" ++ n.literal).toList = 'S' :: 'P' :: '+' :: n.literal.toList := by
    rw [String.toList_append]
    rfl
  have h_location : Location.ofName? ("SP+" ++ n.literal) = none := by
    rw [Location.ofName?, inside?, h_chars]
    rfl
  have h_word : Word.ofLiteral? ("SP+" ++ n.literal) = none := by
    rw [Word.ofLiteral?, literal?, h_chars]
    rfl
  have h_offset : String.ofList (("SP+" ++ n.literal).toList.drop 3) = n.literal := by
    rw [h_chars]
    exact String.ofList_toList
  rw [Statement.load?, h_location, h_word, h_offset, Byte.ofLiteral?_literal]
  rfl

theorem jump?_name (go : Condition → Word → Instruction) (c : Condition) (nn : Word) :
    Statement.jump? go c.name nn.literal = some (go c nn) := by
  rw [Statement.jump?, c.named?_name, Word.ofLiteral?_literal]
  rfl

theorem bit?_name (op : Fin 8 → BitOperation) (i : Fin 8) (t : Place) :
    Statement.bit? op (toString i.val) t.name = some (bits (op i) t) := by
  rw [Statement.bit?, named?_bit, t.named?_name]
  rfl

theorem instruction?_statement (pc : Word) (i : Instruction) :
    (i.statement pc).instruction? pc = some i := by
  cases i with
  -- the statements without a value in them are closed terms
  | nop | stop | halt | disableInterrupts | enableInterrupts | loadSpHl | decimalAdjust
  | complement | setCarry | flipCarry | jumpHl | retInterrupt => rfl
  | incrementPair p => cases p <;> rfl
  | decrementPair p => cases p <;> rfl
  | rotateA r => cases r <;> rfl
  -- transfers
  | load t s => exact load?_load t s
  | storeA l =>
    have h := load?_storeA l
    cases l <;> exact h
  | loadA l =>
    have h := load?_loadA l
    cases l <;> exact h
  | loadPair p nn => exact load?_loadPair p nn
  | storeSp nn => exact load?_storeSp nn
  | loadHlSp n => exact load?_loadHlSp n
  -- one operand that varies
  | undefined c => exact congrArg (Option.map undefined) (Byte.ofLiteral?_literal c)
  | push p => exact congrArg (Option.map push) p.named?_name
  | pop p => exact congrArg (Option.map pop) p.named?_name
  | increment t => exact congrArg (fun t' => t'.map increment <|> _) t.named?_name
  | decrement t => exact congrArg (fun t' => t'.map decrement <|> _) t.named?_name
  | accumulate op s =>
    cases op <;> exact congrArg (Option.map (accumulate _)) s.ofName?_name
  | addHl p => exact congrArg (Option.map addHl) p.named?_name
  | addSp n => exact congrArg (Option.map addSp) (Byte.ofLiteral?_literal n)
  | restart v =>
    have h := congrArg (Option.map fun n => restart n.row) (restartTarget v).ofLiteral?_literal
    rwa [Option.map_some, row_restartTarget] at h
  | bits op t =>
    cases op with
    | shift s =>
      cases s with
      | rotate r => cases r <;> exact congrArg (Option.map (bits _)) t.named?_name
      | _ => exact congrArg (Option.map (bits _)) t.named?_name
    | test i => exact bit?_name .test i t
    | reset i => exact bit?_name .reset i t
    | set i => exact bit?_name .set i t
  -- jumps, each with and without a condition
  | jumpRelative c n =>
    have h_offset := offset_relativeTarget pc n
    cases c with
    | none =>
      have h := congrArg (Option.map fun t => jumpRelative none (Statement.offset pc t))
        (relativeTarget pc n).ofLiteral?_literal
      rwa [Option.map_some, h_offset] at h
    | some c =>
      have h := jump?_name (fun c t => jumpRelative (some c) (Statement.offset pc t)) c
        (relativeTarget pc n)
      rwa [h_offset] at h
  | jump c nn =>
    cases c with
    | none =>
      change ((Word.ofLiteral? nn.literal).map (jump none) <|> some jumpHl) = some (jump none nn)
      rw [Word.ofLiteral?_literal]
      rfl
    | some c => exact jump?_name (fun c => jump (some c)) c nn
  | call c nn =>
    cases c with
    | none => exact congrArg (Option.map (call none)) nn.ofLiteral?_literal
    | some c => exact jump?_name (fun c => call (some c)) c nn
  | ret c =>
    cases c with
    | none => rfl
    | some c => exact congrArg (Option.map fun c => ret (some c)) c.named?_name

end Instruction

/-! ### Lines -/

/-- The text holds neither a blank nor a comma, and no line break. -/
def Tight (s : String) : Prop := ∀ c ∈ s.toList, c ≠ ' ' ∧ c ≠ ',' ∧ c ≠ '\n'

instance : DecidablePred Tight := fun s => List.decidableBAll _ s.toList

theorem Tight.append {s t : String} (hs : Tight s) (ht : Tight t) : Tight (s ++ t) := by
  intro c hc
  rw [String.toList_append, List.mem_append] at hc
  exact hc.elim (hs c) (ht c)

theorem Tight.parenthesized {s : String} (hs : Tight s) : Tight (parenthesized s) :=
  .append (.append (by decide) hs) (by decide)

theorem tight_digits (width n : Nat) : Tight (.ofList (Hex.digits .upper width n)) := by
  have h_digit : ∀ d < 16, Hex.digit .upper d ≠ ' ' ∧ Hex.digit .upper d ≠ ',' ∧
      Hex.digit .upper d ≠ '\n' := by decide
  unfold Tight
  rw [String.toList_ofList]
  induction width generalizing n with
  | zero => exact fun c hc => absurd hc List.not_mem_nil
  | succ w ih =>
    intro c hc
    rw [Hex.digits_succ, List.mem_append, List.mem_singleton] at hc
    rcases hc with hc | rfl
    · exact ih (n / 16) c hc
    · exact h_digit _ (Nat.mod_lt n (by decide))

theorem Byte.tight_literal (b : Byte) : Tight b.literal :=
  .append (by decide) (tight_digits 2 _)

theorem Word.tight_literal (w : Word) : Tight w.literal :=
  .append (by decide) (tight_digits 4 _)

theorem Register.tight_name (r : Register) : Tight r.name := by
  cases r <;> decide

theorem Place.tight_name (p : Place) : Tight p.name := by
  cases p with
  | register r => exact r.tight_name
  | atHl => decide

theorem Source.tight_name (s : Source) : Tight s.name := by
  cases s with
  | place p => exact p.tight_name
  | immediate n => exact n.tight_literal

theorem Pair.tight_name (p : Pair) : Tight p.name := by
  cases p <;> decide

theorem StackPair.tight_name (p : StackPair) : Tight p.name := by
  cases p <;> decide

theorem Condition.tight_name (c : Condition) : Tight c.name := by
  cases c <;> decide

theorem Location.tight_name (l : Location) : Tight l.name := by
  cases l with
  | pointer p => cases p <;> decide
  | absolute a => exact a.tight_literal.parenthesized
  | lastPage n => exact n.tight_literal.parenthesized
  | lastPageC => decide

theorem Location.tight_mnemonic (l : Location) : Tight l.mnemonic := by
  unfold mnemonic
  split <;> decide

theorem Accumulation.tight_mnemonic (op : Accumulation) : Tight op.mnemonic := by
  cases op <;> decide

theorem Rotation.tight_mnemonic (r : Rotation) : Tight r.mnemonic := by
  cases r <;> decide

theorem Shift.tight_mnemonic (s : Shift) : Tight s.mnemonic := by
  cases s with
  | rotate r => exact r.tight_mnemonic
  | _ => decide

/-- Blanks and commas stand only between the parts of the statement. -/
structure Statement.Tight (s : Statement) : Prop where
  mnemonic : Sm83.Tight s.mnemonic
  operands : s.operands.Forall Sm83.Tight

theorem BitOperation.tight_statement (op : BitOperation) (t : Place) : (op.statement t).Tight := by
  have h_bit : ∀ i : Fin 8, Tight (toString i.val) := by decide
  cases op with
  | shift s => exact ⟨s.tight_mnemonic, t.tight_name⟩
  | test i | reset i | set i =>
    refine ⟨?_, h_bit i, t.tight_name⟩
    dsimp only [statement]
    decide

/-- A condition is one more operand. -/
theorem tight_conditional {o : String} (h : Tight o) (m : String) (c : Option Condition) :
    (conditional m c [o]).operands.Forall Tight := by
  cases c with
  | none => exact h
  | some c => exact ⟨c.tight_name, h⟩

namespace Instruction

theorem tight_mnemonic (pc : Word) (i : Instruction) : Tight (i.statement pc).mnemonic := by
  cases i with
  | storeA l | loadA l => exact l.tight_mnemonic
  | accumulate op _ => exact op.tight_mnemonic
  | rotateA r => exact r.tight_mnemonic.append (by decide)
  | bits op t => exact (op.tight_statement t).mnemonic
  -- the others have one word each, whatever their operands
  | _ =>
    dsimp only [statement, conditional]
    decide

theorem tight_operands (pc : Word) (i : Instruction) : (i.statement pc).operands.Forall Tight := by
  cases i with
  | undefined c => exact c.tight_literal
  | load t s => exact ⟨t.tight_name, s.tight_name⟩
  | storeA l => exact ⟨l.tight_name, Register.a.tight_name⟩
  | loadA l => exact ⟨Register.a.tight_name, l.tight_name⟩
  | loadPair p nn => exact ⟨p.tight_name, nn.tight_literal⟩
  | storeSp nn => exact ⟨nn.tight_literal.parenthesized, Pair.sp.tight_name⟩
  | loadSpHl => exact ⟨Pair.sp.tight_name, Pair.hl.tight_name⟩
  | loadHlSp n =>
    exact ⟨Pair.hl.tight_name, .append (Pair.sp.tight_name.append (by decide)) n.tight_literal⟩
  | push p | pop p | incrementPair p | decrementPair p => exact p.tight_name
  | increment t | decrement t => exact t.tight_name
  | accumulate op s =>
    cases op with
    | add | addCarry | subtractCarry => exact ⟨Register.a.tight_name, s.tight_name⟩
    | _ => exact s.tight_name
  | addHl p => exact ⟨Pair.hl.tight_name, p.tight_name⟩
  | addSp n => exact ⟨Pair.sp.tight_name, n.tight_literal⟩
  | bits op t => exact (op.tight_statement t).operands
  | jumpRelative c n => exact tight_conditional (Word.tight_literal _) "JR" c
  | jump c nn => exact tight_conditional nn.tight_literal "JP" c
  | jumpHl => exact Pair.hl.tight_name.parenthesized
  | call c nn => exact tight_conditional nn.tight_literal "CALL" c
  | ret c =>
    cases c with
    | none => trivial
    | some c => exact c.tight_name
  | restart v => exact (restartTarget v).tight_literal
  | _ => trivial

theorem tight_statement (pc : Word) (i : Instruction) : (i.statement pc).Tight :=
  ⟨tight_mnemonic pc i, tight_operands pc i⟩

end Instruction

/-! ### Taking a line apart -/

theorem intercalate_append_cons {α : Type} (sep a b : List α) (ls : List (List α)) :
    sep.intercalate ((a ++ b) :: ls) = a ++ sep.intercalate (b :: ls) := by
  cases ls with
  | nil => rw [List.intercalate_singleton, List.intercalate_singleton]
  | cons l ls => simp only [List.intercalate_cons_cons, List.append_assoc]

namespace Statement

/-- In a line every operand has a blank in front, and commas part the operands. -/
theorem toList_text (s : Statement) :
    s.text.toList =
      s.mnemonic.toList ++ [','].intercalate (s.operands.map fun o => ' ' :: o.toList) := by
  have h_fold (os : List String) (line : String) :
      (os.foldl (fun line o => line ++ ", " ++ o) line).toList =
        [','].intercalate (line.toList :: os.map fun o => ' ' :: o.toList) := by
    induction os generalizing line with
    | nil => rw [List.foldl_nil, List.map_nil, List.intercalate_singleton]
    | cons o os ih =>
      rw [List.foldl_cons, ih, String.toList_append, String.toList_append, List.append_assoc,
        intercalate_append_cons, List.map_cons, List.intercalate_cons_cons, List.append_assoc]
      exact congrArg _ (intercalate_append_cons _ [','] (' ' :: o.toList) _)
  unfold text
  cases s.operands with
  | nil => exact (List.append_nil _).symm
  | cons o os =>
    rw [List.map_cons, h_fold, String.toList_append, String.toList_append, List.append_assoc,
      intercalate_append_cons]
    rfl

/-- Takes a line apart at its first blank and at its commas. -/
def ofText (line : String) : Statement where
  mnemonic := .ofList (line.toList.takeWhile (· ≠ ' '))
  operands := match line.toList.dropWhile (· ≠ ' ') with
    | [] => []
    | cs => (cs.splitOn ',').map fun o => .ofList o.tail

theorem ofText_text {s : Statement} (h : s.Tight) : ofText s.text = s := by
  have h_mnemonic : ∀ c ∈ s.mnemonic.toList, decide (c ≠ ' ') = true := by
    intro c hc
    exact decide_eq_true (h.mnemonic c hc).1
  have h_operands : ∀ o ∈ s.operands.map fun o => ' ' :: o.toList, ',' ∉ o := by
    intro o ho h_comma
    obtain ⟨o', ho', rfl⟩ := List.mem_map.1 ho
    rcases List.mem_cons.1 h_comma with h_eq | h_mem
    · exact absurd h_eq (by decide)
    · exact (List.forall_iff_forall_mem.1 h.operands o' ho' ',' h_mem).2.1 rfl
  obtain ⟨m, os⟩ := s
  unfold ofText
  rw [toList_text, List.takeWhile_append_of_pos h_mnemonic,
    List.dropWhile_append_of_pos h_mnemonic]
  cases os with
  | nil => simp
  | cons o os =>
    -- what follows the mnemonic begins with a blank
    obtain ⟨cs, h_tail⟩ :
        ∃ cs, [','].intercalate ((o :: os).map fun o => ' ' :: o.toList) = ' ' :: cs :=
      ⟨_, intercalate_append_cons _ [' '] o.toList _⟩
    have h_split := List.splitOn_intercalate ',' h_operands (List.cons_ne_nil _ _)
    rw [h_tail] at h_split ⊢
    have h_take : (' ' :: cs).takeWhile (fun c => decide (c ≠ ' ')) = [] := rfl
    have h_drop : (' ' :: cs).dropWhile (fun c => decide (c ≠ ' ')) = ' ' :: cs := rfl
    rw [h_take, h_drop]
    change Statement.mk (.ofList (m.toList ++ [])) (((' ' :: cs).splitOn ',').map _) = _
    rw [h_split, List.append_nil, String.ofList_toList, List.map_map]
    exact congrArg (Statement.mk m) (List.map_id'' (fun o => String.ofList_toList) _)

end Statement

namespace Instruction

/-- **A line determines its instruction**, since both layers can be read back. -/
theorem text_injective (pc : Word) : Function.Injective (text pc) := by
  intro i i' h
  have h_statement : i.statement pc = i'.statement pc := by
    rw [← Statement.ofText_text (tight_statement pc i),
      ← Statement.ofText_text (tight_statement pc i')]
    exact congrArg Statement.ofText h
  have h_read := congrArg (Statement.instruction? pc) h_statement
  rw [instruction?_statement, instruction?_statement] at h_read
  exact Option.some.inj h_read

/-- **A line shows the bytes of its instruction and no others.** Two runs of three bytes give the
same line at `pc` exactly if they begin with the same code and agree on the operand bytes that the
code asks for. Only the padding of STOP is not shown. -/
theorem text_ofBytes_eq_iff (pc : Word) (b b' : Fin 3 → Byte) :
    (ofBytes (List.ofFn b)).text pc = (ofBytes (List.ofFn b')).text pc ↔
      b 0 = b' 0 ∧
        (b 0 ≠ 0x10 → ∀ k : Fin 3, 0 < k → k.val < encodedLength (b 0) → b k = b' k) := by
  rw [(text_injective pc).eq_iff]
  change decode (b 0) (b 1) (b 2) = decode (b' 0) (b' 1) (b' 2) ↔ _
  rw [decode_eq_iff]
  refine and_congr_right fun _ => ?_
  by_cases h_stop : b 0 = 0x10
  · have h_length : fetchedLength (b 0) = 1 := by rw [h_stop]; rfl
    rw [h_length]
    exact iff_of_true ⟨fun h => absurd h (by decide), fun h => absurd h (by decide)⟩
      fun h => absurd h_stop h
  · rw [fetchedLength_eq h_stop]
    constructor
    · rintro ⟨h₁, h₂⟩ - k h_pos h_lt
      match k with
      | 1 => exact h₁ h_lt
      | 2 => exact h₂ h_lt
    · intro h
      exact ⟨h h_stop 1 (by decide), h h_stop 2 (by decide)⟩

end Instruction

end Sm83
