import Sm83.Instruction
import Sm83.Text.Hex

/-!
# Assembly language

An instruction is written as a mnemonic and its operands. Numbers are in upper-case hexadecimal,
memory operands stand in parentheses, and a relative jump shows the address that it reaches, so
the written form depends on where the instruction lies.
-/

namespace Sm83

/-- A written instruction. -/
structure Statement where
  mnemonic : String
  operands : List String
  deriving DecidableEq

/-- The line of text: a blank follows the mnemonic, and commas part the operands. -/
def Statement.text (s : Statement) : String :=
  match s.operands with
  | [] => s.mnemonic
  | o :: os => os.foldl (fun line o => line ++ ", " ++ o) (s.mnemonic ++ " " ++ o)

/-! ### Operands -/

/-- A byte as a number. -/
def Byte.literal (b : Byte) : String := "0x" ++ Hex.byte b

/-- A word as a number. -/
def Word.literal (w : Word) : String := "0x" ++ Hex.word w

/-- The memory that an operand addresses. -/
def parenthesized (operand : String) : String := "(" ++ operand ++ ")"

/-- The name of a register. -/
def Register.name : Register → String
  | .a => "A"
  | .b => "B"
  | .c => "C"
  | .d => "D"
  | .e => "E"
  | .h => "H"
  | .l => "L"

/-- The written form of a place. -/
def Place.name : Place → String
  | .register r => r.name
  | .atHl => parenthesized "HL"

/-- The written form of a source. -/
def Source.name : Source → String
  | .place p => p.name
  | .immediate n => n.literal

/-- The name of a pair. -/
def Pair.name : Pair → String
  | .bc => "BC"
  | .de => "DE"
  | .hl => "HL"
  | .sp => "SP"

/-- The name of a pair that can be pushed. -/
def StackPair.name : StackPair → String
  | .bc => "BC"
  | .de => "DE"
  | .hl => "HL"
  | .af => "AF"

/-- The name of a pointer; a sign shows how it moves. -/
def Pointer.name : Pointer → String
  | .bc => "BC"
  | .de => "DE"
  | .hlIncrement => "HL+"
  | .hlDecrement => "HL-"

/-- The written form of a location. -/
def Location.name : Location → String
  | .pointer p => parenthesized p.name
  | .absolute a => parenthesized a.literal
  | .lastPage n => parenthesized n.literal
  | .lastPageC => parenthesized "C"

/-- The mnemonic of a transfer between the accumulator and a location. -/
def Location.mnemonic : Location → String
  | .lastPage _ => "LDH"
  | _ => "LD"

/-- The name of a condition. -/
def Condition.name : Condition → String
  | .notZero => "NZ"
  | .zero => "Z"
  | .notCarry => "NC"
  | .carry => "C"

/-- The mnemonic of an operation on the accumulator. -/
def Accumulation.mnemonic : Accumulation → String
  | .add => "ADD"
  | .addCarry => "ADC"
  | .subtract => "SUB"
  | .subtractCarry => "SBC"
  | .and => "AND"
  | .xor => "XOR"
  | .or => "OR"
  | .compare => "CP"

/-- Whether the accumulator is written as the first operand. It is where the same mnemonic has
another first operand elsewhere, or takes a carry. -/
def Accumulation.namesA : Accumulation → Bool
  | .add | .addCarry | .subtractCarry => true
  | _ => false

/-- The mnemonic of a rotation. -/
def Rotation.mnemonic : Rotation → String
  | .left => "RLC"
  | .right => "RRC"
  | .leftThroughCarry => "RL"
  | .rightThroughCarry => "RR"

/-- The mnemonic of a rotation or shift. -/
def Shift.mnemonic : Shift → String
  | .rotate r => r.mnemonic
  | .arithmeticLeft => "SLA"
  | .arithmeticRight => "SRA"
  | .swap => "SWAP"
  | .logicalRight => "SRL"

/-- The written form of an operation on the bits of a place. -/
def BitOperation.statement (op : BitOperation) (target : Place) : Statement :=
  match op with
  | .shift s => ⟨s.mnemonic, [target.name]⟩
  | .test i => ⟨"BIT", [toString i.val, target.name]⟩
  | .reset i => ⟨"RES", [toString i.val, target.name]⟩
  | .set i => ⟨"SET", [toString i.val, target.name]⟩

/-- A jump with the condition, if there is one, in front of the other operands. -/
def conditional (mnemonic : String) (c : Option Condition) (operands : List String) : Statement :=
  ⟨mnemonic, (c.map Condition.name).toList ++ operands⟩

/-! ### Instructions -/

namespace Instruction

/-- The written form of an instruction that lies at `pc`. -/
def statement (pc : Word) : Instruction → Statement
  | nop => ⟨"NOP", []⟩
  | stop => ⟨"STOP", []⟩
  | halt => ⟨"HALT", []⟩
  | disableInterrupts => ⟨"DI", []⟩
  | enableInterrupts => ⟨"EI", []⟩
  | undefined code => ⟨"DB", [code.literal]⟩
  | load target source => ⟨"LD", [target.name, source.name]⟩
  | storeA target => ⟨target.mnemonic, [target.name, Register.a.name]⟩
  | loadA source => ⟨source.mnemonic, [Register.a.name, source.name]⟩
  | loadPair target value => ⟨"LD", [target.name, value.literal]⟩
  | storeSp address => ⟨"LD", [parenthesized address.literal, Pair.sp.name]⟩
  | loadSpHl => ⟨"LD", [Pair.sp.name, Pair.hl.name]⟩
  | loadHlSp offset => ⟨"LD", [Pair.hl.name, Pair.sp.name ++ "+" ++ offset.literal]⟩
  | push p => ⟨"PUSH", [p.name]⟩
  | pop p => ⟨"POP", [p.name]⟩
  | increment target => ⟨"INC", [target.name]⟩
  | decrement target => ⟨"DEC", [target.name]⟩
  | incrementPair target => ⟨"INC", [target.name]⟩
  | decrementPair target => ⟨"DEC", [target.name]⟩
  | accumulate op source =>
    ⟨op.mnemonic, if op.namesA then [Register.a.name, source.name] else [source.name]⟩
  | addHl source => ⟨"ADD", [Pair.hl.name, source.name]⟩
  | addSp offset => ⟨"ADD", [Pair.sp.name, offset.literal]⟩
  | decimalAdjust => ⟨"DAA", []⟩
  | complement => ⟨"CPL", []⟩
  | setCarry => ⟨"SCF", []⟩
  | flipCarry => ⟨"CCF", []⟩
  | rotateA r => ⟨r.mnemonic ++ Register.a.name, []⟩
  | bits op target => op.statement target
  | jumpRelative c offset => conditional "JR" c [(relativeTarget pc offset).literal]
  | jump c target => conditional "JP" c [target.literal]
  | jumpHl => ⟨"JP", [parenthesized Pair.hl.name]⟩
  | call c target => conditional "CALL" c [target.literal]
  | ret c => conditional "RET" c []
  | retInterrupt => ⟨"RETI", []⟩
  | restart vector => ⟨"RST", [(restartTarget vector).literal]⟩

/-- The line of text for an instruction that lies at `pc`. -/
def text (pc : Word) (i : Instruction) : String := (i.statement pc).text

end Instruction

end Sm83
