/-!
# Scanning a command line

The words behind the name of a command are scanned from left to right. A word may be the name of
an option, with its value behind an equals sign or as the next word, or the one operand that
every command takes, the name of a program image. Behind the word `--` all words are operands.

A word is judged late: an option with its value, and likewise the operand, is *pending* until
the next option, the next operand or the end of the line settles it. Which of two mistakes is
reported depends on that. A name that no option has is reported at once, ahead of anything
pending.
-/

namespace Sm83.Command

/-- A way in which a command line is wrong. -/
inductive Misuse where
  /-- There is no command. -/
  | noCommand
  | unknownCommand (word : String)
  /-- An option or operand that the command does not take. -/
  | unknownArgument (word : String)
  /-- An option that may be given once is repeated. -/
  | repeatedOption (name : String)
  /-- An option lacks its value, or the operand is empty. -/
  | missingValue (name : String)
  /-- A value is given to an option that takes none. -/
  | unexpectedValue (name : String)
  /-- There is no operand. -/
  | missingOperand
  /-- A value cannot be read, with the reason. -/
  | invalidValue (message : String)
  deriving DecidableEq

/-- Why a command line names no job to do. -/
inductive Stop where
  | help
  | version
  | misuse (m : Misuse)
  deriving DecidableEq

/-! ### Words -/

/-- A word of the command line by its form. -/
inductive Argument where
  /-- The word `--`. -/
  | separator
  /-- Two dashes and a name, and what stands behind the first equals sign. -/
  | long (name : String) (value : Option String)
  /-- One dash and a letter, perhaps with more behind it. -/
  | short (letter : Char)
  /-- Any other word, a lone dash included. -/
  | plain
  deriving DecidableEq

/-- The form of a word. -/
def Argument.ofString (word : String) : Argument :=
  match word.toList with
  | ['-', '-'] => .separator
  | '-' :: '-' :: rest =>
    let name := String.ofList (rest.takeWhile (· ≠ '='))
    match rest.dropWhile (· ≠ '=') with
    | [] => .long name none
    | _ :: value => .long name (some (String.ofList value))
  | '-' :: letter :: _ => .short letter
  | _ => .plain

/-! ### Options -/

/-- What an option does to the choices made so far. -/
inductive Effect (σ : Type) where
  /-- The option takes a value. -/
  | value (choose : σ → String → Except Misuse σ)
  /-- The option stands alone. -/
  | switch (choose : σ → Except Misuse σ)

/-- The options of a command by their names, without the two dashes. -/
abbrev Options (σ : Type) := String → Option (Effect σ)

/-- What has been read and not been judged yet. -/
inductive Pending (σ : Type) where
  | nothing
  /-- The operand. -/
  | operand
  /-- An option and, once it has been read, its value. -/
  | value (name : String) (choose : σ → String → Except Misuse σ) (value : Option String)

/-- A scan on its way. -/
structure Scan (σ : Type) where
  choices : σ
  operand : Option String
  pending : Pending σ
  /-- Whether the separator has been met. -/
  separated : Bool

namespace Scan

variable {σ : Type}

/-- The scan before the first word. -/
def start (choices : σ) : Scan σ := ⟨choices, none, .nothing, false⟩

/-- Judges what is pending. -/
def settle (s : Scan σ) : Except Misuse (Scan σ) :=
  match s.pending with
  | .nothing => .ok s
  | .operand =>
    if s.operand = some "" then .error (.missingValue "ROM") else .ok { s with pending := .nothing }
  | .value name _ none => .error (.missingValue name)
  | .value _ choose (some v) => do
    let choices ← choose s.choices v
    return { s with choices := choices, pending := .nothing }

/-- Takes a word that is a value or an operand. -/
def takePlain (s : Scan σ) (word : String) : Except Misuse (Scan σ) :=
  match s.pending, s.separated with
  | .value name choose none, false =>
    .ok { s with pending := .value name choose (some word) }
  | _, _ =>
    if s.operand.isSome then .error (.unknownArgument word)
    else do
      let s ← s.settle
      return { s with operand := some word, pending := .operand }

/-- Takes an option. -/
def takeLong (options : Options σ) (s : Scan σ) (name : String) (value : Option String) :
    Except Stop (Scan σ) :=
  let misuse {α : Type} (r : Except Misuse α) : Except Stop α := r.mapError .misuse
  if name = "help" then
    match value with
    | some _ => .error (.misuse (.unexpectedValue name))
    | none => do
      let _ ← misuse s.settle
      throw .help
  else
    match options name, value with
    | none, _ => .error (.misuse (.unknownArgument name))
    | some (.switch _), some _ => .error (.misuse (.unexpectedValue name))
    | some (.switch choose), none => misuse do
      let s ← s.settle
      let choices ← choose s.choices
      return { s with choices := choices }
    | some (.value choose), none => misuse do
      let s ← s.settle
      return { s with pending := .value name choose none }
    | some (.value choose), some v => misuse do
      let s ← s.settle
      let choices ← choose s.choices v
      return { s with choices := choices }

/-- Takes the next word. -/
def take (options : Options σ) (s : Scan σ) (word : String) : Except Stop (Scan σ) :=
  let plain : Except Stop (Scan σ) := (s.takePlain word).mapError .misuse
  if s.separated then plain
  else
    match Argument.ofString word with
    | .separator => .ok { s with separated := true }
    | .plain => plain
    | .long name value => takeLong options s name value
    | .short 'h' => takeLong options s "help" none
    | .short _ => .error (.misuse (.unknownArgument word))

/-- Judges what is pending at the end of the line and yields the operand and the choices. -/
def finish (s : Scan σ) : Except Misuse (String × σ) := do
  let s ← s.settle
  match s.operand with
  | none => throw .missingOperand
  | some operand => return (operand, s.choices)

/-- Scans the words behind the name of a command. -/
def run (options : Options σ) (choices : σ) (words : List String) :
    Except Stop (String × σ) := do
  let s ← words.foldlM (take options) (start choices)
  s.finish.mapError .misuse

end Scan

end Sm83.Command
