import Sm83.Command.Patch
import Sm83.Command.Scan

/-!
# Jobs

What a command line asks for: running a program or listing one. Each option of a command is
described by what it does to the choices, and what is not chosen has a default.
-/

namespace Sm83.Command

/-- Running a program until it halts. -/
structure RunJob where
  /-- The file that holds the program image. -/
  image : String
  /-- Where the image is loaded. -/
  offset : Word
  /-- The first program counter. -/
  pc : Word
  /-- The first stack pointer. -/
  sp : Word
  /-- What is overwritten after loading, in this order. -/
  patches : List Patch
  /-- The number of steps after which to give up. -/
  maxSteps : Option Nat
  /-- How many instructions are shown on each side of the last program counter. -/
  window : Nat
  /-- Whether giving up is a failure. -/
  strict : Bool
  deriving DecidableEq

/-- Listing a program. -/
structure ListJob where
  /-- The file that holds the program image. -/
  image : String
  /-- Where the image is loaded. -/
  offset : Word
  /-- The first address to list. -/
  start : Word
  /-- How many instructions to list. -/
  count : Nat
  deriving DecidableEq

/-- What a command line asks for. -/
inductive Job where
  | run (j : RunJob)
  | list (j : ListJob)
  deriving DecidableEq

/-! ### Values -/

/-- Reads the value of an option that is an address. -/
def addressValue (text : String) : Except Misuse Word :=
  (readAddress text.toList).mapError fun e => .invalidValue (e.chain.headD "")

/-- Reads the value of an option that is a patch. -/
def patchValue (text : String) : Except Misuse Patch :=
  (readPatch text.toList).mapError fun e => .invalidValue (e.chain.headD "")

/-- Reads the value of an option that is a count, in decimal and below `2 ^ 64`. -/
def countValue (text : String) : Except Misuse Nat :=
  (Numeral.read 10 (UInt64.size - 1) text.toList).mapError fun e => .invalidValue e.message

/-- An option that may be given once. It takes a value, of which it is asked only if none has
been chosen before. -/
def single {σ α : Type} (name : String) (chosen : σ → Option α)
    (read : String → Except Misuse α) (choose : σ → α → σ) : Effect σ :=
  .value fun s text =>
    if (chosen s).isSome then .error (.repeatedOption name)
    else do
      let v ← read text
      return choose s v

/-! ### Options of the commands -/

/-- What the options of a run choose. -/
structure RunChoices where
  offset : Option Word
  pc : Option Word
  sp : Option Word
  patches : List Patch
  maxSteps : Option Nat
  window : Option Nat
  strict : Bool

/-- Nothing is chosen. -/
def RunChoices.none : RunChoices := ⟨.none, .none, .none, [], .none, .none, false⟩

/-- The options of a run. Patches can be repeated and keep their order. -/
def runOptions : Options RunChoices := fun name =>
  match name with
  | "offset" => some (single name (·.offset) addressValue fun s v => { s with offset := some v })
  | "pc" => some (single name (·.pc) addressValue fun s v => { s with pc := some v })
  | "sp" => some (single name (·.sp) addressValue fun s v => { s with sp := some v })
  | "patch" => some (.value fun s text => do
      let p ← patchValue text
      return { s with patches := s.patches ++ [p] })
  | "max-steps" =>
    some (single name (·.maxSteps) countValue fun s v => { s with maxSteps := some v })
  | "window" => some (single name (·.window) countValue fun s v => { s with window := some v })
  | "strict" => some (.switch fun s =>
      if s.strict then .error (.repeatedOption name) else .ok { s with strict := true })
  | _ => none

/-- The run that the choices describe. The addresses are zero by default, three instructions are
shown on each side, and without a limit the program may run for ever. -/
def RunChoices.job (image : String) (c : RunChoices) : RunJob where
  image := image
  offset := c.offset.getD 0
  pc := c.pc.getD 0
  sp := c.sp.getD 0
  patches := c.patches
  maxSteps := c.maxSteps
  window := c.window.getD 3
  strict := c.strict

/-- What the options of a listing choose. -/
structure ListChoices where
  offset : Option Word
  start : Option Word
  count : Option Nat

/-- Nothing is chosen. -/
def ListChoices.none : ListChoices := ⟨.none, .none, .none⟩

/-- The options of a listing. -/
def listOptions : Options ListChoices := fun name =>
  match name with
  | "offset" => some (single name (·.offset) addressValue fun s v => { s with offset := some v })
  | "start" => some (single name (·.start) addressValue fun s v => { s with start := some v })
  | "count" => some (single name (·.count) countValue fun s v => { s with count := some v })
  | _ => none

/-- The listing that the choices describe; it has thirty-two instructions by default. -/
def ListChoices.job (image : String) (c : ListChoices) : ListJob where
  image := image
  offset := c.offset.getD 0
  start := c.start.getD 0
  count := c.count.getD 32

/-! ### The whole line -/

/-- Whether help can be given on the words behind `help`: on none, or on one command. The command
`help` is one itself, and no command has commands of its own. -/
def namesHelp : List String → Bool
  | [] | ["run"] | ["disasm"] | ["help"] => true
  | _ => false

/-- Reads the words of a command line. -/
def Job.ofWords (words : List String) : Except Stop Job :=
  match words with
  | [] => .error (.misuse .noCommand)
  | "run" :: rest => do
    let (image, c) ← Scan.run runOptions .none rest
    return .run (c.job image)
  | "disasm" :: rest => do
    let (image, c) ← Scan.run listOptions .none rest
    return .list (c.job image)
  | "help" :: rest =>
    if namesHelp rest then .error .help
    else .error (.misuse (.unknownCommand (rest.headD "")))
  | word :: rest =>
    match Argument.ofString word, rest with
    | .separator, [] => .error (.misuse .noCommand)
    | .separator, next :: _ =>
      if next ∈ ["run", "disasm", "help"] then .error (.misuse (.unknownArgument next))
      else .error (.misuse (.unknownCommand next))
    | .long name (some _), _ =>
      if name = "help" ∨ name = "version" then .error (.misuse (.unexpectedValue name))
      else .error (.misuse (.unknownArgument word))
    | .long name none, _ =>
      if name = "help" then .error .help
      else if name = "version" then .error .version
      else .error (.misuse (.unknownArgument word))
    | .short 'h', _ => .error .help
    | .short 'V', _ => .error .version
    | .short _, _ => .error (.misuse (.unknownArgument word))
    | .plain, _ => .error (.misuse (.unknownCommand word))

end Sm83.Command
