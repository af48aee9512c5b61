import Sm83.Command.Job
import Sm83.Command.ReadFailure
import Sm83.Listing
import Sm83.Session

/-!
# Doing a job

A job prints text, and may fail. The contents of its program image and the room for its listings
are handed in by the outer layer, so that doing the job is a function. Only a run without a limit
needs fuel.
-/

namespace Sm83.Command

/-! ### Failures -/

/-- Why a job failed. -/
inductive Failure where
  | unreadable (image : String) (cause : ReadFailure)
  | unloadable (image : String) (cause : Fault)
  | unpatchable (address : Word) (cause : Fault)
  /-- The instruction at this address failed. -/
  | stepFailed (pc : Word) (cause : Fault)
  /-- A strict run used up its steps. -/
  | notHalted
  deriving DecidableEq

/-- The wording of a failure, followed by that of its cause if it has one. -/
def Failure.chain : Failure → List String
  | unreadable image cause => ["reading " ++ image, cause.message]
  | unloadable image cause => ["loading " ++ image, cause.message]
  | unpatchable a cause => ["applying patch at " ++ Hex.marked 4 a.toNat, cause.message]
  | stepFailed pc cause =>
    ["execution failed at pc=" ++ Hex.marked 4 pc.toNat, cause.message]
  | notHalted => ["step limit reached without HALT"]

/-! ### Work -/

/-- What a job does with its session. -/
abbrev Work := EStateM Failure Session

/-- Does an action of the session, and explains a fault by the session in which it arose. -/
def explaining {α : Type} (explain : Session → Fault → Failure) (act : Session.Action α) :
    Work α := fun s =>
  match act s with
  | .ok x s' => .ok x s'
  | .error f s' => .error (explain s' f) s'

/-- Loads the program image. -/
def loadImage (image : String) (contents : Except ReadFailure (List Byte)) (offset : Word) :
    Work Unit :=
  match contents with
  | .error cause => throw (.unreadable image cause)
  | .ok bytes => explaining (fun _ => .unloadable image) (Session.load bytes offset.toNat)

/-- Applies a patch. -/
def applyPatch (p : Patch) : Work Unit :=
  explaining (fun _ => .unpatchable p.address) (Session.patch p.address p.bytes)

/-- Sets the program counter and the stack pointer. -/
def setPointers (pc sp : Word) : Work Unit :=
  modify fun s => { s with machine := (s.machine.setPc pc).setSp sp }

/-- Brings the machine into the state in which a run starts. -/
def prepare (j : RunJob) (contents : Except ReadFailure (List Byte)) : Work Unit := do
  loadImage j.image contents j.offset
  j.patches.forM applyPatch
  setPointers j.pc j.sp

/-- Explains that the instruction at the program counter failed. -/
def explainStep (s : Session) (f : Fault) : Failure := .stepFailed s.machine.registers.pc f

/-- Runs the machine to its limit or, without one, to its end; then the fuel must suffice. -/
def execute? (limit : Option Nat) (fuel : Nat) (s : Session) :
    Option (EStateM.Result Failure Session Ending) :=
  match limit with
  | some n => some (explaining explainStep (Session.run n) s)
  | none => (s.runToEnd? fuel).map fun r => explaining explainStep (fun _ => r) s

/-! ### Reports -/

/-- A line of the window; the one at the program counter is marked. -/
def windowLine (pc : Word) (l : Line) : String :=
  (if l.address = pc then ">>" else "  ") ++ " " ++ l.listed

/-- Whether the machine has halted, and how many steps it took. -/
def statusLine (s : Session) : String :=
  "HALT: " ++ (if s.machine.halted then "yes" else "no") ++ "   steps: " ++ toString s.steps

/-- The lines that a run prints ahead of the window: registers, status, and a rule. -/
def statusLines (s : Session) : List String :=
  [s.machine.registers.dump, statusLine s, "----------------------------------------"]

/-- Lines of text, each with a line break at its end. -/
def printed (lines : List String) : String := String.join (lines.map (· ++ "\n"))

/-! ### Outcomes -/

/-- How a job ends. -/
inductive Finish where
  | done
  | failed (f : Failure)
  /-- There was no room for the lines of a listing, and the program has come to a sudden end. -/
  | crashed
  deriving DecidableEq, Inhabited

/-- What doing a job comes to. -/
structure Outcome where
  output : String
  finish : Finish
  journal : Option Journal
  deriving Inhabited

namespace Outcome

/-- The outcome of a job that printed nothing and failed. -/
def failed (f : Failure) (s : Session) : Outcome := ⟨"", .failed f, s.journal⟩

/-- The errors, the outermost first. -/
def errors (o : Outcome) : List String :=
  match o.finish with
  | .failed f => f.chain
  | .done | .crashed => []

/-- The exit status of the program. One that crashes does not choose its status. -/
def status (o : Outcome) : Option Nat :=
  match o.finish with
  | .done => some 0
  | .failed _ => some 1
  | .crashed => none

/-- What the program writes to its standard error. -/
def errorText (o : Outcome) : String :=
  match o.errors with
  | [] => ""
  | outer :: causes =>
    "Error: " ++ outer ++ "\n" ++ String.join (causes.map ("\nCaused by:\n    " ++ · ++ "\n"))

end Outcome

/-- The outcome of a run that has ended. The window comes last, and where there is no room for it,
what stands ahead of it has been printed. A strict run fails if it used up its steps, but prints all
the same. -/
def RunJob.conclude (j : RunJob) (room : Room) (ending : Ending) (s : Session) : Outcome :=
  let pc := s.machine.registers.pc
  match s.machine.memory.window room pc j.window j.window with
  | none => ⟨printed (statusLines s), .crashed, s.journal⟩
  | some lines =>
    let finish := if j.strict && ending == .outOfSteps then .failed .notHalted else .done
    ⟨printed (statusLines s ++ lines.map (windowLine pc)), finish, s.journal⟩

/-- Runs a program; `none` if it has no limit and does not end within the fuel. -/
def RunJob.perform? (j : RunJob) (room : Room) (contents : Except ReadFailure (List Byte))
    (threshold : Option Level) (fuel : Nat) : Option Outcome :=
  match prepare j contents (.start threshold) with
  | .error f s => some (.failed f s)
  | .ok _ s =>
    match execute? j.maxSteps fuel s with
    | none => none
    | some (.error f s) => some (.failed f s)
    | some (.ok ending s) => some (j.conclude room ending s)

/-- Lists a program. -/
def ListJob.perform (j : ListJob) (room : Room) (contents : Except ReadFailure (List Byte))
    (threshold : Option Level) : Outcome :=
  match loadImage j.image contents j.offset (.start threshold) with
  | .error f s => .failed f s
  | .ok _ s =>
    match s.machine.memory.listing room j.start j.count with
    | none => ⟨"", .crashed, s.journal⟩
    | some lines => ⟨printed (lines.map Line.listed), .done, s.journal⟩

/-- The file that holds the program image. -/
def Job.image : Job → String
  | .run j => j.image
  | .list j => j.image

/-- Does a job; `none` if it does not end within the fuel. -/
def Job.perform? (j : Job) (room : Room) (contents : Except ReadFailure (List Byte))
    (threshold : Option Level) (fuel : Nat) : Option Outcome :=
  match j with
  | .run j => j.perform? room contents threshold fuel
  | .list j => some (j.perform room contents threshold)

/-! ### Lines without a job -/

/-- The exit status for a line that names no job. -/
def Stop.status : Stop → Nat
  | .help | .version => 0
  | .misuse _ => 2

/-- What is printed when the version is asked for. -/
def versionLine : String := "gb-cpu 0.1.0"

end Sm83.Command
