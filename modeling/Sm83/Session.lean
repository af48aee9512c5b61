import Sm83.Journal
import Sm83.Machine.Step

/-!
# Sessions

A session is a machine at work: programs are loaded into it, it is run, and the steps that
succeed are counted. A session may keep a journal, which records what happens and never changes
it.
-/

namespace Sm83

/-- The events of the step that a machine is about to take. The instruction is announced if all
its bytes lie in memory, whether or not the step then succeeds. -/
def Machine.announcements (s : Machine) : List Event :=
  let pc := s.registers.pc
  let announced :=
    match s.memory.instructionAt pc with
    | .ok i => [.executing pc i]
    | .error _ => []
  let noticed :=
    match s.memory.fetch pc with
    | .ok i => i.notice pc
    | .error _ => []
  announced ++ noticed

/-- A machine together with the number of steps taken and, if wanted, a journal. -/
structure Session where
  machine : Machine
  steps : Nat
  journal : Option Journal

/-- How a run ended. -/
inductive Ending where
  /-- The machine has halted. -/
  | halted
  /-- The steps that were allowed have been used up. -/
  | outOfSteps
  deriving DecidableEq

namespace Session

/-- A session on a fresh machine, with a journal if a threshold for it is given. -/
def start (threshold : Option Level) : Session :=
  ⟨.start .zero, 0, threshold.map .empty⟩

/-- An action on a session that yields a value or fails. -/
abbrev Action := EStateM Fault Session

/-- Records an event. -/
def record (e : Event) : Action Unit :=
  modify fun s => { s with journal := s.journal.map (·.record e) }

/-- Performs an action of the machine. -/
def onMachine {α : Type} (act : Machine.Action α) : Action α := fun s =>
  match act s.machine with
  | .ok x m => .ok x { s with machine := m }
  | .error f m => .error f { s with machine := m }

/-- Replaces the bytes from an address on, and records the event. -/
def overwrite (address : Nat) (bytes : List Byte) (e : Event) : Action Unit := do
  onMachine (Machine.onMemory (Memory.writeBlock address bytes))
  record e

/-- Loads a program image. -/
def load (bytes : List Byte) (address : Nat) : Action Unit :=
  overwrite address bytes (.loaded bytes.length address)

/-- Overwrites a few bytes of a loaded program. -/
def patch (address : Word) (bytes : List Byte) : Action Unit :=
  overwrite address.toNat bytes (.patched bytes.length address)

/-- Announces the next step, takes it, and counts it if it succeeds. The result is the new
program counter. -/
def step : Action Word := do
  modify fun s => { s with journal := s.journal.map (·.recordAll s.machine.announcements) }
  let pc ← onMachine Machine.step
  modify fun s => { s with steps := s.steps + 1 }
  return pc

/-- Steps until the machine has halted or `limit` steps have succeeded, and tells whether it has
halted. No step is taken on a halted machine. -/
def advance : (limit : Nat) → Action Bool
  | 0 => fun s => .ok s.machine.halted s
  | limit + 1 => fun s =>
    if s.machine.halted then .ok true s
    else
      match step s with
      | .ok _ s' => advance limit s'
      | .error f s' => .error f s'

/-- Records how a run ended. -/
def conclude (halted : Bool) : Action Ending := do
  let s ← get
  if halted then
    record (.halted s.steps)
    return .halted
  else
    record (.limitReached s.machine.registers.pc)
    return .outOfSteps

/-- Runs until the machine has halted or `limit` more steps have succeeded. -/
def run (limit : Nat) : Action Ending := do
  let halted ← advance limit
  conclude halted

/-- Runs until the machine has halted, provided that it does so or fails within `fuel` steps.
The result is `none` if it does not; more fuel never changes a result. -/
def runToEnd? (fuel : Nat) (s : Session) : Option (EStateM.Result Fault Session Ending) :=
  match advance fuel s with
  | .ok true s' => some (conclude true s')
  | .ok false _ => none
  | .error f s' => some (.error f s')

end Session

end Sm83
