import Sm83.Instruction.Assembly

/-!
# The journal

A session can keep a journal of what happens in it. Events are kept as data and are worded only
when they are printed. Each event has a level, and a journal keeps those that are at least as
severe as its threshold.
-/

namespace Sm83

/-- How much attention an event deserves; `info` is the most severe level. -/
inductive Level where
  | info
  | debug
  | trace
  deriving DecidableEq

namespace Level

/-- The position of a level, the most severe one first. -/
def rank : Level → Nat
  | .info => 0
  | .debug => 1
  | .trace => 2

/-- Whether a threshold lets events of a level through. -/
def admits (threshold l : Level) : Bool := l.rank ≤ threshold.rank

/-- The name of a level. -/
def name : Level → String
  | .info => "INFO"
  | .debug => "DEBUG"
  | .trace => "TRACE"

end Level

/-- Something that a journal can record. -/
inductive Event where
  /-- A program image of so many bytes has been loaded. -/
  | loaded (size address : Nat)
  /-- So many bytes have been patched. -/
  | patched (size : Nat) (address : Word)
  /-- A run has used up its steps. -/
  | limitReached (pc : Word)
  /-- A run has found the machine halted; the count is that of all steps of the session. -/
  | halted (steps : Nat)
  /-- A step sets out to carry out an instruction. -/
  | executing (pc : Word) (i : Instruction)
  /-- A control instruction of this name is carried out. -/
  | control (name : String) (pc : Word)
  /-- A code without a meaning is passed over. -/
  | skipped (code : Byte) (pc : Word)
  deriving DecidableEq

namespace Event

/-- The level of an event. -/
def level : Event → Level
  | loaded _ _ | patched _ _ | limitReached _ => .info
  | halted _ | control _ _ | skipped _ _ => .debug
  | executing _ _ => .trace

/-- The wording of an event. -/
def message : Event → String
  | loaded n a => "loaded " ++ toString n ++ " bytes at " ++ Hex.marked 4 a
  | patched n a => "patched " ++ toString n ++ " bytes at " ++ Hex.marked 4 a.toNat
  | limitReached pc => "step limit reached at pc=" ++ Hex.marked 4 pc.toNat
  | halted n => "halted after " ++ toString n ++ " steps"
  | executing pc i => Hex.word pc ++ "  " ++ i.text pc
  | control name pc => name ++ " at " ++ Hex.marked 4 pc.toNat
  | skipped code pc =>
    "undefined opcode " ++ Hex.marked 2 code.toNat ++ " at " ++ Hex.marked 4 pc.toNat
      ++ ", skipping"

/-- The printed form of an event: its level and its wording. -/
def text (e : Event) : String := e.level.name ++ " " ++ e.message

end Event

/-- The event of carrying out an instruction that only speaks to the processor's controls. -/
def Instruction.notice (pc : Word) (i : Instruction) : List Event :=
  match i with
  | .stop | .halt | .disableInterrupts | .enableInterrupts =>
    [.control (i.statement pc).mnemonic pc]
  | .undefined code => [.skipped code pc]
  | _ => []

/-- A record of events. -/
structure Journal where
  threshold : Level
  /-- What has been recorded, the latest event first. -/
  latestFirst : List Event

namespace Journal

/-- A journal without events. -/
def empty (threshold : Level) : Journal := ⟨threshold, []⟩

/-- Records an event if the threshold lets it through. -/
def record (j : Journal) (e : Event) : Journal :=
  if j.threshold.admits e.level then { j with latestFirst := e :: j.latestFirst } else j

/-- Records events in their order. -/
def recordAll (j : Journal) (es : List Event) : Journal := es.foldl record j

/-- The recorded events in the order in which they happened. -/
def events (j : Journal) : List Event := j.latestFirst.reverse

theorem events_recordAll (j : Journal) (es : List Event) :
    (j.recordAll es).events = j.events ++ es.filter fun e => j.threshold.admits e.level := by
  induction es generalizing j with
  | nil => simp [recordAll]
  | cons e es ih =>
    have h : (j.record e).threshold = j.threshold := by unfold record; split <;> rfl
    rw [show j.recordAll (e :: es) = (j.record e).recordAll es from rfl, ih, h]
    by_cases hl : j.threshold.admits e.level <;> simp [record, events, hl]

end Journal

end Sm83
