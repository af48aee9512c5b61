import Sm83.Proofs.Fetch
import Sm83.Proofs.Run

/-!
# Journals of the same session

A session may keep a journal, at one of three levels, or none. This file compares what happens to
sessions that differ in nothing but their journals.

The operations on a session are loading, taking a step, and running. `Session.Does` says of one
operation which steps it attempts, what can be observed of it, and which session it leaves behind;
`Session.Performs` says the same of operations one after the other. Both go through with any
journal in place of another (`Does.exists_log`, `Performs.exists_log`): steps and observations are
the same, and the same events are offered to the journal, which keeps those that its threshold
admits.

What is offered is a list of entries. An attempted step contributes its announcements, which are
the line for its instruction and then its notice (`Machine.map_text_announcements`); the other
entries are events of a more severe level. `journal_levels` puts this together.
-/

namespace Sm83

/-! ### Results with another state -/

section Results

variable {ε σ τ α : Type}

/-- A result with the state it leaves replaced. -/
def mapState (f : σ → τ) : EStateM.Result ε σ α → EStateM.Result ε τ α
  | .ok a s => .ok a (f s)
  | .error e s => .error e (f s)

@[simp] theorem stateAfter_mapState (f : σ → τ) (r : EStateM.Result ε σ α) :
    stateAfter (mapState f r) = f (stateAfter r) := by
  cases r <;> rfl

end Results

/-! ### The announcement of a step -/

theorem Journal.recordAll_append (j : Journal) (es es' : List Event) :
    j.recordAll (es ++ es') = (j.recordAll es).recordAll es' :=
  List.foldl_append

/-- A notice is not traced. -/
theorem Instruction.level_of_mem_notice {i : Instruction} {pc : Word} {e : Event}
    (h : e ∈ i.notice pc) : e.level = .debug := by
  cases i with
  | stop | halt | disableInterrupts | enableInterrupts | undefined code =>
    obtain rfl := List.mem_singleton.1 h
    rfl
  | _ => cases h

namespace Machine

/-- The line that announces the next step: its address and its instruction, if that lies in memory
as a whole. -/
def traceLine (s : Machine) : List String :=
  match s.memory.assemblyAt s.registers.pc with
  | .ok text => ["TRACE " ++ (Hex.word s.registers.pc ++ "  " ++ text)]
  | .error _ => []

/-- The lines about the next step that are not traced. -/
def debugLines (s : Machine) : List String :=
  (s.announcements.filter (·.level = .debug)).map Event.text

/-- The events that announce the instruction of the next step. -/
def announced (s : Machine) : List Event :=
  match s.memory.instructionAt s.registers.pc with
  | .ok i => [.executing s.registers.pc i]
  | .error _ => []

/-- The events of carrying the instruction of the next step out. -/
def noticed (s : Machine) : List Event :=
  match s.memory.fetch s.registers.pc with
  | .ok i => i.notice s.registers.pc
  | .error _ => []

theorem announcements_eq (s : Machine) : s.announcements = s.announced ++ s.noticed := rfl

theorem level_of_mem_announced {s : Machine} {e : Event} (h : e ∈ s.announced) :
    e.level = .trace := by
  unfold announced at h
  split at h
  · obtain rfl := List.mem_singleton.1 h
    rfl
  · cases h

theorem level_of_mem_noticed {s : Machine} {e : Event} (h : e ∈ s.noticed) :
    e.level = .debug := by
  unfold noticed at h
  split at h
  · exact Instruction.level_of_mem_notice h
  · cases h

theorem map_text_announced (s : Machine) : s.announced.map Event.text = s.traceLine := by
  unfold announced traceLine
  rw [Memory.assemblyAt]
  cases s.memory.instructionAt s.registers.pc <;> rfl

theorem filter_announcements_trace (s : Machine) :
    s.announcements.filter (·.level = .trace) = s.announced := by
  have h_announced : s.announced.filter (·.level = .trace) = s.announced :=
    List.filter_eq_self.2 fun e h => decide_eq_true (level_of_mem_announced h)
  have h_noticed : s.noticed.filter (·.level = .trace) = [] :=
    List.filter_eq_nil_iff.2 fun e h => by rw [level_of_mem_noticed h]; decide
  rw [announcements_eq, List.filter_append, h_announced, h_noticed, List.append_nil]

theorem filter_announcements_debug (s : Machine) :
    s.announcements.filter (·.level = .debug) = s.noticed := by
  have h_announced : s.announced.filter (·.level = .debug) = [] :=
    List.filter_eq_nil_iff.2 fun e h => by rw [level_of_mem_announced h]; decide
  have h_noticed : s.noticed.filter (·.level = .debug) = s.noticed :=
    List.filter_eq_self.2 fun e h => decide_eq_true (level_of_mem_noticed h)
  rw [announcements_eq, List.filter_append, h_announced, h_noticed, List.nil_append]

/-- A step is announced by the line for its instruction, and everything else comes after it. -/
theorem map_text_announcements (s : Machine) :
    s.announcements.map Event.text = s.traceLine ++ s.debugLines := by
  rw [debugLines, filter_announcements_debug, announcements_eq, List.map_append,
    map_text_announced]

/-! ### Attempted steps -/

/-- The machines on which a run with this limit attempts a step, in their order. The last of them
may be one on which the step fails. -/
def attempts (s : Machine) : (limit : Nat) → List Machine
  | 0 => []
  | limit + 1 =>
    if s.halted then []
    else s :: match step s with
      | .ok _ t => t.attempts limit
      | .error _ _ => []

theorem attempts_succ (s : Machine) (n : Nat) :
    s.attempts (n + 1) =
      if s.halted then []
      else s :: if s.fault? = none then s.next.attempts n else [] := by
  rw [attempts, step_eq]
  cases s.fault? <;> rfl

end Machine

namespace Session

/-! ### Operations -/

/-- What can be asked of a session. -/
inductive Operation where
  | load (bytes : List Byte) (address : Nat)
  | step
  /-- Running, with or without a limit. -/
  | run (limit : Option Nat)

/-- What an operation answers if it succeeds. -/
inductive Reply where
  | loaded
  | reached (pc : Word)
  | ended (e : Ending)

/-- What can be observed of an operation, the journal apart. -/
structure Observation where
  answer : Except Fault Reply
  machine : Machine
  steps : Nat

/-- What can be observed of a result. -/
def observe {α : Type} (reply : α → Reply) (r : EStateM.Result Fault Session α) : Observation where
  answer := (Sm83.answer r).map reply
  machine := (stateAfter r).machine
  steps := (stateAfter r).steps

/-- **One operation.** `s.Does op ms o t`: asked for `op`, the session attempts steps on the
machines `ms`, `o` can be observed of it, and it becomes `t`. A run without a limit does something
only if it ends. -/
inductive Does (s : Session) : Operation → List Machine → Observation → Session → Prop where
  | load (bytes : List Byte) (address : Nat) :
    Does s (.load bytes address) [] (observe (fun _ => .loaded) (load bytes address s))
      (stateAfter (load bytes address s))
  | step : Does s .step [s.machine] (observe .reached (step s)) (stateAfter (step s))
  | run (n : Nat) :
    Does s (.run (some n)) (s.machine.attempts n) (observe .ended (run n s)) (stateAfter (run n s))
  | runToEnd {fuel : Nat} {r : EStateM.Result Fault Session Ending}
    (h : runToEnd? fuel s = some r) :
    Does s (.run none) (s.machine.attempts fuel) (observe .ended r) (stateAfter r)

/-- **Operations one after the other**, whether or not they succeed. -/
inductive Performs :
    Session → List Operation → List Machine → List Observation → Session → Prop where
  | nil (s : Session) : Performs s [] [] [] s
  | cons {s t u : Session} {op : Operation} {ops : List Operation} {ms ms' : List Machine}
    {o : Observation} {os : List Observation} (first : s.Does op ms o t)
    (rest : Performs t ops ms' os u) : Performs s (op :: ops) (ms ++ ms') (o :: os) u

/-! ### Another journal -/

/-- The session with another journal in place of its own. -/
def withJournal (s : Session) (j : Option Journal) : Session := { s with journal := j }

@[simp] theorem machine_withJournal (s : Session) (j : Option Journal) :
    (s.withJournal j).machine = s.machine := rfl

/-- A journal, if one is kept, after these events have been offered to it. -/
def offered (j : Option Journal) (es : List Event) : Option Journal := j.map (·.recordAll es)

theorem offered_nil (j : Option Journal) : offered j [] = j := by
  cases j <;> rfl

theorem offered_append (j : Option Journal) (es es' : List Event) :
    offered j (es ++ es') = offered (offered j es) es' := by
  cases j with
  | none => rfl
  | some j => exact congrArg some (j.recordAll_append es es')

/-- A result with another journal in place, to which these events have been offered. -/
def retold {α : Type} (j : Option Journal) (es : List Event)
    (r : EStateM.Result Fault Session α) : EStateM.Result Fault Session α :=
  mapState (·.withJournal (offered j es)) r

section Retold

variable {α : Type} {j : Option Journal} {es es' : List Event}

theorem retold_ok (a : α) (s : Session) :
    retold j es (.ok a s) = .ok a (s.withJournal (offered j es)) := rfl

theorem retold_error (f : Fault) (s : Session) :
    retold j es (.error f s : EStateM.Result Fault Session α)
      = .error f (s.withJournal (offered j es)) := rfl

theorem retold_append (r : EStateM.Result Fault Session α) :
    retold j (es ++ es') r = retold (offered j es) es' r := by
  rw [retold, offered_append]
  rfl

theorem observe_retold (reply : α → Reply) (r : EStateM.Result Fault Session α) :
    observe reply (retold j es r) = observe reply r := by
  cases r <;> rfl

theorem stateAfter_retold (r : EStateM.Result Fault Session α) :
    stateAfter (retold j es r) = (stateAfter r).withJournal (offered j es) :=
  stateAfter_mapState _ r

end Retold

/-! ### What a journal is told -/

/-- An entry of what a journal is told: a step that is attempted, or another event. -/
inductive Entry where
  | attempt (s : Machine)
  | note (e : Event)

namespace Entry

/-- The events of an entry. -/
def events : Entry → List Event
  | attempt s => s.announcements
  | note e => [e]

/-- The lines of an entry. Those of an attempted step are the line for its instruction, if that lies
in memory, and then what else there is about the step. -/
def lines : Entry → List String
  | attempt s => s.traceLine ++ s.debugLines
  | note e => [e.text]

/-- The machine on which an entry attempts a step. -/
def attempted? : Entry → Option Machine
  | attempt s => some s
  | note _ => none

theorem map_text_events (x : Entry) : x.events.map Event.text = x.lines := by
  cases x with
  | attempt s => exact s.map_text_announcements
  | note e => rfl

end Entry

/-- The events of entries in a row. -/
def eventsOf (log : List Entry) : List Event := log.flatMap Entry.events

theorem eventsOf_append (log log' : List Entry) :
    eventsOf (log ++ log') = eventsOf log ++ eventsOf log' :=
  List.flatMap_append

/-- `Tells log ms`: the entries attempt steps on the machines `ms`, and no other entry is traced. -/
structure Tells (log : List Entry) (ms : List Machine) : Prop where
  attempts : log.filterMap Entry.attempted? = ms
  untraced : ∀ e, .note e ∈ log → e.level ≠ .trace

namespace Tells

theorem append {log log' : List Entry} {ms ms' : List Machine} (h : Tells log ms)
    (h' : Tells log' ms') : Tells (log ++ log') (ms ++ ms') where
  attempts := by rw [List.filterMap_append, h.attempts, h'.attempts]
  untraced e he := (List.mem_append.1 he).elim (h.untraced e) (h'.untraced e)

/-- Attempted steps and nothing else. -/
theorem ofAttempts (ms : List Machine) : Tells (ms.map .attempt) ms where
  attempts := by
    rw [List.filterMap_map]
    exact List.filterMap_some
  untraced e he := by
    obtain ⟨m, -, hm⟩ := List.mem_map.1 he
    cases hm

/-- Other events and nothing else. -/
theorem ofNotes {es : List Event} (h : ∀ e ∈ es, e.level ≠ .trace) : Tells (es.map .note) [] where
  attempts := by
    rw [List.filterMap_map]
    exact List.filterMap_eq_nil_iff.2 fun _ _ => rfl
  untraced e he := by
    obtain ⟨e', he', h_eq⟩ := List.mem_map.1 he
    cases h_eq
    exact h e he'

end Tells

theorem eventsOf_attempts (ms : List Machine) :
    eventsOf (ms.map .attempt) = ms.flatMap Machine.announcements := by
  rw [eventsOf, List.flatMap_map]
  rfl

theorem eventsOf_notes (es : List Event) : eventsOf (es.map .note) = es := by
  rw [eventsOf, List.flatMap_map]
  exact List.flatMap_singleton' es

/-- What is traced of an attempted step is the line for its instruction. -/
theorem filter_events_attempt (s : Machine) :
    ((Entry.attempt s).events.filter (·.level = .trace)).map Event.text = s.traceLine := by
  rw [Entry.events, s.filter_announcements_trace, s.map_text_announced]

theorem filter_events_note {e : Event} (h : e.level ≠ .trace) :
    (Entry.note e).events.filter (·.level = .trace) = [] :=
  List.filter_cons_of_neg fun h_trace => h (of_decide_eq_true h_trace)

/-- At the level of traces, the lines for instructions are those of the attempted steps. -/
theorem filter_eventsOf {log : List Entry} {ms : List Machine} (h : Tells log ms) :
    ((eventsOf log).filter (·.level = .trace)).map Event.text = ms.flatMap Machine.traceLine := by
  obtain ⟨rfl, h_untraced⟩ := h
  induction log with
  | nil => rfl
  | cons x log ih =>
    have ih := ih fun e he => h_untraced e (List.mem_cons_of_mem x he)
    rw [eventsOf, List.flatMap_cons, List.filter_append, List.map_append, ← eventsOf, ih]
    cases x with
    | attempt s => rw [filter_events_attempt]; rfl
    | note e => rw [filter_events_note (h_untraced e List.mem_cons_self)]; rfl

theorem map_text_eventsOf (log : List Entry) :
    (eventsOf log).map Event.text = log.flatMap Entry.lines := by
  rw [eventsOf, List.map_flatMap]
  exact congrArg log.flatMap (funext Entry.map_text_events)

/-! #### Loads and runs -/

/-- The event of a load, if it succeeds. -/
def loading (bytes : List Byte) (address : Nat) : List Event :=
  if address + bytes.length ≤ Memory.size then [.loaded bytes.length address] else []

/-- The event of the end of a run, if it does not fail. -/
def closing : EStateM.Result Fault Session Ending → List Event
  | .ok .halted t => [.halted t.steps]
  | .ok .outOfSteps t => [.limitReached t.machine.registers.pc]
  | .error _ _ => []

theorem level_of_mem_loading {bytes : List Byte} {address : Nat} {e : Event}
    (h : e ∈ loading bytes address) : e.level = .info := by
  unfold loading at h
  split at h
  · obtain rfl := List.mem_singleton.1 h
    rfl
  · cases h

theorem untraced_of_mem_closing {r : EStateM.Result Fault Session Ending} {e : Event}
    (h : e ∈ closing r) : e.level ≠ .trace := by
  unfold closing at h
  split at h
  · obtain rfl := List.mem_singleton.1 h
    exact nofun
  · obtain rfl := List.mem_singleton.1 h
    exact nofun
  · cases h

/-- What a run tells a journal. -/
def runLog (s : Session) (limit : Nat) (r : EStateM.Result Fault Session Ending) : List Entry :=
  (s.machine.attempts limit).map .attempt ++ (closing r).map .note

theorem tells_runLog (s : Session) (limit : Nat) (r : EStateM.Result Fault Session Ending) :
    Tells (s.runLog limit r) (s.machine.attempts limit) := by
  have h := (Tells.ofAttempts (s.machine.attempts limit)).append
    (.ofNotes fun e he => untraced_of_mem_closing (r := r) he)
  rwa [List.append_nil] at h

theorem eventsOf_runLog (s : Session) (limit : Nat) (r : EStateM.Result Fault Session Ending) :
    eventsOf (s.runLog limit r)
      = (s.machine.attempts limit).flatMap Machine.announcements ++ closing r := by
  rw [runLog, eventsOf_append, eventsOf_attempts, eventsOf_notes]

/-! ### The operations with another journal -/

section OtherJournal

variable (s : Session) (j : Option Journal)

theorem load_withJournal (bytes : List Byte) (address : Nat) :
    load bytes address (s.withJournal j)
      = retold j (loading bytes address) (load bytes address s) := by
  rw [load, overwrite_eq, overwrite_eq, machine_withJournal, loading]
  by_cases h : address + bytes.length ≤ Memory.size
  · rw [if_pos h, if_pos h, if_pos h]
    rfl
  · rw [if_neg h, if_neg h, if_neg h, retold_error, offered_nil]

theorem step_withJournal :
    step (s.withJournal j) = retold j s.machine.announcements (step s) := by
  rw [step_eq, step_eq, machine_withJournal]
  cases s.machine.fault? <;> rfl

/-- The steps of a run offer their announcements, one that fails included. -/
theorem advance_withJournal (n : Nat) :
    advance n (s.withJournal j)
      = retold j ((s.machine.attempts n).flatMap Machine.announcements) (advance n s) := by
  induction n generalizing s j with
  | zero =>
    rw [advance_zero, advance_zero, Machine.attempts, List.flatMap_nil, retold_ok, offered_nil]
    rfl
  | succ n ih =>
    rw [advance_succ, advance_succ, machine_withJournal, Machine.attempts_succ]
    by_cases h_halted : s.machine.halted
    · rw [if_pos h_halted, if_pos h_halted, if_pos h_halted, List.flatMap_nil, retold_ok,
        offered_nil]
    · rw [if_neg h_halted, if_neg h_halted, if_neg h_halted, List.flatMap_cons, retold_append]
      cases s.machine.fault? with
      | some f =>
        -- the step has been announced, and nothing follows
        rw [if_neg nofun, List.flatMap_nil, retold_error, offered_nil]
        rfl
      | none =>
        rw [if_pos rfl]
        exact ih s.next _

theorem conclude_withJournal (halted : Bool) :
    conclude halted (s.withJournal j)
      = retold j (closing (conclude halted s)) (conclude halted s) := by
  cases halted <;> rfl

theorem run_withJournal (n : Nat) :
    run n (s.withJournal j) = retold j (eventsOf (s.runLog n (run n s))) (run n s) := by
  have h_advance := advance_withJournal s j n
  rw [eventsOf_runLog, retold_append]
  change (advance n >>= conclude) (s.withJournal j)
    = retold _ (closing ((advance n >>= conclude) s)) ((advance n >>= conclude) s)
  cases h : advance n s with
  | ok halted t =>
    rw [h, retold_ok] at h_advance
    rw [bind_ok h, bind_ok h_advance, conclude_withJournal]
  | error f t =>
    rw [h, retold_error] at h_advance
    rw [bind_error h, bind_error h_advance, closing, retold_error, offered_nil]

theorem runToEnd?_withJournal (fuel : Nat) :
    runToEnd? fuel (s.withJournal j)
      = (runToEnd? fuel s).map fun r => retold j (eventsOf (s.runLog fuel r)) r := by
  rw [runToEnd?, runToEnd?, advance_withJournal]
  cases h : advance fuel s with
  | ok halted t =>
    cases halted with
    | true =>
      change some (conclude true (t.withJournal _)) = some (retold j (eventsOf (s.runLog fuel _)) _)
      rw [conclude_withJournal, eventsOf_runLog, retold_append]
    | false => rfl
  | error f t =>
    change some (.error f (t.withJournal _))
      = some (retold j (eventsOf (s.runLog fuel _)) (.error f t))
    rw [eventsOf_runLog, retold_append, closing, retold_error, offered_nil]

end OtherJournal

/-! ### The log of operations -/

/-- `Logged Act log ms s t`: what `Act` does in leading from `s` to `t`, it does with any other
journal, too. The entries `log` are offered to whatever journal there is, and tell of attempts on
the machines `ms`. -/
structure Logged (Act : Session → Session → Prop) (log : List Entry) (ms : List Machine)
    (s t : Session) : Prop where
  tells : Tells log ms
  offers : t.journal = offered s.journal (eventsOf log)
  replay : ∀ j, Act (s.withJournal j) (t.withJournal (offered j (eventsOf log)))

section Operations

variable {s t u : Session} {op : Operation} {ops : List Operation} {ms ms' : List Machine}
  {o o' : Observation} {os os' : List Observation}

/-- An action that offers the same events to any journal leaves its own journal with them. -/
theorem journal_of_retold {α : Type} {act : Action α} {es : List Event}
    (h : ∀ j, act (s.withJournal j) = retold j es (act s)) :
    (stateAfter (act s)).journal = offered s.journal es := by
  have h_own : act s = retold s.journal es (act s) := h s.journal
  rw [h_own, stateAfter_retold]
  rfl

/-- **What an operation tells** does not depend on the journal, and neither does anything else of
it. -/
theorem Does.exists_log (h : s.Does op ms o t) :
    ∃ log, Logged (fun s t => s.Does op ms o t) log ms s t := by
  cases h with
  | load bytes address =>
    have h_load := fun j => load_withJournal s j bytes address
    have h_events := eventsOf_notes (loading bytes address)
    refine ⟨(loading bytes address).map .note, .ofNotes fun e he => ?_, ?_, fun j => ?_⟩
    · rw [level_of_mem_loading he]
      decide
    · rw [h_events, journal_of_retold h_load]
    · have h_does := Does.load (s := s.withJournal j) bytes address
      rwa [h_load, observe_retold, stateAfter_retold, ← h_events] at h_does
  | step =>
    have h_step := step_withJournal s
    have h_events : eventsOf [.attempt s.machine] = s.machine.announcements :=
      (eventsOf_attempts [s.machine]).trans (List.append_nil _)
    refine ⟨[.attempt s.machine], .ofAttempts [s.machine], ?_, fun j => ?_⟩
    · rw [h_events, journal_of_retold h_step]
    · have h_does := Does.step (s := s.withJournal j)
      rwa [h_step, observe_retold, stateAfter_retold, ← h_events] at h_does
  | run n =>
    have h_run := fun j => run_withJournal s j n
    refine ⟨_, tells_runLog s n _, journal_of_retold h_run, fun j => ?_⟩
    have h_does := Does.run (s := s.withJournal j) n
    rwa [h_run, observe_retold, stateAfter_retold] at h_does
  | @runToEnd fuel r h_end =>
    have h_run (j : Option Journal) : runToEnd? fuel (s.withJournal j)
        = some (retold j (eventsOf (s.runLog fuel r)) r) := by
      rw [runToEnd?_withJournal, h_end, Option.map_some]
    refine ⟨s.runLog fuel r, tells_runLog s fuel r, ?_, fun j => ?_⟩
    · have h_own : r = retold s.journal (eventsOf (s.runLog fuel r)) r :=
        Option.some.inj (h_end.symm.trans (h_run s.journal))
      exact (congrArg (fun r => (stateAfter r).journal) h_own).trans
        (congrArg journal (stateAfter_retold r))
    · have h_does := Does.runToEnd (s := s.withJournal j) (h_run j)
      rwa [observe_retold, stateAfter_retold] at h_does

/-- What operations tell is what each of them tells. -/
theorem Performs.exists_log (h : s.Performs ops ms os u) :
    ∃ log, Logged (fun s u => s.Performs ops ms os u) log ms s u := by
  induction h with
  | nil s =>
    refine ⟨[], .ofAttempts [], ?_, fun j => ?_⟩
    · exact (offered_nil s.journal).symm
    · rw [eventsOf, List.flatMap_nil, offered_nil]
      exact .nil _
  | cons first rest ih =>
    obtain ⟨log, h_first⟩ := first.exists_log
    obtain ⟨log', h_rest⟩ := ih
    refine ⟨log ++ log', h_first.tells.append h_rest.tells, ?_, fun j => ?_⟩
    · rw [h_rest.offers, h_first.offers, eventsOf_append, offered_append]
    · rw [eventsOf_append, offered_append]
      exact .cons (h_first.replay j) (h_rest.replay _)

/-! ### What operations come to is determined -/

/-- Where a run without a limit has ended, more fuel attempts no more steps. -/
theorem attempts_of_runToEnd? {fuel fuel' : Nat} {r : EStateM.Result Fault Session Ending}
    (h : runToEnd? fuel s = some r) (h_le : fuel ≤ fuel') :
    s.machine.attempts fuel' = s.machine.attempts fuel := by
  induction fuel generalizing s fuel' with
  | zero =>
    have h_halted : s.machine.halted = true := by
      rw [runToEnd?, advance_zero] at h
      cases h_latch : s.machine.halted with
      | true => rfl
      | false =>
        rw [h_latch] at h
        cases h
    cases fuel' with
    | zero => rfl
    | succ fuel' => exact if_pos h_halted
  | succ fuel ih =>
    obtain ⟨k, rfl⟩ := Nat.exists_eq_add_of_le' h_le
    rw [← Nat.add_assoc, Machine.attempts_succ, Machine.attempts_succ]
    rw [runToEnd?, advance_succ] at h
    by_cases h_halted : s.machine.halted
    · rw [if_pos h_halted, if_pos h_halted]
    · rw [if_neg h_halted] at h ⊢
      rw [if_neg h_halted]
      by_cases h_fault : s.machine.fault? = none
      · rw [h_fault] at h
        have h_next : s.next.machine.attempts (k + fuel) = s.next.machine.attempts fuel :=
          ih h (Nat.le_add_left fuel k)
        rw [if_pos h_fault, if_pos h_fault]
        exact congrArg _ h_next
      · rw [if_neg h_fault, if_neg h_fault]

theorem Does.unique (h : s.Does op ms o t) (h' : s.Does op ms' o' u) :
    ms = ms' ∧ o = o' ∧ t = u := by
  cases h with
  | @runToEnd fuel r h =>
    cases h' with
    | @runToEnd fuel' r' h' =>
      have h_yields : s.Yields none r := ⟨fuel, h⟩
      obtain rfl := h_yields.unique ⟨fuel', h'⟩
      refine ⟨?_, rfl, rfl⟩
      rcases Nat.le_total fuel fuel' with h_le | h_le
      · exact (attempts_of_runToEnd? h h_le).symm
      · exact attempts_of_runToEnd? h' h_le
  -- the other operations are functions
  | _ =>
    cases h'
    exact ⟨rfl, rfl, rfl⟩

theorem Performs.unique (h : s.Performs ops ms os t) (h' : s.Performs ops ms' os' u) :
    ms = ms' ∧ os = os' ∧ t = u := by
  induction h generalizing ms' os' u with
  | nil s =>
    cases h'
    exact ⟨rfl, rfl, rfl⟩
  | cons first rest ih =>
    cases h' with
    | cons first' rest' =>
      obtain ⟨rfl, rfl, rfl⟩ := first.unique first'
      obtain ⟨rfl, rfl, rfl⟩ := ih rest'
      exact ⟨rfl, rfl, rfl⟩

end Operations

/-- What the journal of a session has recorded. -/
def events (s : Session) : List Event := (s.journal.map Journal.events).getD []

/-- A session in any state that keeps a journal at a level, or none. -/
def resumed (m : Machine) (steps : Nat) (threshold : Option Level) : Session :=
  ⟨m, steps, threshold.map .empty⟩

/-- A journal that starts empty records what its threshold admits of what it is offered. -/
theorem events_of_offered {s : Session} {l : Level} {es : List Event}
    (h : s.journal = offered (some (.empty l)) es) :
    s.events = es.filter fun e => l.admits e.level := by
  rw [events, h]
  exact (Journal.events_recordAll (.empty l) es).trans (List.nil_append _)

theorem admits_trace (l : Level) : Level.trace.admits l = true := by
  cases l <;> rfl

/-- **Journals change nothing, and their levels are nested.** From any state of a session,
operations attempt the same steps and can be observed to do the same at every level, and without a
journal. What is recorded at a level is what is recorded at the level of traces, but for the events
that the level does not admit. At the level of traces there is one line for every attempted step
whose instruction lies in memory, whether or not the step succeeds, and none for other steps. The
lines of each step are together, and that line is the first of them. -/
theorem journal_levels (m : Machine) (n : Nat) (ops : List Operation) :
    (∀ l l' ms os u, (resumed m n l).Performs ops ms os u →
      ∃ u', (resumed m n l').Performs ops ms os u') ∧
    (∀ l ms os u ms' os' u', (resumed m n l).Performs ops ms os u →
      (resumed m n l).Performs ops ms' os' u' → ms = ms' ∧ os = os' ∧ u = u') ∧
    (∀ (l : Level) ms os u ms' os' u', (resumed m n l).Performs ops ms os u →
      (resumed m n (some .trace)).Performs ops ms' os' u' →
      u.events = u'.events.filter fun e => l.admits e.level) ∧
    ∀ ms os u, (resumed m n (some .trace)).Performs ops ms os u →
      (u.events.filter (·.level = .trace)).map Event.text = ms.flatMap Machine.traceLine ∧
      ∃ log, Tells log ms ∧ u.events.map Event.text = log.flatMap Entry.lines := by
  -- what is recorded at the level of traces is all that is offered
  have h_trace {u : Session} {es : List Event}
      (h : u.journal = offered (some (.empty .trace)) es) : u.events = es := by
    rw [events_of_offered h]
    exact List.filter_eq_self.2 fun e _ => admits_trace e.level
  refine ⟨?_, ?_, ?_, ?_⟩
  · intro l l' ms os u h
    obtain ⟨log, h_log⟩ := h.exists_log
    exact ⟨_, h_log.replay (l'.map .empty)⟩
  · intro l ms os u ms' os' u' h h'
    exact h.unique h'
  · intro l ms os u ms' os' u' h h'
    obtain ⟨log, h_log⟩ := h'.exists_log
    -- the first session is the second one with another journal in place
    obtain ⟨-, -, rfl⟩ := h.unique (h_log.replay (some (.empty l)))
    rw [h_trace h_log.offers]
    exact events_of_offered rfl
  · intro ms os u h
    obtain ⟨log, h_log⟩ := h.exists_log
    rw [h_trace h_log.offers]
    exact ⟨filter_eventsOf h_log.tells, log, h_log.tells, map_text_eventsOf log⟩

/-- A STOP at the last address is carried out without a line of its own, and a push without room
has its line and fails. -/
theorem journal_levels_at_edges :
    let m : Machine := ⟨{ Registers.zero with pc := 0xFFFF }, Memory.zero, false⟩
    let ops : List Operation := [.load [0x10] 0xFFFF, .load [0x00, 0xC5] 1, .step, .run (some 3)]
    ∃ ms os u u', (resumed m 0 (some .trace)).Performs ops ms os u ∧
      (resumed m 0 (some .info)).Performs ops ms os u' ∧
      u'.events = u.events.filter (fun e => Level.info.admits e.level) ∧
      u'.events.length = 2 ∧
      (u.events.filter (·.level = .trace)).map Event.text
        = ["TRACE 0001  NOP", "TRACE 0002  PUSH BC"] := by
  intro m ops
  have h_all : ∃ ms os u, (resumed m 0 (some .trace)).Performs ops ms os u ∧
      ms.flatMap Machine.traceLine = ["TRACE 0001  NOP", "TRACE 0002  PUSH BC"] ∧
      (u.events.filter (fun e => Level.info.admits e.level)).length = 2 :=
    ⟨_, _, _, .cons (.load _ _) (.cons (.load _ _) (.cons .step (.cons (.run 3) (.nil _)))),
      by decide, by decide⟩
  obtain ⟨ms, os, u, h, h_lines, h_length⟩ := h_all
  obtain ⟨u', h'⟩ := (journal_levels m 0 ops).1 _ (some .info) _ _ _ h
  have h_events := (journal_levels m 0 ops).2.2.1 .info _ _ _ _ _ _ h' h
  refine ⟨ms, os, u, u', h, h', h_events, by rw [h_events, h_length], ?_⟩
  exact ((journal_levels m 0 ops).2.2.2 _ _ _ h).1.trans h_lines

end Session

end Sm83
