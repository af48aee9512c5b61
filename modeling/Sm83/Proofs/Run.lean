import Sm83.Session
import Sm83.Proofs.Execution

/-!
# Runs

A run takes steps until the machine has halted, the limit is reached or a step fails.
`Session.Runs k s t` says that `k` steps lead from `s` to `t` and that none of them is taken on
a halted machine: these are the steps of a run. Every run is such a sequence followed by one of
three ends (`exists_runs`), and each end has its own result (`run_of_halted`, `run_of_limit`,
`run_of_fault`).

The journal of a session tells what has happened and plays no part in it. Sessions that agree in
machine and number of steps, `Session.Agrees`, therefore run alike (`run_congr`).

The main statements:

* `failures_keep_state` — a step that fails changes nothing, so a run that fails stays where
  its last successful step has led it, and the next step from there fails in the same way;
* `run_splits_and_halts` — a run can be interrupted and taken up again, and it halts
  exactly when the bare iteration of steps comes upon a halted machine within the limit.
-/

namespace Sm83.Session

/-! ### Steps of a session -/

/-- The session after its next step has been announced. -/
def announce (s : Session) : Session :=
  { s with journal := s.journal.map (·.recordAll s.machine.announcements) }

/-- The session after its next step, if that succeeds. -/
def next (s : Session) : Session :=
  { s.announce with machine := s.machine.next, steps := s.steps + 1 }

/-- A step of a session is announced, taken by the machine, and counted if it succeeds. -/
theorem step_eq (s : Session) :
    step s = match s.machine.fault? with
      | some f => .error f s.announce
      | none => .ok s.machine.nextPc s.next := by
  change (onMachine Machine.step >>= _) s.announce = _
  have h_step := Machine.step_eq s.announce.machine
  cases h_fault : s.machine.fault? with
  | some f =>
    rw [show s.announce.machine.fault? = some f from h_fault] at h_step
    have h_act : onMachine Machine.step s.announce = .error f s.announce := by
      rw [onMachine, h_step]
    rw [bind_error h_act]
  | none =>
    rw [show s.announce.machine.fault? = none from h_fault] at h_step
    have h_act : onMachine Machine.step s.announce
        = .ok s.machine.nextPc { s.announce with machine := s.machine.next } := by
      rw [onMachine, h_step]
      rfl
    rw [bind_ok h_act]
    rfl

theorem step_of_fault {s : Session} {f : Fault} (h : s.machine.fault? = some f) :
    step s = .error f s.announce := by
  rw [step_eq, h]

theorem step_of_no_fault {s : Session} (h : s.machine.fault? = none) :
    step s = .ok s.machine.nextPc s.next := by
  rw [step_eq, h]

theorem step_eq_error_iff {s t : Session} {f : Fault} :
    step s = .error f t ↔ s.machine.fault? = some f ∧ t = s.announce := by
  rw [step_eq]
  cases s.machine.fault? <;> simp [eq_comm]

theorem step_eq_ok_iff {s t : Session} {pc : Word} :
    step s = .ok pc t ↔ s.machine.fault? = none ∧ pc = s.machine.nextPc ∧ t = s.next := by
  rw [step_eq]
  cases s.machine.fault? <;> simp [eq_comm]

theorem advance_zero (s : Session) : advance 0 s = .ok s.machine.halted s := rfl

/-- One more step allowed: none is taken on a halted machine, and otherwise it fails or leads
on. -/
theorem advance_succ (n : Nat) (s : Session) :
    advance (n + 1) s =
      if s.machine.halted then .ok true s
      else match s.machine.fault? with
        | some f => .error f s.announce
        | none => advance n s.next := by
  cases h_fault : s.machine.fault? with
  | some f => simp only [advance, step_of_fault h_fault]
  | none => simp only [advance, step_of_no_fault h_fault]

/-- Bytes are replaced as a whole, which is recorded, or not at all. -/
theorem overwrite_eq (a : Nat) (bs : List Byte) (e : Event) (s : Session) :
    overwrite a bs e s =
      if a + bs.length ≤ Memory.size then
        .ok () ⟨s.machine.setMemory (s.machine.memory.overwrite a bs), s.steps,
          s.journal.map (·.record e)⟩
      else .error (.blockTooLarge a bs.length) s := by
  change (onMachine (Machine.onMemory (Memory.writeBlock a bs)) >>= fun _ => record e) s = _
  split
  · next h =>
    have h_act : onMachine (Machine.onMemory (Memory.writeBlock a bs)) s
        = .ok () { s with machine := s.machine.setMemory (s.machine.memory.overwrite a bs) } := by
      rw [onMachine, Machine.onMemory_ok (Memory.writeBlock_of_le h)]
    rw [bind_ok h_act]
    rfl
  · next h =>
    have h_act : onMachine (Machine.onMemory (Memory.writeBlock a bs)) s
        = .error (.blockTooLarge a bs.length) s := by
      rw [onMachine, Machine.onMemory_error (Memory.writeBlock_of_lt (Nat.lt_of_not_le h))]
      rfl
    rw [bind_error h_act]

/-- The session after the end of a run has been recorded. -/
def concluded (s : Session) (halted : Bool) : Session :=
  { s with
    journal := s.journal.map
      (·.record (if halted then .halted s.steps else .limitReached s.machine.registers.pc)) }

theorem conclude_eq (halted : Bool) (s : Session) :
    conclude halted s
      = .ok (if halted then .halted else .outOfSteps) (s.concluded halted) := by
  cases halted <;> rfl

/-! ### Sessions in the same state -/

/-- Two sessions are in the same state: they agree in everything but their journals. -/
structure Agrees (s t : Session) : Prop where
  machine : s.machine = t.machine
  steps : s.steps = t.steps

namespace Agrees

theorem refl (s : Session) : s.Agrees s := ⟨rfl, rfl⟩

theorem symm {s t : Session} (h : s.Agrees t) : t.Agrees s := ⟨h.machine.symm, h.steps.symm⟩

theorem trans {s t u : Session} (h : s.Agrees t) (h' : t.Agrees u) : s.Agrees u :=
  ⟨h.machine.trans h'.machine, h.steps.trans h'.steps⟩

end Agrees

theorem agrees_announce (s : Session) : s.announce.Agrees s := ⟨rfl, rfl⟩

theorem agrees_concluded (s : Session) (halted : Bool) : (s.concluded halted).Agrees s :=
  ⟨rfl, rfl⟩

/-- Two results are the same but for what the journals say: they have the same answer and leave
sessions in the same state behind. -/
structure SameResult {α : Type} (r r' : EStateM.Result Fault Session α) : Prop where
  answer : answer r = answer r'
  state : (stateAfter r).Agrees (stateAfter r')

theorem advance_congr {s t : Session} (h : s.Agrees t) (n : Nat) :
    SameResult (advance n s) (advance n t) := by
  induction n generalizing s t with
  | zero =>
    rw [advance_zero, advance_zero, h.machine]
    exact ⟨rfl, h⟩
  | succ n ih =>
    rw [advance_succ, advance_succ, h.machine]
    split
    · exact ⟨rfl, h⟩
    cases t.machine.fault? with
    | some f =>
      -- the announcements may differ, but they go to the journals alone
      exact ⟨rfl, (agrees_announce s).trans (h.trans (agrees_announce t).symm)⟩
    | none =>
      refine ih ⟨?_, ?_⟩
      · exact congrArg Machine.next h.machine
      · exact congrArg (· + 1) h.steps

/-- **The journal plays no part in a run.** -/
theorem run_congr {s t : Session} (h : s.Agrees t) (n : Nat) :
    SameResult (run n s) (run n t) := by
  change SameResult ((advance n >>= conclude) s) ((advance n >>= conclude) t)
  obtain ⟨h_answer, h_state⟩ := advance_congr h n
  cases hs : advance n s with
  | ok halted s' =>
    cases ht : advance n t with
    | ok halted' t' =>
      rw [hs, ht] at h_answer h_state
      cases h_answer
      rw [bind_ok hs, bind_ok ht, conclude_eq, conclude_eq]
      exact ⟨rfl, (agrees_concluded s' _).trans (h_state.trans (agrees_concluded t' _).symm)⟩
    | error f t' =>
      rw [hs, ht] at h_answer
      cases h_answer
  | error f s' =>
    cases ht : advance n t with
    | ok halted' t' =>
      rw [hs, ht] at h_answer
      cases h_answer
    | error f' t' =>
      rw [hs, ht] at h_answer h_state
      cases h_answer
      rw [bind_error hs, bind_error ht]
      exact ⟨rfl, h_state⟩

/-! ### The steps of a run -/

/-- `Runs k s t`: `k` successful steps lead from `s` to `t`, and none of them is taken on a halted
machine. -/
inductive Runs : Nat → Session → Session → Prop where
  | refl (s : Session) : Runs 0 s s
  | step {k : Nat} {s t u : Session} {pc : Word} (awake : s.machine.halted = false)
    (first : Session.step s = .ok pc t) (rest : Runs k t u) : Runs (k + 1) s u

theorem runs_succ_iff {k : Nat} {s t : Session} :
    Runs (k + 1) s t ↔
      s.machine.halted = false ∧ s.machine.fault? = none ∧ Runs k s.next t := by
  constructor
  · rintro (_ | ⟨awake, first, rest⟩)
    obtain ⟨h_fault, -, rfl⟩ := step_eq_ok_iff.1 first
    exact ⟨awake, h_fault, rest⟩
  · rintro ⟨awake, h_fault, rest⟩
    exact .step awake (step_of_no_fault h_fault) rest

theorem Runs.steps_eq {k : Nat} {s t : Session} (h : Runs k s t) : t.steps = s.steps + k := by
  induction h with
  | refl s => rfl
  | step awake first rest ih =>
    obtain ⟨-, -, rfl⟩ := step_eq_ok_iff.1 first
    rw [ih, next]
    simp only
    omega

theorem Runs.reaches {k : Nat} {s t : Session} (h : Runs k s t) : Reaches Session.step k s t := by
  induction h with
  | refl s => exact .refl s
  | step awake first rest ih => exact .step first ih

/-- Iterated steps are those of a run as far as no machine on the way has halted. -/
theorem runs_of_reaches {k : Nat} {s t : Session} (h : Reaches step k s t)
    (h_awake : ∀ j < k, ∀ u, Reaches step j s u → u.machine.halted = false) : Runs k s t := by
  induction h with
  | refl s => exact .refl s
  | step first rest ih =>
    -- what is reached from the second session is reached from the first with one step more
    refine .step (h_awake 0 (Nat.zero_lt_succ _) _ (.refl _)) first (ih fun j hj u hu => ?_)
    exact h_awake (j + 1) (Nat.succ_lt_succ hj) u (.step first hu)

/-- Where iterated steps come upon a halted machine, a run comes upon one, no later than they. -/
theorem exists_runs_of_reaches {k : Nat} {s t : Session} (h : Reaches step k s t)
    (h_halted : t.machine.halted = true) :
    ∃ j ≤ k, ∃ u, Runs j s u ∧ u.machine.halted = true := by
  induction h with
  | refl s => exact ⟨0, Nat.le_refl 0, s, .refl s, h_halted⟩
  | @step k s t u pc first rest ih =>
    cases h_awake : s.machine.halted with
    | true => exact ⟨0, Nat.zero_le _, s, .refl s, h_awake⟩
    | false =>
      obtain ⟨j, hj, v, h_runs, hv⟩ := ih h_halted
      exact ⟨j + 1, Nat.succ_le_succ hj, v, .step h_awake first h_runs, hv⟩

/-- **The ends of a run.** The steps of a run end with a halted machine, at the limit, or before
a step that fails. -/
theorem exists_runs (n : Nat) (s : Session) :
    ∃ k t, Runs k s t ∧
      (k ≤ n ∧ t.machine.halted = true ∨
        k = n ∧ t.machine.halted = false ∨
        k < n ∧ t.machine.halted = false ∧ ∃ f, t.machine.fault? = some f) := by
  induction n generalizing s with
  | zero =>
    -- the latch is looked at before the limit
    refine ⟨0, s, .refl s, ?_⟩
    cases s.machine.halted with
    | true => exact Or.inl ⟨Nat.le_refl 0, rfl⟩
    | false => exact Or.inr (Or.inl ⟨rfl, rfl⟩)
  | succ n ih =>
    cases h_awake : s.machine.halted with
    | true => exact ⟨0, s, .refl s, Or.inl ⟨Nat.zero_le _, h_awake⟩⟩
    | false =>
      cases h_fault : s.machine.fault? with
      | some f =>
        exact ⟨0, s, .refl s, Or.inr (Or.inr ⟨Nat.zero_lt_succ n, h_awake, f, h_fault⟩)⟩
      | none =>
        obtain ⟨k, t, h_runs, h_end⟩ := ih s.next
        refine ⟨k + 1, t, .step h_awake (step_of_no_fault h_fault) h_runs, ?_⟩
        simpa only [Nat.succ_le_succ_iff, Nat.succ_lt_succ_iff, Nat.succ_inj] using h_end

/-- The steps of a run use up the limit one by one. -/
theorem advance_add {k : Nat} {s t : Session} (h : Runs k s t) (n : Nat) :
    advance (k + n) s = advance n t := by
  induction h with
  | refl s => rw [Nat.zero_add]
  | @step k s t u pc awake first rest ih =>
    obtain ⟨h_fault, -, rfl⟩ := step_eq_ok_iff.1 first
    rw [Nat.add_right_comm, advance_succ, awake, h_fault]
    exact ih

section Ends

variable {k n : Nat} {s t : Session} {f : Fault}

theorem advance_of_halted (h : Runs k s t) (h_halted : t.machine.halted = true) (h_le : k ≤ n) :
    advance n s = .ok true t := by
  obtain ⟨m, rfl⟩ := Nat.exists_eq_add_of_le h_le
  rw [advance_add h]
  -- whether or not steps are left, none is taken
  cases m with
  | zero => rw [advance_zero, h_halted]
  | succ m => rw [advance_succ, if_pos h_halted]

theorem advance_of_limit (h : Runs k s t) (h_awake : t.machine.halted = false) :
    advance k s = .ok false t := by
  have h_all := advance_add h 0
  rw [Nat.add_zero] at h_all
  rw [h_all, advance_zero, h_awake]

theorem advance_of_fault (h : Runs k s t) (h_awake : t.machine.halted = false)
    (h_fault : t.machine.fault? = some f) (h_lt : k < n) :
    advance n s = .error f t.announce := by
  -- at least one step is left, the one that fails
  obtain ⟨m, rfl⟩ := Nat.exists_eq_add_of_lt h_lt
  rw [Nat.add_assoc, advance_add h, advance_succ, h_awake, h_fault]
  rfl

theorem run_of_halted (h : Runs k s t) (h_halted : t.machine.halted = true) (h_le : k ≤ n) :
    run n s = .ok .halted (t.concluded true) := by
  change (advance n >>= conclude) s = _
  rw [bind_ok (advance_of_halted h h_halted h_le)]
  rfl

theorem run_of_limit (h : Runs k s t) (h_awake : t.machine.halted = false) :
    run k s = .ok .outOfSteps (t.concluded false) := by
  change (advance k >>= conclude) s = _
  rw [bind_ok (advance_of_limit h h_awake)]
  rfl

theorem run_of_fault (h : Runs k s t) (h_awake : t.machine.halted = false)
    (h_fault : t.machine.fault? = some f) (h_lt : k < n) : run n s = .error f t.announce := by
  change (advance n >>= conclude) s = _
  rw [bind_error (advance_of_fault h h_awake h_fault h_lt)]

/-- What is left of a limit is the limit of the rest of a run. -/
theorem run_add (h : Runs k s t) (n : Nat) : run (k + n) s = run n t := by
  change (advance (k + n) >>= conclude) s = (advance n >>= conclude) t
  have h_advance := advance_add h n
  cases h_rest : advance n t with
  | ok halted u => rw [bind_ok (h_advance.trans h_rest), bind_ok h_rest]
  | error f u => rw [bind_error (h_advance.trans h_rest), bind_error h_rest]

end Ends

/-! ### Runs without a limit -/

/-- `s.Yields limit r`: a run from `s` with this limit has the result `r`. Without a limit, it has
the result that it has with fuel enough to end; a run that never ends has none. -/
def Yields (s : Session) : (limit : Option Nat) → EStateM.Result Fault Session Ending → Prop
  | some limit, r => run limit s = r
  | none, r => ∃ fuel, runToEnd? fuel s = some r

section WithoutLimit

variable {k fuel : Nat} {s t : Session} {f : Fault}

theorem runToEnd?_of_halted (h : Runs k s t) (h_halted : t.machine.halted = true)
    (h_le : k ≤ fuel) : runToEnd? fuel s = some (.ok .halted (t.concluded true)) := by
  rw [runToEnd?, advance_of_halted h h_halted h_le]
  rfl

theorem runToEnd?_of_limit (h : Runs k s t) (h_awake : t.machine.halted = false) :
    runToEnd? k s = none := by
  rw [runToEnd?, advance_of_limit h h_awake]

theorem runToEnd?_of_fault (h : Runs k s t) (h_awake : t.machine.halted = false)
    (h_fault : t.machine.fault? = some f) (h_lt : k < fuel) :
    runToEnd? fuel s = some (.error f t.announce) := by
  rw [runToEnd?, advance_of_fault h h_awake h_fault h_lt]

/-- More fuel never changes a result. -/
theorem runToEnd?_mono {fuel' : Nat} {r : EStateM.Result Fault Session Ending}
    (h : runToEnd? fuel s = some r) (h_le : fuel ≤ fuel') : runToEnd? fuel' s = some r := by
  obtain ⟨k, t, h_runs, ⟨hk, h_halted⟩ | ⟨rfl, h_awake⟩ | ⟨hk, h_awake, f, h_fault⟩⟩ :=
    exists_runs fuel s
  · rw [runToEnd?_of_halted h_runs h_halted hk] at h
    rw [runToEnd?_of_halted h_runs h_halted (Nat.le_trans hk h_le), h]
  · -- out of fuel, there was no result to keep
    rw [runToEnd?_of_limit h_runs h_awake] at h
    cases h
  · rw [runToEnd?_of_fault h_runs h_awake h_fault hk] at h
    rw [runToEnd?_of_fault h_runs h_awake h_fault (Nat.lt_of_lt_of_le hk h_le), h]

end WithoutLimit

/-- A run has at most one result. -/
theorem Yields.unique {s : Session} {limit : Option Nat}
    {r r' : EStateM.Result Fault Session Ending} (h : s.Yields limit r) (h' : s.Yields limit r') :
    r = r' := by
  cases limit with
  | some n => exact h.symm.trans h'
  | none =>
    obtain ⟨fuel, h⟩ := h
    obtain ⟨fuel', h'⟩ := h'
    -- both results are also those of the larger amount of fuel
    have h_max := runToEnd?_mono h (Nat.le_max_left fuel fuel')
    rw [runToEnd?_mono h' (Nat.le_max_right fuel fuel')] at h_max
    exact (Option.some.inj h_max).symm

/-! ### Where a run ends -/

/-- `s.Ends limit t e`: the steps of a run from `s` with this limit, or without one, lead to `t`,
and there it ends with `e`. The machine has halted, or as many steps as the limit allows have been
taken, or there is a step left, which fails. -/
inductive Ends (s : Session) (limit : Option Nat) (t : Session) : Except Fault Ending → Prop where
  | halted {k : Nat} (runs : Runs k s t) (asleep : t.machine.halted = true)
      (within : ∀ n ∈ limit, k ≤ n) : Ends s limit t (.ok .halted)
  | outOfSteps {k : Nat} (runs : Runs k s t) (awake : t.machine.halted = false)
      (used : limit = some k) : Ends s limit t (.ok .outOfSteps)
  | failed {k : Nat} {f : Fault} {u : Session} (runs : Runs k s t)
      (awake : t.machine.halted = false) (fails : Session.step t = .error f u)
      (within : ∀ n ∈ limit, k < n) : Ends s limit t (.error f)

/-- The result of a run that ends at a session. -/
def ended (t : Session) : Except Fault Ending → EStateM.Result Fault Session Ending
  | .ok .halted => .ok .halted (t.concluded true)
  | .ok .outOfSteps => .ok .outOfSteps (t.concluded false)
  | .error f => .error f t.announce

theorem exists_ends (n : Nat) (s : Session) : ∃ t e, s.Ends (some n) t e := by
  obtain ⟨k, t, h_runs, ⟨hk, h_halted⟩ | ⟨rfl, h_awake⟩ | ⟨hk, h_awake, f, h_fault⟩⟩ :=
    exists_runs n s
  · exact ⟨t, _, .halted h_runs h_halted fun _ hn => Option.some.inj hn ▸ hk⟩
  · exact ⟨t, _, .outOfSteps h_runs h_awake rfl⟩
  · refine ⟨t, _, .failed h_runs h_awake (step_of_fault h_fault) fun _ hn => ?_⟩
    exact Option.some.inj hn ▸ hk

section Ends

variable {s t : Session} {limit : Option Nat} {e : Except Fault Ending}

/-- The result of a run is that of its end. -/
theorem Ends.yields (h : s.Ends limit t e) : s.Yields limit (t.ended e) := by
  cases h with
  | @halted k runs asleep within =>
    cases limit with
    | some n => exact run_of_halted runs asleep (within n rfl)
    | none => exact ⟨k, runToEnd?_of_halted runs asleep (Nat.le_refl k)⟩
  | outOfSteps runs awake used =>
    subst used
    exact run_of_limit runs awake
  | @failed k f u runs awake fails within =>
    have h_fault := (step_eq_error_iff.1 fails).1
    cases limit with
    | some n => exact run_of_fault runs awake h_fault (within n rfl)
    | none =>
      -- the fuel has to last for the step that fails
      exact ⟨k + 1, runToEnd?_of_fault runs awake h_fault (Nat.lt_succ_self k)⟩

/-- Without a limit a run ends as with one that it does not use up. -/
theorem Ends.unlimited {n : Nat} (h : s.Ends (some n) t e) (h_end : e ≠ .ok .outOfSteps) :
    s.Ends none t e := by
  cases h with
  | halted runs asleep within => exact .halted runs asleep nofun
  | outOfSteps runs awake used => exact absurd rfl h_end
  | failed runs awake fails within => exact .failed runs awake fails nofun

/-- A run that has a result has ended somewhere. -/
theorem exists_ends_of_yields {r : EStateM.Result Fault Session Ending} (h : s.Yields limit r) :
    ∃ t e, s.Ends limit t e ∧ r = t.ended e := by
  cases limit with
  | some n =>
    obtain ⟨t, e, h_ends⟩ := exists_ends n s
    exact ⟨t, e, h_ends, h.unique h_ends.yields⟩
  | none =>
    have ⟨fuel, h_fuel⟩ := h
    obtain ⟨t, e, h_ends⟩ := exists_ends fuel s
    have h_end : e ≠ .ok .outOfSteps := by
      rintro rfl
      -- out of fuel, there would be no result
      cases h_ends with
      | outOfSteps runs awake used =>
        cases used
        rw [runToEnd?_of_limit runs awake] at h_fuel
        cases h_fuel
    have h_ends := h_ends.unlimited h_end
    exact ⟨t, e, h_ends, h.unique h_ends.yields⟩

theorem Runs.congr {k : Nat} {s' : Session} (h : Runs k s t) (h_agrees : s.Agrees s') :
    ∃ t', Runs k s' t' ∧ t.Agrees t' := by
  induction h generalizing s' with
  | refl s => exact ⟨s', .refl s', h_agrees⟩
  | @step k s t u pc awake first rest ih =>
    obtain ⟨h_fault, -, rfl⟩ := step_eq_ok_iff.1 first
    have h_next : s.next.Agrees s'.next :=
      ⟨congrArg Machine.next h_agrees.machine, congrArg (· + 1) h_agrees.steps⟩
    obtain ⟨u', h_rest, hu⟩ := ih h_next
    rw [h_agrees.machine] at awake h_fault
    exact ⟨u', .step awake (step_of_no_fault h_fault) h_rest, hu⟩

/-- Sessions in the same state end in the same way and in the same state. -/
theorem Ends.congr {s' : Session} (h : s.Ends limit t e) (h_agrees : s.Agrees s') :
    ∃ t', s'.Ends limit t' e ∧ t.Agrees t' := by
  cases h with
  | halted runs asleep within =>
    obtain ⟨t', h_runs, h_same⟩ := runs.congr h_agrees
    exact ⟨t', .halted h_runs (h_same.machine ▸ asleep) within, h_same⟩
  | outOfSteps runs awake used =>
    obtain ⟨t', h_runs, h_same⟩ := runs.congr h_agrees
    exact ⟨t', .outOfSteps h_runs (h_same.machine ▸ awake) used, h_same⟩
  | failed runs awake fails within =>
    obtain ⟨t', h_runs, h_same⟩ := runs.congr h_agrees
    -- the step fails by its machine, whatever session it is taken in
    have h_fault := (step_eq_error_iff.1 fails).1
    rw [h_same.machine] at h_fault
    exact ⟨t', .failed h_runs (h_same.machine ▸ awake) (step_of_fault h_fault) within, h_same⟩

end Ends

/-! ### Failures -/

theorem exists_runs_of_advance_error {n : Nat} {s u : Session} {f : Fault}
    (h : advance n s = .error f u) :
    ∃ k t, Runs k s t ∧ t.machine.fault? = some f ∧ u = t.announce := by
  obtain ⟨k, t, h_runs, ⟨hk, h_halted⟩ | ⟨rfl, h_awake⟩ | ⟨hk, h_awake, f', h_fault⟩⟩ :=
    exists_runs n s
  · rw [advance_of_halted h_runs h_halted hk] at h
    cases h
  · rw [advance_of_limit h_runs h_awake] at h
    cases h
  · rw [advance_of_fault h_runs h_awake h_fault hk] at h
    cases h
    exact ⟨k, t, h_runs, h_fault, rfl⟩

/-- Whatever its limit, a run that fails has come to a step that fails, and leaves behind the
session in which that step has been announced. -/
theorem exists_runs_of_error {s u : Session} {limit : Option Nat} {f : Fault}
    (h : s.Yields limit (.error f u)) :
    ∃ k t, Runs k s t ∧ t.machine.fault? = some f ∧ u = t.announce := by
  cases limit with
  | some n =>
    change (advance n >>= conclude) s = .error f u at h
    cases h_advance : advance n s with
    | ok halted t =>
      -- recording the end does not fail
      rw [bind_ok h_advance, conclude_eq] at h
      cases h
    | error f' t =>
      rw [bind_error h_advance] at h
      cases h
      exact exists_runs_of_advance_error h_advance
  | none =>
    obtain ⟨fuel, h⟩ := h
    rw [runToEnd?] at h
    split at h
    · next t h_advance =>
      rw [conclude_eq] at h
      cases h
    · cases h
    · next f' t h_advance =>
      cases h
      exact exists_runs_of_advance_error h_advance

/-- **Failures keep the state.** A step that fails leaves the machine, and in a session also the
count of steps, exactly as they were. So a run that fails, with or without a limit, leaves the
state that its last successful step has led to, and the next step from there fails in the same
way. -/
theorem failures_keep_state :
    (∀ (s t : Machine) (f : Fault), Machine.step s = .error f t → t = s) ∧
      (∀ (s t : Session) (f : Fault), step s = .error f t → t.Agrees s) ∧
      ∀ (s u : Session) (limit : Option Nat) (f : Fault), s.Yields limit (.error f u) →
        ∃ k t, Runs k s t ∧ step t = .error f u ∧ u.Agrees t ∧
          ∃ v, step u = .error f v ∧ v.Agrees u := by
  refine ⟨fun s t f h => (Machine.step_eq_error_iff.1 h).2, fun s t f h => ?_,
    fun s u limit f h => ?_⟩
  · obtain ⟨-, rfl⟩ := step_eq_error_iff.1 h
    exact agrees_announce s
  · obtain ⟨k, t, h_runs, h_fault, rfl⟩ := exists_runs_of_error h
    -- announcing the step does not touch the machine, which therefore fails again
    have h_again : t.announce.machine.fault? = some f := h_fault
    exact ⟨k, t, h_runs, step_of_fault h_fault, agrees_announce t, t.announce.announce,
      step_of_fault h_again, agrees_announce _⟩

/-- A program that passes over a NOP and then pushes without room for it: the run stops before
the push, and the next step fails as it did. -/
theorem failures_keep_state_after_nop :
    let s : Session :=
      ⟨⟨{ Registers.zero with sp := 1 }, Memory.zero.set 1 0xC5, false⟩, 0, none⟩
    ∃ u, s.Yields (some 5) (.error (.stackOverflow 1) u) ∧
      ∃ k t, Runs k s t ∧ step t = .error (.stackOverflow 1) u ∧ u.Agrees t ∧
        ∃ v, step u = .error (.stackOverflow 1) v ∧ v.Agrees u := by
  intro s
  have h_fails : run 5 s = .error (.stackOverflow 1) s.next.announce := by
    have h_nop : s.machine.fault? = none := by decide
    have h_push : s.next.machine.fault? = some (.stackOverflow 1) := by decide
    exact run_of_fault (.step rfl (step_of_no_fault h_nop) (.refl _)) (by decide) h_push
      (by decide)
  exact ⟨_, h_fails, failures_keep_state.2.2 s _ (some 5) _ h_fails⟩

/-! ### Interrupted runs -/

/-- **A run can be interrupted.** Two runs one after the other leave the state that one run with
the limits added leaves, and the second has the result of that run. Only where the first has
failed, and the second has no step to find that out, it has used up its steps instead. -/
theorem run_run (s : Session) (a b : Nat) :
    (stateAfter (run b (stateAfter (run a s)))).Agrees (stateAfter (run (a + b) s)) ∧
      answer (run b (stateAfter (run a s))) =
        if b = 0 ∧ ¬(answer (run a s)).isOk then .ok .outOfSteps else answer (run (a + b) s) := by
  obtain ⟨k, t, h_runs, ⟨hk, h_halted⟩ | ⟨rfl, h_awake⟩ | ⟨hk, h_awake, f, h_fault⟩⟩ :=
    exists_runs a s
  · -- the second run finds the machine halted
    have h_first := run_of_halted h_runs h_halted hk
    have h_whole := run_of_halted h_runs h_halted (Nat.le_trans hk (Nat.le_add_right a b))
    have h_second := run_of_halted (.refl t) h_halted (Nat.zero_le b)
    have h_same := run_congr (agrees_concluded t true) b
    have h_ok : (answer (run a s)).isOk := by rw [h_first]; rfl
    rw [h_second] at h_same
    rw [if_neg fun h => h.2 h_ok, h_first, h_whole]
    exact ⟨h_same.state, h_same.answer⟩
  · -- the second run takes up what the first has left
    have h_first := run_of_limit h_runs h_awake
    have h_same := run_congr (agrees_concluded t false) b
    have h_ok : (answer (run k s)).isOk := by rw [h_first]; rfl
    rw [if_neg fun h => h.2 h_ok, h_first, run_add h_runs]
    exact ⟨h_same.state, h_same.answer⟩
  · -- the second run meets the step at which the first has failed, if it takes one
    have h_first := run_of_fault h_runs h_awake h_fault hk
    have h_whole :=
      run_of_fault h_runs h_awake h_fault (Nat.lt_of_lt_of_le hk (Nat.le_add_right a b))
    have h_same := run_congr (agrees_announce t) b
    have h_failed : ¬(answer (run a s)).isOk := by rw [h_first]; exact Bool.false_ne_true
    cases b with
    | zero =>
      rw [run_of_limit (.refl t) h_awake] at h_same
      rw [if_pos ⟨rfl, h_failed⟩, h_first, h_whole]
      refine ⟨h_same.state.trans ?_, h_same.answer⟩
      exact (agrees_concluded t false).trans (agrees_announce t).symm
    | succ b =>
      rw [run_of_fault (.refl t) h_awake h_fault (Nat.zero_lt_succ b)] at h_same
      rw [if_neg fun h => Nat.succ_ne_zero b h.1, h_first, h_whole]
      exact ⟨h_same.state, h_same.answer⟩

/-- A run halts exactly when iterated steps come upon a halted machine within the limit. -/
theorem answer_run_eq_halted_iff (s : Session) (n : Nat) :
    answer (run n s) = .ok .halted ↔
      ∃ k ≤ n, ∃ t, Reaches step k s t ∧ t.machine.halted = true := by
  constructor
  · intro h
    obtain ⟨k, t, h_runs, ⟨hk, h_halted⟩ | ⟨rfl, h_awake⟩ | ⟨hk, h_awake, f, h_fault⟩⟩ :=
      exists_runs n s
    · exact ⟨k, hk, t, h_runs.reaches, h_halted⟩
    · rw [run_of_limit h_runs h_awake] at h
      cases h
    · rw [run_of_fault h_runs h_awake h_fault hk] at h
      cases h
  · rintro ⟨k, hk, t, h_reaches, h_halted⟩
    -- a run may have stopped earlier than there
    obtain ⟨j, hj, u, h_runs, hu⟩ := exists_runs_of_reaches h_reaches h_halted
    rw [run_of_halted h_runs hu (Nat.le_trans hj hk)]
    rfl

/-- A run halts at the first halted machine, whatever its limit, and without one. -/
theorem yields_of_first_halted {k : Nat} {s t : Session} (h : Reaches step k s t)
    (h_halted : t.machine.halted = true)
    (h_first : ∀ j < k, ∀ u, Reaches step j s u → u.machine.halted = false) :
    (t.concluded true).steps = s.steps + k ∧
      (∀ n, k ≤ n → s.Yields (some n) (.ok .halted (t.concluded true))) ∧
      s.Yields none (.ok .halted (t.concluded true)) := by
  have h_runs := runs_of_reaches h h_first
  refine ⟨?_, fun n hn => run_of_halted h_runs h_halted hn, k, ?_⟩
  · rw [(agrees_concluded t true).steps, h_runs.steps_eq]
  · exact runToEnd?_of_halted h_runs h_halted (Nat.le_refl k)

/-- **Runs split, and halt where the steps do.** A run can be interrupted and taken up again, as
`run_run` says. It halts exactly when iterated steps come upon a halted machine within its
limit. It then has taken as few steps as lead to one, and every greater limit, or none, gives
the same session. -/
theorem run_splits_and_halts (s : Session) :
    (∀ a b, (stateAfter (run b (stateAfter (run a s)))).Agrees (stateAfter (run (a + b) s)) ∧
      answer (run b (stateAfter (run a s))) =
        if b = 0 ∧ ¬(answer (run a s)).isOk then .ok .outOfSteps
        else answer (run (a + b) s)) ∧
      (∀ n, answer (run n s) = .ok .halted ↔
        ∃ k ≤ n, ∃ t, Reaches step k s t ∧ t.machine.halted = true) ∧
      ∀ k t, Reaches step k s t → t.machine.halted = true →
        (∀ j < k, ∀ u, Reaches step j s u → u.machine.halted = false) →
          ∃ u, u.Agrees t ∧ u.steps = s.steps + k ∧
            (∀ n, k ≤ n → run n s = .ok .halted u) ∧
            ∀ r, s.Yields none r ↔ r = .ok .halted u := by
  refine ⟨run_run s, answer_run_eq_halted_iff s, fun k t h h_halted h_first => ?_⟩
  obtain ⟨h_steps, h_limit, h_none⟩ := yields_of_first_halted h h_halted h_first
  refine ⟨t.concluded true, agrees_concluded t true, h_steps, h_limit, fun r => ?_⟩
  exact ⟨fun h' => h'.unique h_none, fun h' => h' ▸ h_none⟩

/-- A NOP and a HALT: two steps are enough, the last one permitted is the HALT itself. -/
theorem run_splits_and_halts_at_limit :
    let s : Session := ⟨⟨Registers.zero, Memory.zero.set 1 0x76, false⟩, 7, none⟩
    ∃ u, u.steps = 9 ∧ run 2 s = .ok .halted u ∧ s.Yields none (.ok .halted u) := by
  intro s
  have h_reaches : Reaches step 2 s s.next.next :=
    .step (step_of_no_fault (by decide)) (.step (step_of_no_fault (by decide)) (.refl _))
  have h_first : ∀ j < 2, ∀ u, Reaches step j s u → u.machine.halted = false := by
    intro j hj u hu
    match j, hu with
    | 0, .refl _ => rfl
    | 1, .step first (.refl _) =>
      obtain ⟨-, -, rfl⟩ := step_eq_ok_iff.1 first
      decide
  obtain ⟨u, -, h_steps, h_limit, h_none⟩ :=
    (run_splits_and_halts s).2.2 2 _ h_reaches (by decide) h_first
  exact ⟨u, h_steps, h_limit 2 (Nat.le_refl 2), (h_none _).2 rfl⟩

end Sm83.Session
