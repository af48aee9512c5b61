import Sm83.Proofs.Report
import Sm83.Proofs.Run
import Sm83.Proofs.Writes

/-!
# Running a program

A run is prepared in three stages: the image is loaded, the patches are applied one after the
other, and the pointers are set. The image or a patch may not fit, and then the job ends with
nothing printed. Otherwise the machine starts on memory that a sequence of writes has filled, as
`RunJob.initial` says.

What the job comes to from there on depends on where the run ends and on nothing else.
`RunJob.Reports` says what is reported of each end, line by line where something is printed, and
`perform?_of_ends` and `exists_ends_of_perform?` are the two directions of the connection. The
journal that a job keeps plays no part in it, so the ends are those of a session without a journal.

The main statement, `run_job`, puts this together. Four parts of it rest on more than reading the
program: the address that a failed step is reported with is that of the step, since the step has
left the machine alone; the bytes of memory come from the latest patch that covers them
(`get_initial`); the lines that have been put together are those that the text has
(`pieces_report`); and one of them is marked or none (`filter_isMarked_report`).

A window for which there is no room ends the program in the middle of its report
(`run_job_without_room`).
-/

namespace Sm83

/-- The session after a block has been written and the event recorded. -/
def Session.stored (s : Session) (a : Nat) (bs : List Byte) (e : Event) : Session where
  machine := s.machine.setMemory (s.machine.memory.after [.block a bs])
  steps := s.steps
  journal := s.journal.map (·.record e)

namespace Command

/-! ### Preparations -/

/-- A patch as a call that writes to memory. -/
def Patch.write (p : Patch) : Memory.Write := .block p.address.toNat p.bytes

/-- All bytes of a patch lie in memory. -/
def Patch.Fits (p : Patch) : Prop := p.address.toNat + p.bytes.length ≤ 0x10000

instance (p : Patch) : Decidable p.Fits := Nat.decLe _ _

/-- The byte that a patch puts at `x`, if it covers `x`. -/
def Patch.byteAt (p : Patch) (x : Word) : Option Byte := p.write.put x

/-- A block that fits is written, and one that does not leaves the session alone. -/
theorem explaining_overwrite (explain : Session → Fault → Failure) (a : Nat) (bs : List Byte)
    (e : Event) (s : Session) :
    explaining explain (Session.overwrite a bs e) s =
      if a + bs.length ≤ Memory.size then .ok () (s.stored a bs e)
      else .error (explain s (.blockTooLarge a bs.length)) s := by
  rw [explaining, Session.overwrite_eq]
  by_cases h : a + bs.length ≤ Memory.size
  · -- a single call that succeeds leaves the block written
    have h_after : s.machine.memory.after [.block a bs] = s.machine.memory.overwrite a bs := by
      rw [Memory.after, Memory.after, Memory.Write.call_eq]
      exact congrArg stateAfter (if_pos h)
    rw [if_pos h, if_pos h, Session.stored, h_after]
  · rw [if_neg h, if_neg h]

theorem loadImage_eq (image : String) (bytes : List Byte) (offset : Word) (s : Session) :
    loadImage image (.ok bytes) offset s =
      if offset.toNat + bytes.length ≤ Memory.size then
        .ok () (s.stored offset.toNat bytes (.loaded bytes.length offset.toNat))
      else .error (.unloadable image (.blockTooLarge offset.toNat bytes.length)) s :=
  explaining_overwrite _ _ _ _ _

theorem applyPatch_eq (p : Patch) (s : Session) :
    applyPatch p s =
      if p.Fits then
        .ok () (s.stored p.address.toNat p.bytes (.patched p.bytes.length p.address))
      else .error (.unpatchable p.address (.blockTooLarge p.address.toNat p.bytes.length)) s :=
  explaining_overwrite _ _ _ _ _

theorem forM_applyPatch_cons (p : Patch) (ps : List Patch) (s : Session) :
    (p :: ps).forM applyPatch s =
      if p.Fits then
        ps.forM applyPatch
          (s.stored p.address.toNat p.bytes (.patched p.bytes.length p.address))
      else .error (.unpatchable p.address (.blockTooLarge p.address.toNat p.bytes.length)) s := by
  change (applyPatch p >>= fun _ => ps.forM applyPatch) s = _
  split
  · next h => rw [bind_ok ((applyPatch_eq p s).trans (if_pos h))]
  · next h => rw [bind_error ((applyPatch_eq p s).trans (if_neg h))]

/-- Patches that fit are applied one after the other. -/
theorem exists_forM_applyPatch {ps : List Patch} (h : ∀ p ∈ ps, p.Fits) (s : Session) :
    ∃ t, ps.forM applyPatch s = .ok () t ∧
      t.Agrees
        ⟨s.machine.setMemory (s.machine.memory.after (ps.map Patch.write)), s.steps, none⟩ := by
  induction ps generalizing s with
  | nil => exact ⟨s, rfl, rfl, rfl⟩
  | cons p ps ih =>
    obtain ⟨hp, h⟩ := List.forall_mem_cons.1 h
    rw [forM_applyPatch_cons, if_pos hp]
    -- the rest is applied to the session with the first patch stored, which `after` looks at next
    exact ih h _

/-- The first patch that does not fit is refused. -/
theorem exists_forM_applyPatch_error {before after : List Patch} {p : Patch}
    (h : ∀ q ∈ before, q.Fits) (hp : ¬p.Fits) (s : Session) :
    ∃ t, (before ++ p :: after).forM applyPatch s
      = .error (.unpatchable p.address (.blockTooLarge p.address.toNat p.bytes.length)) t := by
  induction before generalizing s with
  | nil => exact ⟨s, (forM_applyPatch_cons p after s).trans (if_neg hp)⟩
  | cons q before ih =>
    obtain ⟨hq, h⟩ := List.forall_mem_cons.1 h
    rw [List.cons_append, forM_applyPatch_cons, if_pos hq]
    exact ih h _

/-- The machine that a run starts with: the image and the patches have been written, and all
registers are zero but for the pointers. -/
def RunJob.initial (j : RunJob) (bytes : List Byte) : Machine where
  registers := { Registers.zero with pc := j.pc, sp := j.sp }
  memory := Memory.zero.after (.block j.offset.toNat bytes :: j.patches.map Patch.write)
  halted := false

section Preparations

variable {j : RunJob} {bytes : List Byte}

/-- A byte of the initial memory comes from the last patch that covers it, else from the image, and
else is zero. -/
theorem get_initial (h_image : j.offset.toNat + bytes.length ≤ 0x10000)
    (h_patches : ∀ p ∈ j.patches, p.Fits) (x : Word) :
    (j.initial bytes).memory.get x =
      ((j.patches.reverse.findSome? (·.byteAt x)).or
        (Memory.blockAt j.offset.toNat bytes x)).getD 0 := by
  have h_fits : ∀ w ∈ Memory.Write.block j.offset.toNat bytes :: j.patches.map Patch.write,
      w.address + w.bytes.length ≤ Memory.size := by
    refine List.forall_mem_cons.2 ⟨h_image, fun w hw => ?_⟩
    obtain ⟨p, hp, rfl⟩ := List.mem_map.1 hw
    exact h_patches p hp
  -- the image is the first of the writes, so it is the last to be looked at
  rw [RunJob.initial, Memory.get_after, Memory.successes_eq_self h_fits, Memory.get_zero,
    List.reverse_cons, List.findSome?_append, List.findSome?_singleton, ← List.map_reverse,
    List.findSome?_map]
  rfl

theorem exists_prepare (h_image : j.offset.toNat + bytes.length ≤ 0x10000)
    (h_patches : ∀ p ∈ j.patches, p.Fits) (threshold : Option Level) :
    ∃ s, prepare j (.ok bytes) (.start threshold) = .ok () s ∧
      s.Agrees ⟨j.initial bytes, 0, none⟩ := by
  have h_load := (loadImage_eq j.image bytes j.offset (.start threshold)).trans (if_pos h_image)
  obtain ⟨t, h_patched, h_machine, h_steps⟩ := exists_forM_applyPatch h_patches
    ((Session.start threshold).stored j.offset.toNat bytes (.loaded bytes.length j.offset.toNat))
  refine ⟨{ t with machine := (t.machine.setPc j.pc).setSp j.sp }, ?_, ?_, h_steps⟩
  · rw [prepare, bind_ok h_load, bind_ok h_patched]
    rfl
  · -- neither the image nor a patch has touched the registers
    rw [h_machine]
    rfl

theorem prepare_of_image_too_large (h : ¬j.offset.toNat + bytes.length ≤ 0x10000) (s : Session) :
    prepare j (.ok bytes) s
      = .error (.unloadable j.image (.blockTooLarge j.offset.toNat bytes.length)) s := by
  rw [prepare, bind_error ((loadImage_eq j.image bytes j.offset s).trans (if_neg h))]

theorem exists_prepare_of_patch_too_large {before after : List Patch} {p : Patch}
    (h_image : j.offset.toNat + bytes.length ≤ 0x10000)
    (h_patches : j.patches = before ++ p :: after) (h : ∀ q ∈ before, q.Fits) (hp : ¬p.Fits)
    (s : Session) :
    ∃ t, prepare j (.ok bytes) s
      = .error (.unpatchable p.address (.blockTooLarge p.address.toNat p.bytes.length)) t := by
  have h_load := (loadImage_eq j.image bytes j.offset s).trans (if_pos h_image)
  obtain ⟨t, h_error⟩ := exists_forM_applyPatch_error h hp
    (s.stored j.offset.toNat bytes (.loaded bytes.length j.offset.toNat))
  rw [← h_patches] at h_error
  refine ⟨t, ?_⟩
  rw [prepare, bind_ok h_load, bind_error h_error]

end Preparations

/-! ### Execution -/

section Execution

variable {s t : Session} {limit : Option Nat} {e : Except Fault Ending}

/-- What is explained is the result of an action. -/
theorem explaining_congr {α : Type} {act : Session.Action α} {r : EStateM.Result Fault Session α}
    (explain : Session → Fault → Failure) (h : act s = r) :
    explaining explain act s = explaining explain (fun _ => r) s := by
  rw [← h]
  rfl

/-- With fuel enough, what is executed comes to the end of the run. -/
theorem execute?_of_ends (h : s.Ends limit t e) :
    ∃ least, ∀ fuel ≥ least,
      execute? limit fuel s = some (explaining explainStep (fun _ => t.ended e) s) := by
  cases limit with
  | some n =>
    have h_run : Session.run n s = t.ended e := h.yields
    exact ⟨0, fun fuel _ => congrArg some (explaining_congr explainStep h_run)⟩
  | none =>
    obtain ⟨least, h_run⟩ := h.yields
    refine ⟨least, fun fuel h_fuel => ?_⟩
    rw [execute?, Session.runToEnd?_mono h_run h_fuel, Option.map_some]

theorem exists_ends_of_execute? {fuel : Nat} {r : EStateM.Result Failure Session Ending}
    (h : execute? limit fuel s = some r) :
    ∃ t e, s.Ends limit t e ∧ r = explaining explainStep (fun _ => t.ended e) s := by
  cases limit with
  | some n =>
    have h_yields : s.Yields (some n) (Session.run n s) := rfl
    obtain ⟨t, e, h_ends, h_run⟩ := Session.exists_ends_of_yields h_yields
    refine ⟨t, e, h_ends, ?_⟩
    exact (Option.some.inj h).symm.trans (explaining_congr explainStep h_run)
  | none =>
    obtain ⟨r', h_run, rfl⟩ := Option.map_eq_some_iff.1 h
    have h_yields : s.Yields none r' := ⟨fuel, h_run⟩
    obtain ⟨t, e, h_ends, rfl⟩ := Session.exists_ends_of_yields h_yields
    exact ⟨t, e, h_ends, rfl⟩

end Execution

/-! ### Reports -/

/-- Nothing is printed, and the job ends with this failure, in these words. -/
structure Outcome.Fails (o : Outcome) (f : Failure) (words : List String) : Prop where
  output : o.output = ""
  finish : o.finish = .failed f
  status : o.status = some 1
  errors : o.errors = words

/-- The same words may be put together differently. -/
theorem Outcome.Fails.worded {o : Outcome} {f : Failure} {words words' : List String}
    (h : o.Fails f words) (h_words : words = words') : o.Fails f words' := h_words ▸ h

theorem Outcome.failed_fails (f : Failure) (s : Session) : (failed f s).Fails f f.chain :=
  ⟨rfl, rfl, rfl, rfl⟩

/-- `j.Reports room t e o`: the outcome `o` reports that the run of the job has ended at `t` with
`e`. A step that failed is reported as an error, and every other end by what is printed, piece by
piece. -/
def RunJob.Reports (j : RunJob) (room : Room) (t : Session) (e : Except Fault Ending)
    (o : Outcome) : Prop :=
  let m := t.machine.memory
  let pc := t.machine.registers.pc
  match e with
  | .error f =>
    o.Fails (.stepFailed pc f) ["execution failed at pc=" ++ Hex.marked 4 pc.toNat, f.message]
  | .ok ending =>
    if j.window + 1 ≤ room.lines then
      (∃ lines, m.window room pc j.window j.window = some lines ∧
        pieces o.output = headLines t ++ lines.map (rowLine pc) ++ [""]) ∧
      ((pieces o.output).filter IsMarked =
        if pc.toNat + m.lengthAt pc ≤ 0x10000 then
          [">> " ++ Hex.word pc ++ "  " ++ (m.instruction pc).text pc]
        else []) ∧
      if j.strict = true ∧ ending = .outOfSteps then
        o.status = some 1 ∧ o.errors = ["step limit reached without HALT"]
      else o.status = some 0 ∧ o.errors = []
    else pieces o.output = headLines t ++ [""] ∧ o.status = none

/-- A report that breaks off ahead of the window has no marked line. -/
theorem RunJob.Reports.breaks_off {j : RunJob} {room : Room} {t : Session} {ending : Ending}
    {o : Outcome} (h : j.Reports room t (.ok ending) o) (h_room : room.lines < j.window + 1) :
    (pieces o.output).filter IsMarked = [] ∧ o.status = none := by
  rw [RunJob.Reports, if_neg (Nat.not_le.2 h_room)] at h
  refine ⟨?_, h.2⟩
  rw [h.1, List.filter_append, filter_isMarked_headLines]
  decide

/-- The outcome that the result of a run gives. -/
def RunJob.outcome (j : RunJob) (room : Room) : EStateM.Result Failure Session Ending → Outcome
  | .error f s => .failed f s
  | .ok ending s => j.conclude room ending s

theorem headLines_of_agrees {s t : Session} (h : s.Agrees t) : headLines s = headLines t := by
  rw [headLines, headLines, h.machine, h.steps]

theorem conclude_of_le {j : RunJob} {room : Room} (h : j.window + 1 ≤ room.lines)
    (ending : Ending) (s : Session) :
    j.conclude room ending s =
      { output := printed (statusLines s ++
          (s.machine.memory.linesAround s.machine.registers.pc j.window j.window).map
            (windowLine s.machine.registers.pc))
        finish := if j.strict && ending == .outOfSteps then .failed .notHalted else .done
        journal := s.journal } := by
  simp only [RunJob.conclude, Memory.window_of_le h]

/-- A window without room comes to nothing, and what stands ahead of it has been printed. -/
theorem conclude_of_lt {j : RunJob} {room : Room} (h : room.lines < j.window + 1)
    (ending : Ending) (s : Session) :
    j.conclude room ending s = ⟨printed (statusLines s), .crashed, s.journal⟩ := by
  simp only [RunJob.conclude, Memory.window_of_lt h]

theorem reports_conclude (j : RunJob) (room : Room) {t u : Session} (h : u.Agrees t)
    (ending : Ending) : j.Reports room t (.ok ending) (j.conclude room ending u) := by
  rw [RunJob.Reports, ← h.machine, ← headLines_of_agrees h]
  split
  · next h_room =>
    rw [conclude_of_le h_room]
    dsimp only
    have h_pieces := pieces_report u u.machine.registers.pc
      (u.machine.memory.linesAround u.machine.registers.pc j.window j.window)
    refine ⟨⟨_, Memory.window_of_le h_room, h_pieces⟩, ?_, ?_⟩
    · rw [h_pieces]
      exact filter_isMarked_report u _ _ _ _
    · cases j.strict <;> cases ending <;> exact ⟨rfl, rfl⟩
  · next h_room =>
    rw [conclude_of_lt (Nat.lt_of_not_le h_room)]
    dsimp only
    have h_pieces := pieces_report u u.machine.registers.pc []
    rw [List.map_nil, List.map_nil, List.append_nil, List.append_nil] at h_pieces
    exact ⟨h_pieces, rfl⟩

theorem reports_outcome (j : RunJob) (room : Room) {t u : Session} (h : u.Agrees t)
    (e : Except Fault Ending) (s : Session) :
    j.Reports room t e (j.outcome room (explaining explainStep (fun _ => u.ended e) s)) := by
  match e with
  | .error f =>
    -- announcing the step that fails does not touch the program counter
    have h_pc := congrArg (·.registers.pc) h.machine
    rw [RunJob.Reports, ← h_pc]
    exact Outcome.failed_fails (.stepFailed u.machine.registers.pc f) u.announce
  | .ok .halted =>
    exact reports_conclude j room ((Session.agrees_concluded u true).trans h) .halted
  | .ok .outOfSteps =>
    exact reports_conclude j room ((Session.agrees_concluded u false).trans h) .outOfSteps

/-! ### Jobs -/

section Jobs

variable {j : RunJob} {room : Room} {contents : Except ReadFailure (List Byte)}
  {threshold : Option Level} {s : Session}

theorem perform?_eq (j : RunJob) (room : Room) (contents : Except ReadFailure (List Byte))
    (threshold : Option Level) (fuel : Nat) :
    j.perform? room contents threshold fuel = match prepare j contents (.start threshold) with
      | .error f s => some (.failed f s)
      | .ok _ s => (execute? j.maxSteps fuel s).map (j.outcome room) := by
  rw [RunJob.perform?]
  cases prepare j contents (.start threshold) with
  | error f s => rfl
  | ok _ s =>
    simp only
    match execute? j.maxSteps fuel s with
    | none | some (.error f t) | some (.ok ending t) => rfl

/-- A job that cannot be prepared fails with nothing printed. -/
theorem exists_perform?_of_prepare_error {f : Failure}
    (h : prepare j contents (.start threshold) = .error f s) (fuel : Nat) :
    ∃ o, j.perform? room contents threshold fuel = some o ∧ o.Fails f f.chain := by
  refine ⟨.failed f s, ?_, Outcome.failed_fails f s⟩
  rw [perform?_eq, h]

/-- Where a run ends, the job reports its end. -/
theorem perform?_of_ends {s' t : Session} {e : Except Fault Ending}
    (h : prepare j contents (.start threshold) = .ok () s') (h_agrees : s'.Agrees s)
    (h_ends : s.Ends j.maxSteps t e) :
    ∃ o, j.Reports room t e o ∧
      ∃ least, ∀ fuel ≥ least, j.perform? room contents threshold fuel = some o := by
  obtain ⟨t', h_ends', h_same⟩ := h_ends.congr h_agrees.symm
  obtain ⟨least, h_execute⟩ := execute?_of_ends h_ends'
  refine ⟨_, reports_outcome j room h_same.symm e s', least, fun fuel h_fuel => ?_⟩
  rw [perform?_eq, h]
  exact congrArg (Option.map (j.outcome room)) (h_execute fuel h_fuel)

/-- A job that comes to an outcome reports where its run has ended. -/
theorem exists_ends_of_perform? {s' : Session} {fuel : Nat} {o : Outcome}
    (h : prepare j contents (.start threshold) = .ok () s') (h_agrees : s'.Agrees s)
    (h_perform : j.perform? room contents threshold fuel = some o) :
    ∃ t e, s.Ends j.maxSteps t e ∧ j.Reports room t e o := by
  rw [perform?_eq, h] at h_perform
  obtain ⟨r, h_execute, rfl⟩ := Option.map_eq_some_iff.1 h_perform
  obtain ⟨t', e, h_ends', rfl⟩ := exists_ends_of_execute? h_execute
  obtain ⟨t, h_ends, h_same⟩ := h_ends'.congr h_agrees
  exact ⟨t, e, h_ends, reports_outcome j room h_same e s'⟩

/-- What is printed does not depend on whether giving up is a failure. -/
theorem output_strict (j : RunJob) (room : Room) (contents : Except ReadFailure (List Byte))
    (threshold : Option Level) (strict : Bool) (fuel : Nat) :
    (({ j with strict := strict } : RunJob).perform? room contents threshold fuel).map (·.output)
      = (j.perform? room contents threshold fuel).map (·.output) := by
  have h_prepare : prepare { j with strict := strict } contents = prepare j contents := rfl
  rw [perform?_eq, perform?_eq, h_prepare]
  cases prepare j contents (.start threshold) with
  | error f s => rfl
  | ok _ s =>
    simp only [Option.map_map]
    refine congrArg (Option.map · _) (funext fun r => ?_)
    cases r with
    | error f t => rfl
    | ok ending t =>
      -- strictness decides on the finish alone
      change (RunJob.conclude _ room ending t).output = (j.conclude room ending t).output
      rw [RunJob.conclude, RunJob.conclude]
      cases t.machine.memory.window room t.machine.registers.pc j.window j.window <;> rfl

/-- **What running a program comes to.** An image or a patch that does not fit is reported, the
first such patch by its address, and nothing is printed. Otherwise the machine starts on memory in
which the last patch wins, over the image and over zeros, and with all registers zero but for the
pointers. A step that fails is then reported by its address and its fault, and again nothing is
printed. Every other end is shown line by line, if there is room for the window, and is a failure
only of a strict job that has used up its steps. Among the lines shown, the one at the program
counter alone is marked. Exactly the ends of the run are reported, with fuel enough, and with a
limit any fuel is enough. Nothing that is printed depends on whether the job is strict. -/
theorem run_job (j : RunJob) (room : Room) (bytes : List Byte) (threshold : Option Level) :
    let perform := j.perform? room (.ok bytes) threshold
    (¬j.offset.toNat + bytes.length ≤ 0x10000 → ∀ fuel, ∃ o, perform fuel = some o ∧
      o.Fails (.unloadable j.image (.blockTooLarge j.offset.toNat bytes.length))
        ["loading " ++ j.image, "image of " ++ toString bytes.length ++
          " bytes does not fit at offset " ++ Hex.marked 4 j.offset.toNat]) ∧
    (j.offset.toNat + bytes.length ≤ 0x10000 →
      (∀ before p after, j.patches = before ++ p :: after → (∀ q ∈ before, q.Fits) → ¬p.Fits →
        ∀ fuel, ∃ o, perform fuel = some o ∧
          o.Fails (.unpatchable p.address (.blockTooLarge p.address.toNat p.bytes.length))
            ["applying patch at " ++ Hex.marked 4 p.address.toNat,
              "image of " ++ toString p.bytes.length ++ " bytes does not fit at offset " ++
                Hex.marked 4 p.address.toNat]) ∧
      ((∀ p ∈ j.patches, p.Fits) →
        let s : Session := ⟨j.initial bytes, 0, none⟩
        (∀ x, s.machine.memory.get x =
          ((j.patches.reverse.findSome? (·.byteAt x)).or
            (Memory.blockAt j.offset.toNat bytes x)).getD 0) ∧
        (∀ t e, s.Ends j.maxSteps t e → ∃ o, j.Reports room t e o ∧
          ∃ least, ∀ fuel ≥ least, perform fuel = some o) ∧
        (∀ fuel o, perform fuel = some o →
          ∃ t e, s.Ends j.maxSteps t e ∧ j.Reports room t e o) ∧
        ∀ n ∈ j.maxSteps, ∀ fuel, ∃ o, perform fuel = some o)) ∧
    ∀ strict fuel,
      (({ j with strict := strict } : RunJob).perform? room (.ok bytes) threshold fuel).map
          (·.output)
        = (perform fuel).map (·.output) := by
  intro perform
  refine ⟨?_, ?_, output_strict j room _ threshold⟩
  · -- the image is refused
    intro h_image
    exact exists_perform?_of_prepare_error (prepare_of_image_too_large h_image _)
  · intro h_image
    refine ⟨?_, ?_⟩
    · -- a patch is refused
      intro before p after h_patches h hp
      obtain ⟨t, h_prepare⟩ := exists_prepare_of_patch_too_large h_image h_patches h hp
        (.start threshold)
      exact exists_perform?_of_prepare_error h_prepare
    · -- the program is run
      intro h_patches
      obtain ⟨s, h_prepare, h_agrees⟩ := exists_prepare h_image h_patches threshold
      refine ⟨get_initial h_image h_patches, ?_, ?_, ?_⟩
      · intro t e
        exact perform?_of_ends h_prepare h_agrees
      · intro fuel o
        exact exists_ends_of_perform? h_prepare h_agrees
      · intro n hn fuel
        have h_perform : perform fuel
            = some (j.outcome room (explaining explainStep (Session.run n) s)) := by
          rw [show perform fuel = _ from perform?_eq j room _ threshold fuel, h_prepare, hn]
          rfl
        exact ⟨_, h_perform⟩

/-- A job whose second patch runs past the end of memory, one whose patch pushes without room for
it, one whose image does not fit, a strict one without a single step to take, and one that halts,
with all that it prints. -/
theorem run_job_at_edges :
    let late : Patch := ⟨0xFFFF, [0, 0]⟩
    let push : Patch := ⟨0xFFFF, [0xC5]⟩
    let refused : RunJob := ⟨"rom", 0, 0, 0, [push, late], none, 3, false⟩
    let failing : RunJob := ⟨"rom", 0, 0xFFFF, 1, [push], none, 3, false⟩
    let idle : RunJob := ⟨"rom", 0xFFFF, 0xFFFF, 0, [], some 0, 3, true⟩
    let halting : RunJob := ⟨"rom", 0, 0, 0, [], none, 1, true⟩
    (∀ fuel, ∃ o, refused.perform? .ofProcess (.ok []) none fuel = some o ∧
      o.Fails (.unpatchable 0xFFFF (.blockTooLarge 0xFFFF 2))
        ["applying patch at 0xffff", "image of 2 bytes does not fit at offset 0xffff"]) ∧
    (∃ o least, ∀ fuel ≥ least, failing.perform? .ofProcess (.ok []) none fuel = some o ∧
      o.Fails (.stepFailed 0xFFFF (.stackOverflow 1)) ["execution failed at pc=0xffff",
        "stack overflow: cannot push below address 0 (sp=0x0001)"]) ∧
    (∀ fuel, ∃ o, idle.perform? .ofProcess (.ok [0, 0]) none fuel = some o ∧
      o.Fails (.unloadable "rom" (.blockTooLarge 0xFFFF 2))
        ["loading rom", "image of 2 bytes does not fit at offset 0xffff"]) ∧
    (∃ o least, ∀ fuel ≥ least, idle.perform? .ofProcess (.ok [0x3E]) none fuel = some o ∧
      o.status = some 1 ∧ o.errors = ["step limit reached without HALT"] ∧
      (pieces o.output).filter IsMarked = []) ∧
    ∃ o least, ∀ fuel ≥ least,
      halting.perform? .ofProcess (.ok [0x3E, 0x2A, 0x76]) none fuel = some o ∧
      o.status = some 0 ∧
      pieces o.output =
        ["A  = 0x2A   B  = 0x00   C  = 0x00   D  = 0x00",
          "E  = 0x00   H  = 0x00   L  = 0x00   PC = 0x0003",
          "SP = 0x0000",
          "Z = 0   S = 0   P = 0   H = 0   C = 0",
          "HALT: yes   steps: 2",
          "----------------------------------------",
          "   0002  HALT",
          ">> 0003  NOP",
          "   0004  NOP",
          ""] := by
  intro late push refused failing idle halting
  have h_push : Session.Ends ⟨failing.initial [], 0, none⟩ none ⟨failing.initial [], 0, none⟩
      (.error (.stackOverflow 1)) :=
    .failed (.refl _) rfl (Session.step_of_fault (by decide)) nofun
  have h_idle : Session.Ends ⟨idle.initial [0x3E], 0, none⟩ (some 0)
      ⟨idle.initial [0x3E], 0, none⟩ (.ok .outOfSteps) :=
    .outOfSteps (.refl _) rfl rfl
  have h_halting : Session.Ends ⟨halting.initial [0x3E, 0x2A, 0x76], 0, none⟩ none
      (Session.next (Session.next ⟨halting.initial [0x3E, 0x2A, 0x76], 0, none⟩))
      (.ok .halted) :=
    .halted (.step (by decide) (Session.step_of_no_fault (by decide))
      (.step (by decide) (Session.step_of_no_fault (by decide)) (.refl _))) (by decide) nofun
  refine ⟨?_, ?_, ?_, ?_, ?_⟩
  · intro fuel
    obtain ⟨o, h_perform, h_fails⟩ := ((run_job refused .ofProcess [] none).2.1 (by decide)).1
      [push] late [] rfl (by decide) (by decide) fuel
    exact ⟨o, h_perform, h_fails.worded (by decide)⟩
  · obtain ⟨o, h_fails, least, h_perform⟩ :=
      (((run_job failing .ofProcess [] none).2.1 (by decide)).2 (by decide)).2.1 _ _ h_push
    exact ⟨o, least, fun fuel h_fuel => ⟨h_perform fuel h_fuel, h_fails.worded (by decide)⟩⟩
  · intro fuel
    obtain ⟨o, h_perform, h_fails⟩ := (run_job idle .ofProcess [0, 0] none).1 (by decide) fuel
    exact ⟨o, h_perform, h_fails.worded (by decide)⟩
  · obtain ⟨o, h_reports, least, h_perform⟩ :=
      (((run_job idle .ofProcess [0x3E] none).2.1 (by decide)).2 (by decide)).2.1 _ _ h_idle
    rw [RunJob.Reports, if_pos (by decide)] at h_reports
    obtain ⟨-, h_marked, h_strict⟩ := h_reports
    rw [if_pos (by decide)] at h_strict
    refine ⟨o, least, fun fuel h_fuel => ⟨h_perform fuel h_fuel, h_strict.1, h_strict.2, ?_⟩⟩
    exact h_marked.trans (by decide)
  · obtain ⟨o, h_reports, least, h_perform⟩ :=
      (((run_job halting .ofProcess [0x3E, 0x2A, 0x76] none).2.1 (by decide)).2
        (by decide)).2.1 _ _ h_halting
    rw [RunJob.Reports, if_pos (by decide)] at h_reports
    obtain ⟨⟨lines, h_lines, h_pieces⟩, -, h_done⟩ := h_reports
    rw [if_neg (by decide)] at h_done
    rw [Memory.window_of_le (by decide)] at h_lines
    obtain rfl := Option.some.inj h_lines
    refine ⟨o, least, fun fuel h_fuel => ⟨h_perform fuel h_fuel, h_done.1, ?_⟩⟩
    exact h_pieces.trans (by decide)

/-- Where no step is taken and the window has no room, the report breaks off. -/
theorem exists_breaks_off {bytes : List Byte} (h_image : j.offset.toNat + bytes.length ≤ 0x10000)
    (h_patches : ∀ p ∈ j.patches, p.Fits) (h_steps : j.maxSteps = some 0)
    (h_room : room.lines < j.window + 1) :
    ∃ o least, ∀ fuel ≥ least, j.perform? room (.ok bytes) none fuel = some o ∧
      (pieces o.output).filter IsMarked = [] ∧ o.status = none := by
  have h_end : Session.Ends ⟨j.initial bytes, 0, none⟩ j.maxSteps ⟨j.initial bytes, 0, none⟩
      (.ok .outOfSteps) :=
    .outOfSteps (.refl _) rfl h_steps
  obtain ⟨s, h_prepare, h_agrees⟩ := exists_prepare h_image h_patches none
  obtain ⟨o, h_reports, least, h_perform⟩ := perform?_of_ends h_prepare h_agrees h_end
  exact ⟨o, least, fun fuel h_fuel => ⟨h_perform fuel h_fuel, h_reports.breaks_off h_room⟩⟩

/-- **Without room for the window a report breaks off.** A program that fills memory with jumps may
not take a single step. The jump at the program counter lies in memory, so its line would be marked.
But if the window is to go on for `2 ^ 57` lines from there, there is no room for it in a process,
and for `2 ^ 58` lines there is none anywhere. Then no line is marked, and the program comes to a
sudden end. -/
theorem run_job_without_room :
    let jumps := List.replicate 0x10000 (0xC3 : Byte)
    let j : RunJob := ⟨"rom.bin", 0, 0, 0, [], some 0, 2 ^ 57 - 1, false⟩
    let j' : RunJob := { j with window := 2 ^ 58 - 1 }
    j.pc.toNat + (j.initial jumps).memory.lengthAt j.pc ≤ 0x10000 ∧
      (∃ o least, ∀ fuel ≥ least, j.perform? .ofProcess (.ok jumps) none fuel = some o ∧
        (pieces o.output).filter IsMarked = [] ∧ o.status = none) ∧
      ∀ room, ∃ o least, ∀ fuel ≥ least, j'.perform? room (.ok jumps) none fuel = some o ∧
        (pieces o.output).filter IsMarked = [] ∧ o.status = none := by
  intro jumps j j'
  -- nothing but the length of the program counts from here on
  have h_jumps : jumps.length = 0x10000 := List.length_replicate
  clear_value jumps
  have h_image : j.offset.toNat + jumps.length ≤ 0x10000 := by rw [h_jumps]; decide
  have h_image' : j'.offset.toNat + jumps.length ≤ 0x10000 := by rw [h_jumps]; decide
  have h_length : (j.initial jumps).memory.lengthAt j.pc ≤ 3 := Instruction.encodedLength_le _
  have h_pc : j.pc.toNat = 0 := rfl
  refine ⟨by omega, ?_, fun room => ?_⟩
  · exact exists_breaks_off h_image (by decide) rfl (by decide)
  · exact exists_breaks_off h_image' (by decide) rfl room.lines_lt

end Jobs

end Command

end Sm83
