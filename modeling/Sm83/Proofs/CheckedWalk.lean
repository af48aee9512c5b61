import Mathlib.Data.PFun
import Sm83.Proofs.CheckedStep
import Sm83.Proofs.Listing
import Sm83.Proofs.Writes

/-!
# Walks with traps

Listings and windows are loops that go on until an address or a list has become large enough.
`Memory` gives them their number of turns beforehand. Here a loop is what it is (`loop`): it takes
one turn after the other, it traps if a turn does, and it has no value if the turns never end. So to
have a value means that it ends.

`loop_eq_some` is the rule for such loops. A turn yields the result, or it leaves less to do for the
same result. Both walks leave less to do because no instruction is empty: what is left is the
distance to the limit, and every turn moves the address on by the length of an instruction.

`nothing_traps` puts this together with steps. Steps, listings and windows come to what they come to
without any of the checks.
-/

namespace Sm83.Checked

variable {σ α : Type}

/-! ### Loops -/

/-- Takes turns until one of them yields a result and not another state. There is no value if a turn
traps, and none if the turns never end. -/
def loop (turn : σ → Option (α ⊕ σ)) : σ →. α := PFun.fix fun s => Part.ofOption (turn s)

/-- **A loop ends with its result** if each turn either yields it or leaves less to do for it. -/
theorem loop_eq_some {turn : σ → Option (α ⊕ σ)} {result : σ → α} (left : σ → Nat)
    (turns : ∀ s, turn s = some (.inl (result s)) ∨
      ∃ t, turn s = some (.inr t) ∧ left t < left s ∧ result t = result s) (s : σ) :
    loop turn s = Part.some (result s) := by
  rw [Part.eq_some_iff]
  -- by induction on what is left to do
  induction h_left : left s using Nat.strong_induction_on generalizing s with
  | _ n ih =>
    obtain h_done | ⟨t, h_again, less, same⟩ := turns s
    · exact PFun.fix_stop (Part.mem_ofOption.2 h_done)
    · have forth : Sum.inr t ∈ Part.ofOption (turn s) := Part.mem_ofOption.2 h_again
      have on : loop turn s = loop turn t := PFun.fix_fwd_eq forth
      rw [on, ← same]
      exact ih (left t) (h_left ▸ less) t rfl

/-! ### Walks through code -/

/-- How far a walk has come, and what it has found on the way. -/
structure Walk (α : Type) where
  address : Size
  found : List α

/-- The byte at an address, from the list of all bytes. It traps where the list has ended. -/
def byteAt (m : Memory) (a : Size) : Option Byte := m.toList[a.toNat]?

/-- The address behind the instruction at an address. -/
def behind (m : Memory) (a : Size) : Option Size := do
  let decode ← entry (← byteAt m a)
  plus a (.ofNat 64 (decode 0 0).length)

/-- The line for the instruction at `pc`, if it lies in memory as a whole. -/
def lineAt? (m : Memory) (pc : Word) : Option (Option Line) := do
  match ← (instructionAt m pc).run with
  | .ok i => return some ⟨pc, i⟩
  | .error _ => return none

section Walks

variable (m : Memory) {a : Size}

theorem byteAt_eq (inside : a.toNat < Memory.size) :
    byteAt m a = some (m.get (.ofNat 16 a.toNat)) := by
  have there : (List.range Memory.size)[a.toNat]? = some a.toNat := List.getElem?_range inside
  rw [byteAt, Memory.toList_eq, List.getElem?_map, there, Option.map_some]

theorem byteAt_eq_none_iff : byteAt m a = none ↔ 0x10000 ≤ a.toNat := by
  rw [byteAt, List.getElem?_eq_none_iff, Memory.toList_eq, List.length_map, List.length_range]
  rfl

theorem exists_behind_instruction (inside : a.toNat < Memory.size) :
    ∃ next, behind m a = some next ∧ next.toNat = m.behind a.toNat := by
  have length_le : m.lengthAt (.ofNat 16 a.toNat) ≤ 3 := Instruction.encodedLength_le _
  have fits : a.toNat + m.lengthAt (.ofNat 16 a.toNat) < 2 ^ 64 := by
    rw [Memory.size] at inside
    omega
  obtain ⟨next, h_next, sum⟩ := exists_offset fits
  refine ⟨next, ?_, sum⟩
  rw [behind, byteAt_eq m inside, Option.bind_eq_bind, Option.bind_some, entry_eq]
  exact h_next

theorem lineAt?_eq (pc : Word) : lineAt? m pc = some (m.lineAt? pc) := by
  rw [lineAt?, instructionAt_eq, Memory.lineAt?]
  cases m.instructionAt pc <;> rfl

end Walks

/-! ### Listings -/

/-- A turn of a listing: one more line, unless there are enough of them or memory has come to its
end. -/
def listTurn (m : Memory) (count : Size) (w : Walk Line) : Option (List Line ⊕ Walk Line) :=
  if w.found.length < count.toNat ∧ w.address.toNat < Memory.size then do
    match ← lineAt? m (w.address.setWidth 16) with
    | some line => return .inr ⟨← behind m w.address, w.found ++ [line]⟩
    | none => return .inl w.found
  else some (.inl w.found)

/-- At most `count` consecutive instructions from `start` on. All the lines that are asked for have
to find room, however many there will be; how much room there may be at most is left open here. -/
def listing (room : Size) (m : Memory) (start : Word) (count : Size) : Part (List Line) :=
  if count ≤ room then loop (listTurn m count) ⟨start.setWidth 64, []⟩ else Part.none

section Listings

variable (m : Memory) (count : Size)

/-- What a listing comes to that has come so far. -/
def listed (w : Walk Line) : List Line :=
  w.found ++ m.linesFrom w.address.toNat (count.toNat - w.found.length)

variable {m count} {w : Walk Line}

theorem listed_of_full (full : count.toNat ≤ w.found.length) : listed m count w = w.found := by
  rw [listed, Nat.sub_eq_zero_of_le full, Memory.linesFrom_zero, List.append_nil]

theorem listed_of_not_fits (cut : ¬m.behind w.address.toNat ≤ Memory.size) :
    listed m count w = w.found := by
  rw [listed]
  cases count.toNat - w.found.length with
  | zero => rw [Memory.linesFrom_zero, List.append_nil]
  | succ n => rw [Memory.linesFrom_succ_eq, if_neg cut, List.append_nil]

/-- One more line is one less to come. -/
theorem listed_append {next : Size} (wanted : w.found.length < count.toNat)
    (fits : m.behind w.address.toNat ≤ Memory.size)
    (toNat_next : next.toNat = m.behind w.address.toNat) :
    listed m count ⟨next, w.found ++ [m.line w.address.toNat]⟩ = listed m count w := by
  obtain ⟨n, h_n⟩ := Nat.exists_eq_add_of_lt wanted
  have more : count.toNat - w.found.length = n + 1 := by omega
  have one_less : count.toNat - (w.found ++ [m.line w.address.toNat]).length = n := by
    rw [List.length_append, List.length_singleton]
    omega
  rw [listed, listed, one_less, more, Memory.linesFrom_succ_eq, if_pos fits, toNat_next,
    List.append_assoc]
  rfl

variable (m count w)

/-- A listing comes to an end because no instruction is empty. -/
theorem listTurn_eq :
    listTurn m count w = some (.inl (listed m count w)) ∨
      ∃ v, listTurn m count w = some (.inr v) ∧
        Memory.size - v.address.toNat < Memory.size - w.address.toNat ∧
        listed m count v = listed m count w := by
  unfold listTurn
  by_cases goes : w.found.length < count.toNat ∧ w.address.toNat < Memory.size
  · obtain ⟨wanted, inside⟩ := goes
    obtain ⟨next, h_next, toNat_next⟩ := exists_behind_instruction m inside
    -- the distance to the end of memory shrinks by the length of the instruction
    have forth := m.lt_behind w.address.toNat
    have line := Memory.lineAt?_ofNat (m := m) inside
    rw [BitVec.ofNat_toNat] at line
    rw [if_pos ⟨wanted, inside⟩, lineAt?_eq, line, h_next]
    by_cases fits : m.behind w.address.toNat ≤ Memory.size
    · right
      rw [if_pos fits]
      refine ⟨_, rfl, ?_, listed_append wanted fits toNat_next⟩
      simp only
      omega
    · left
      rw [if_neg fits, listed_of_not_fits fits]
      rfl
  · left
    rw [if_neg goes]
    -- either there are lines enough, or nothing fits behind the end of memory
    obtain wanted | full := Nat.lt_or_ge w.found.length count.toNat
    · have cut : ¬m.behind w.address.toNat ≤ Memory.size := fun fits =>
        goes ⟨wanted, Nat.lt_of_lt_of_le (m.lt_behind _) fits⟩
      rw [listed_of_not_fits cut]
    · rw [listed_of_full full]

/-- **A listing ends without a trap** if there is room for the lines that are asked for. -/
theorem listing_eq {room : Size} (enough : count ≤ room) (start : Word) :
    listing room m start count = Part.some (m.linesFrom start.toNat count.toNat) := by
  rw [listing, if_pos enough, loop_eq_some _ (listTurn_eq m count), listed, toNat_address]
  rfl

end Listings

/-! ### Windows -/

/-- A turn of the walk up to `pc`: one more address below it, if there is one. -/
def precedeTurn (m : Memory) (pc : Word) (w : Walk Word) : Option (List Word ⊕ Walk Word) :=
  if w.address.toNat < pc.toNat then do
    return .inr ⟨← behind m w.address, w.found ++ [w.address.setWidth 16]⟩
  else some (.inl w.found)

/-- A list from a position on. The position may be the end of the list but no further. -/
def slice (l : List α) (skip : Nat) : Option (List α) :=
  if skip ≤ l.length then some (l.drop skip) else none

/-- The last `before` instructions ahead of `pc`, the one at `pc`, and `after` more behind it. -/
def window (room : Size) (m : Memory) (pc : Word) (before after : Size) : Part (List Line) := do
  let preceding ← loop (precedeTurn m pc) ⟨0, []⟩
  let kept ← Part.ofOption (slice preceding (preceding.length - before.toNat))
  let ahead ← Part.ofOption (kept.mapM (lineAt? m))
  let behind ← listing room m pc (← Part.ofOption (plus after 1))
  return ahead.filterMap id ++ behind

section Windows

variable (m : Memory) (pc : Word)

/-- What the walk up to `pc` comes to that has come so far. -/
def preceded (w : Walk Word) : List Word := w.found ++ m.walked w.address.toNat pc.toNat

/-- The walk up to `pc` comes to an end because no instruction is empty. -/
theorem precedeTurn_eq (w : Walk Word) :
    precedeTurn m pc w = some (.inl (preceded m pc w)) ∨
      ∃ v, precedeTurn m pc w = some (.inr v) ∧
        pc.toNat - v.address.toNat < pc.toNat - w.address.toNat ∧
        preceded m pc v = preceded m pc w := by
  unfold precedeTurn
  by_cases below : w.address.toNat < pc.toNat
  · right
    have inside : w.address.toNat < Memory.size := Nat.lt_trans below pc.isLt
    obtain ⟨next, h_next, toNat_next⟩ := exists_behind_instruction m inside
    rw [if_pos below, h_next]
    refine ⟨_, rfl, ?_, ?_⟩
    · have forth := m.lt_behind w.address.toNat
      simp only
      omega
    · rw [preceded, preceded, Memory.walked_of_lt below, toNat_next, List.append_assoc,
        BitVec.ofNat_toNat]
      rfl
  · left
    rw [if_neg below, preceded, Memory.walked_of_le (Nat.not_lt.1 below), List.append_nil]

theorem slice_preceding (before : Nat) :
    slice (m.walked 0 pc.toNat) ((m.walked 0 pc.toNat).length - before)
      = some ((m.preceding pc).take before).reverse := by
  rw [slice, if_pos (Nat.sub_le _ _), Memory.preceding_eq, List.take_reverse, List.reverse_reverse]

theorem mapM_lineAt? (l : List Word) : l.mapM (lineAt? m) = some (l.map m.lineAt?) := by
  have line : lineAt? m = fun a => pure (m.lineAt? a) := funext (lineAt?_eq m)
  rw [line, List.mapM_pure]
  rfl

/-- **A window ends without a trap** if there is room for the lines from `pc` on. -/
theorem window_eq {room : Size} (before : Size) {after : Size}
    (enough : after.toNat + 1 ≤ room.toNat) :
    window room m pc before after = Part.some (m.linesAround pc before.toNat after.toNat) := by
  have room_lt := room.isLt
  obtain ⟨count, h_count, toNat_count⟩ := exists_behind (a := after) (by omega)
  have fits : count ≤ room := by
    rw [BitVec.le_def, toNat_count]
    exact enough
  have preceding : loop (precedeTurn m pc) ⟨0, []⟩ = Part.some (m.walked 0 pc.toNat) :=
    loop_eq_some _ (precedeTurn_eq m pc) ⟨0, []⟩
  have there {β : Type} (b : β) : Part.ofOption (some b) = Part.some b := rfl
  simp only [window, preceding, slice_preceding, mapM_lineAt?, h_count, there,
    listing_eq m count fits, toNat_count, Part.bind_eq_bind, Part.bind_some, List.filterMap_map]
  rfl

end Windows

/-! ### All together -/

/-- **Nothing traps.** The operations trap right where a result leaves its range, and the list of
bytes right behind its end. All the same, whatever the machine, a step and what is announced of it
come to what they come to without any check, and so does a step of a session that can still be
counted. No instruction is empty, so the loops of listings and windows end. They come to the lines
that `Memory` finds without checks, for every address and for all numbers of lines for which there
is room. -/
theorem nothing_traps :
    (∀ (w : Nat) (x y : BitVec w) (k : Nat),
      (plus x y = none ↔ 2 ^ w ≤ x.toNat + y.toNat) ∧
        (minus x y = none ↔ x.toNat < y.toNat) ∧
        (times x y = none ↔ 2 ^ w ≤ x.toNat * y.toNat) ∧
        (shiftLeft x k = none ↔ w ≤ k) ∧
        (shiftRight x k = none ↔ w ≤ k) ∧
        (shiftSigned x k = none ↔ w ≤ k)) ∧
      (∀ m a, byteAt m a = none ↔ 0x10000 ≤ a.toNat) ∧
      (∀ s : Machine,
        step.run.run s = some (answer (Machine.step s), stateAfter (Machine.step s)) ∧
          announcements s = some s.announcements) ∧
      (∀ s : Session, s.steps < 2 ^ 64 - 1 →
        sessionStep.run.run s = some (answer (Session.step s), stateAfter (Session.step s))) ∧
      (∀ code, 1 ≤ Instruction.encodedLength code ∧ Instruction.encodedLength code ≤ 3) ∧
      (∀ room m start count, count ≤ room →
        listing room m start count = Part.some (m.linesFrom start.toNat count.toNat)) ∧
      ∀ room m pc before after, after.toNat + 1 ≤ room.toNat →
        window room m pc before after = Part.some (m.linesAround pc before.toNat after.toNat) := by
  refine ⟨fun w x y k => ⟨plus_eq_none_iff, minus_eq_none_iff, times_eq_none_iff,
      moved_eq_none_iff, moved_eq_none_iff, moved_eq_none_iff⟩,
    fun m a => byteAt_eq_none_iff m, fun s => ⟨follows_step s, announcements_eq s⟩,
    fun s few => sessionStep_eq few,
    fun code => ⟨Instruction.encodedLength_pos code, Instruction.encodedLength_le code⟩, ?_, ?_⟩
  · intro room m start count enough
    exact listing_eq m count enough start
  · intro room m pc before after enough
    exact window_eq m pc before enough

/-- The last step that can be counted adds as much as can be added, from the last address. If there
were room for them, a listing could be asked for as many lines as there are numbers. A window may be
asked for as many ahead of it, since those need no room beforehand. -/
theorem nothing_traps_at_edges :
    let m := Memory.zero.set 0xFFFF 0x8F
    let r : Registers := { Registers.zero with a := 0xFF, flags.carry := true, pc := 0xFFFF }
    let s : Session := ⟨⟨r, m, false⟩, 2 ^ 64 - 2, none⟩
    (∃ t, sessionStep.run.run s = some (.ok 0, t) ∧ t.steps = 2 ^ 64 - 1 ∧
      t.machine.registers.a = 0xFF) ∧
      (∃ l, listing (-1) m 0xFFFE (-1) = Part.some l ∧
        l.map Line.address = [0xFFFE, 0xFFFF]) ∧
      ∃ l, window 1 m 2 (-1) 0 = Part.some l ∧ l.map Line.address = [0, 1, 2] := by
  intro m r s
  obtain ⟨-, -, -, counted, -, listings, windows⟩ := nothing_traps
  have fault : s.machine.fault? = none := by decide
  have around : s.machine.nextPc = 0 := by decide
  have taken := counted s (by decide)
  rw [Session.step_of_no_fault fault, around] at taken
  refine ⟨⟨s.next, taken, rfl, by decide⟩, ?_, ?_⟩
  · exact ⟨_, listings (-1) m 0xFFFE (-1) (by decide), by decide⟩
  · exact ⟨_, windows 1 m 2 (-1) 0 (by decide), by decide⟩

end Sm83.Checked
