import Sm83.Proofs.Action
import Sm83.Proofs.Checked
import Sm83.Proofs.Fetch

/-!
# Memory with traps

To get at memory, addresses are computed and a table is consulted. An address may lie behind the
last byte of memory, which is a fault and an answer. It may also leave the width of the host's
numbers, and a code may have no entry in the table. Those are no answers but traps, in the sense of
`Checked`. A reading here therefore comes to a value, to a fault, or to nothing (`Fallible`), and so
does a write, which changes memory in place (`Action`).

The tables are `codes` and `bitCodes`, of 256 entries each. They are constants, so what can go wrong
is only that an entry is asked for which they do not have. Addresses are numbers of `Size`, which is
wide enough for the address behind the last byte.

A sequence of readings traps nowhere if none of its parts does (`bind_eq_some`). With that, each way
of reading memory is found to come to what it comes to in `Memory`: `fetch_eq` says so of the
instruction that the processor reads, and `instructionAt_eq` of the one that is listed. For actions
the comparison is `Follows`: the one that might trap comes to the same answer and leaves the same
state as the one that cannot. It is closed under sequences in its turn (`Follows.bind`).
-/

namespace Sm83.Checked

/-- A number as wide as the host's addresses. -/
abbrev Size := BitVec 64

/-- A computation that yields a value, fails, or traps. -/
abbrev Fallible := ExceptT Fault Option

variable {α β : Type}

/-- A value that is there does not interrupt a computation. -/
@[simp] theorem lift_some (a : α) : (liftM (some a : Option α) : Fallible α) = pure a := rfl

/-- A sequence of computations traps nowhere if none of its parts does. -/
theorem bind_eq_some {x : Fallible α} {e : Except Fault α} {k : α → Fallible β}
    {next : α → Except Fault β} (first : x = some e) (rest : ∀ a, k a = some (next a)) :
    x >>= k = some (e >>= next) := by
  subst first
  cases e with
  | ok a => exact rest a
  | error f => rfl

/-! ### Actions that trap -/

/-- An action on a state that yields a value, fails, or traps. If it fails, it leaves a state
behind. -/
abbrev Action (σ : Type) := ExceptT Fault (StateT σ Option)

section Actions

variable {σ : Type}

instance : MonadLift Fallible (Action σ) := ⟨fun x => ExceptT.mk (StateT.lift x.run)⟩

/-- A value that is there does not interrupt an action. -/
theorem lift_there (a : α) : (liftM (some a : Option α) : Action σ α) = pure a := rfl

/-- **An action is followed.** From every state the action `c`, which might trap, comes to the same
answer and to the same state as `act`. -/
def Follows (c : Action σ α) (act : EStateM Fault σ α) : Prop :=
  ∀ s, c.run.run s = some (answer (act s), stateAfter (act s))

/-- What comes after an action goes on with its value and its state, unless it has failed. -/
theorem run_bind (c : Action σ α) (k : α → Action σ β) (s : σ) :
    (c >>= k).run.run s = (c.run.run s).bind fun r =>
      match r.1 with
      | .ok a => (k a).run.run r.2
      | .error f => some (.error f, r.2) := by
  show Option.bind _ _ = _
  congr
  funext ⟨r, t⟩
  cases r <;> rfl

namespace Follows

theorem pure (a : α) : Follows (pure a : Action σ α) (pure a) := fun _ => rfl

theorem get : Follows (get : Action σ σ) get := fun _ => rfl

theorem set (t : σ) : Follows (set t : Action σ PUnit) (set t) := fun _ => rfl

theorem modify (g : σ → σ) : Follows (modify g : Action σ PUnit) (modify g) := fun _ => rfl

theorem lift {x : Fallible α} {e : Except Fault α} (h : x = some e) :
    Follows (liftM x : Action σ α) (MonadExcept.ofExcept e) := by
  subst h
  cases e <;> exact fun _ => rfl

theorem bind {c : Action σ α} {act : EStateM Fault σ α} {k : α → Action σ β}
    {next : α → EStateM Fault σ β} (first : Follows c act) (rest : ∀ a, Follows (k a) (next a)) :
    Follows (c >>= k) (act >>= next) := by
  intro s
  rw [run_bind, first s]
  cases h : act s with
  | ok a t =>
    rw [bind_ok h]
    exact rest a t
  | error f t =>
    rw [bind_error h]
    rfl

end Follows

end Actions

/-! ### Memory -/

/-- The byte at an address. -/
def readByte (m : Memory) (a : Size) : Fallible Byte := MonadExcept.ofExcept (m.readByte a.toNat)

/-- The word at an address, its low byte first. -/
def readWord (m : Memory) (a : Size) : Fallible Word := do
  let low ← readByte m a
  let high ← readByte m (← plus a 1)
  join high low

/-- Replaces the byte at an address. -/
def writeByte (a : Size) (b : Byte) : Action Memory Unit := do
  if Memory.size ≤ a.toNat then
    throw (.outOfRange a.toNat)
  modify (·.set (.ofNat 16 a.toNat) b)

/-- Replaces the two bytes of a word, the low one first, if both of them have an address. -/
def writeWord (a : Size) (w : Word) : Action Memory Unit := do
  let next ← plus a 1
  if Memory.size ≤ next.toNat then
    throw (.outOfRange next.toNat)
  writeByte a w.low
  writeByte next (← high w)

section Memory

variable (m : Memory)

theorem readByte_eq (a : Size) : readByte m a = some (m.readByte a.toNat) := by
  unfold readByte
  cases m.readByte a.toNat <;> rfl

/-- An offset that fits leads as far as its number says. -/
theorem exists_offset {a : Size} {n : Nat} (fits : a.toNat + n < 2 ^ 64) :
    ∃ b : Size, plus a (.ofNat 64 n) = some b ∧ b.toNat = a.toNat + n := by
  have toNat_n : (BitVec.ofNat 64 n).toNat = n := Nat.mod_eq_of_lt (by omega)
  obtain ⟨b, h_b, sum⟩ := exists_plus (x := a) (y := .ofNat 64 n) (by rwa [toNat_n])
  exact ⟨b, h_b, by rw [sum, toNat_n]⟩

/-- There is an address behind every byte of memory, and behind the last one too. -/
theorem exists_behind {a : Size} (fits : a.toNat + 1 < 2 ^ 64) :
    ∃ next : Size, plus a 1 = some next ∧ next.toNat = a.toNat + 1 :=
  exists_offset fits

theorem readWord_eq {a : Size} (fits : a.toNat + 1 < 2 ^ 64) :
    readWord m a = some (m.readWord a.toNat) := by
  obtain ⟨next, h_next, toNat_next⟩ := exists_behind fits
  unfold readWord
  refine bind_eq_some (readByte_eq m a) fun low => ?_
  rw [h_next, lift_some, pure_bind]
  refine bind_eq_some (toNat_next ▸ readByte_eq m next) fun high => ?_
  rw [join_eq]
  rfl

theorem follows_writeByte (a : Size) (b : Byte) :
    Follows (writeByte a b) (Memory.writeByte a.toNat b) := by
  intro m
  unfold writeByte Memory.writeByte
  dsimp only
  split <;> rfl

theorem follows_writeWord {a : Size} (fits : a.toNat + 1 < 2 ^ 64) (w : Word) :
    Follows (writeWord a w) (Memory.writeWord a.toNat w) := by
  obtain ⟨next, h_next, toNat_next⟩ := exists_behind fits
  unfold writeWord Memory.writeWord
  rw [h_next, lift_there, pure_bind, toNat_next]
  dsimp only
  split
  · exact fun _ => rfl
  · refine Follows.bind (follows_writeByte a w.low) fun _ => ?_
    rw [high_eq, lift_there, pure_bind, ← toNat_next]
    exact follows_writeByte next w.high

end Memory

/-! ### Tables -/

/-- What the codes stand for, given the two bytes that follow them. -/
def codes : List (Byte → Byte → Instruction) :=
  (List.range 256).map fun i => Instruction.decode (.ofNat 8 i)

/-- What the codes behind `0xCB` stand for. -/
def bitCodes : List Instruction :=
  (List.range 256).map fun i => Instruction.decode 0xCB (.ofNat 8 i) 0

/-- The entry of the first table for a code. -/
def entry (code : Byte) : Option (Byte → Byte → Instruction) := codes[code.toNat]?

/-- The instruction that begins with three bytes. -/
def lookUp (code n₁ n₂ : Byte) : Option Instruction :=
  if code = 0xCB then bitCodes[n₁.toNat]? else do return (← entry code) n₁ n₂

/-- A table of 256 entries has one for each byte. -/
theorem getElem?_table (f : Byte → α) (b : Byte) :
    ((List.range 256).map fun i => f (.ofNat 8 i))[b.toNat]? = some (f b) := by
  have inside : (List.range 256)[b.toNat]? = some b.toNat := List.getElem?_range b.isLt
  rw [List.getElem?_map, inside, Option.map_some, BitVec.ofNat_toNat, BitVec.setWidth_eq]

@[simp] theorem entry_eq (code : Byte) : entry code = some (Instruction.decode code) :=
  getElem?_table Instruction.decode code

@[simp] theorem lookUp_eq (code n₁ n₂ : Byte) :
    lookUp code n₁ n₂ = some (.decode code n₁ n₂) := by
  unfold lookUp
  split
  · next h =>
    -- the codes of the second table are not followed by anything
    rw [h]
    exact getElem?_table (Instruction.decode 0xCB · 0) n₁
  · rw [entry_eq]
    rfl

/-! ### Code -/

/-- The instruction at `pc` as the processor reads it: its code, and then the operand that it
takes. -/
def fetch (m : Memory) (pc : Word) : Fallible Instruction := do
  let a : Size := pc.setWidth 64
  let code ← readByte m a
  let decode ← entry code
  Instruction.complete (do readByte m (← plus a 1)) (do readWord m (← plus a 1))
    (fun n => liftM bitCodes[n.toNat]?) (decode 0 0)

/-- The `count` bytes that lie `i` bytes behind an address and further. -/
def readBytes (m : Memory) (a : Size) (i : Nat) : (count : Nat) → Fallible (List Byte)
  | 0 => return []
  | count + 1 => do
    let b ← readByte m (← plus a (.ofNat 64 i))
    let bs ← readBytes m a (i + 1) count
    return b :: bs

/-- The instruction at `pc`, provided that all its bytes lie in memory. -/
def instructionAt (m : Memory) (pc : Word) : Fallible Instruction := do
  let a : Size := pc.setWidth 64
  let code ← readByte m a
  let decode ← entry code
  let bytes ← readBytes m a 0 (decode 0 0).length
  lookUp (bytes.getD 0 0) (bytes.getD 1 0) (bytes.getD 2 0)

section Code

variable (m : Memory) (pc : Word)

theorem toNat_address : (pc.setWidth 64 : Size).toNat = pc.toNat :=
  BitVec.toNat_setWidth_of_le (by decide)

theorem address_succ_lt : (pc.setWidth 64 : Size).toNat + 1 < 2 ^ 64 := by
  have pc_lt := pc.isLt
  rw [toNat_address]
  omega

@[simp] theorem readByte_word : readByte m (pc.setWidth 64) = pure (m.get pc) := by
  rw [readByte_eq, toNat_address, Memory.readByte_toNat]
  rfl

theorem readBytes_eq {a : Size} {i count : Nat} (fits : a.toNat + i + count ≤ 2 ^ 64) :
    readBytes m a i count = some (m.readBlock (a.toNat + i) count) := by
  induction count generalizing i with
  | zero => rfl
  | succ count ih =>
    obtain ⟨b, h_b, toNat_b⟩ := exists_offset (a := a) (show a.toNat + i < 2 ^ 64 by omega)
    rw [readBytes, Memory.readBlock, h_b, lift_some, pure_bind]
    refine bind_eq_some (toNat_b ▸ readByte_eq m b) fun first => ?_
    exact bind_eq_some (ih (by omega)) fun rest => rfl

/-- An instruction is completed without a trap if its operand is read without one. -/
theorem complete_eq {byte : Fallible Byte} {word : Fallible Word}
    {lookUp : Byte → Fallible Instruction} {byte' : Except Fault Byte} {word' : Except Fault Word}
    {lookUp' : Byte → Except Fault Instruction} (h_byte : byte = some byte')
    (h_word : word = some word') (h_lookUp : ∀ n, lookUp n = some (lookUp' n)) (i : Instruction) :
    i.complete byte word lookUp = some (i.complete byte' word' lookUp') := by
  cases i with
  | load target source | accumulate op source =>
    cases source with
    | place p => rfl
    | immediate n => exact bind_eq_some h_byte fun _ => rfl
  | storeA l | loadA l =>
    cases l with
    | pointer p | lastPageC => rfl
    | absolute a => exact bind_eq_some h_word fun _ => rfl
    | lastPage n => exact bind_eq_some h_byte fun _ => rfl
  | bits op target => exact bind_eq_some h_byte h_lookUp
  | loadHlSp _ | addSp _ | jumpRelative _ _ => exact bind_eq_some h_byte fun _ => rfl
  | loadPair _ _ | storeSp _ | jump _ _ | call _ _ => exact bind_eq_some h_word fun _ => rfl
  | _ => rfl

theorem fetch_eq : fetch m pc = some (m.fetch pc) := by
  obtain ⟨next, h_next, toNat_next⟩ := exists_behind (address_succ_lt pc)
  rw [toNat_address] at toNat_next
  -- behind the address of an operand there is another one, for its high byte
  have fits : next.toNat + 1 < 2 ^ 64 := by
    have pc_lt := pc.isLt
    omega
  have word := readWord_eq m fits
  rw [toNat_next] at word
  rw [fetch, readByte_word, pure_bind, entry_eq, lift_some, pure_bind, Memory.fetch,
    Memory.readByte_toNat, h_next, lift_some, pure_bind, pure_bind]
  refine complete_eq (toNat_next ▸ readByte_eq m next) word (fun n => ?_) _
  -- the second table has an entry for every byte
  exact congrArg liftM (getElem?_table (Instruction.decode 0xCB · 0) n)

theorem instructionAt_eq : instructionAt m pc = some (m.instructionAt pc) := by
  have length_le : m.lengthAt pc ≤ 3 := Instruction.encodedLength_le _
  have fits : (pc.setWidth 64 : Size).toNat + 0 + m.lengthAt pc ≤ 2 ^ 64 := by
    have pc_lt := pc.isLt
    rw [toNat_address]
    omega
  have bytes := readBytes_eq m fits
  rw [Nat.add_zero, toNat_address] at bytes
  rw [instructionAt, readByte_word, pure_bind, entry_eq, lift_some, pure_bind]
  refine bind_eq_some bytes fun bs => ?_
  rw [lookUp_eq]
  rfl

end Code

end Sm83.Checked
