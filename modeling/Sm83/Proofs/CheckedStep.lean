import Sm83.Proofs.CheckedCode
import Sm83.Proofs.Run

/-!
# Steps with traps

A step computes on numbers of fixed width: the carries of a sum, the place of a byte in the last
page, the two halves of a pair, the number of steps taken. This file takes a step with the
operations of `Checked`, which trap where a result does not fit, on memory that is read and written
as in `CheckedCode`.

An instruction is followed if its parts are. What it changes is an action here, since the bytes that
it stores have to be written, and for each of these changes there is an equation (`run_load` and its
companions): the change comes about, and nothing traps or fails. The results are `follows_execute`,
`follows_step` and `sessionStep_eq`; the last of them needs that the step can still be counted.
-/

namespace Sm83.Checked

variable {σ α β : Type}

/-! ### Runs of actions -/

/-- A value that has been read does not interrupt an action. -/
theorem lift_value (a : α) : (liftM (pure a : Fallible α) : Action σ α) = pure a := rfl

theorem run_get (s : σ) : (get : Action σ σ).run.run s = some (.ok s, s) := rfl

theorem run_set (t s : σ) : (set t : Action σ PUnit).run.run s = some (.ok ⟨⟩, t) := rfl

theorem run_modify (g : σ → σ) (s : σ) :
    (modify g : Action σ PUnit).run.run s = some (.ok ⟨⟩, g s) := rfl

/-- Performs an action of memory. -/
def onMemory (c : Action Memory α) : Action Machine α := ExceptT.mk fun s => do
  let (r, m) ← c.run.run s.memory
  return (r, s.setMemory m)

theorem follows_onMemory {c : Action Memory α} {act : Memory.Action α} (h : Follows c act) :
    Follows (onMemory c) (Machine.onMemory act) := by
  intro s
  have run : (onMemory c).run.run s
      = (c.run.run s.memory).bind fun r => some (r.1, s.setMemory r.2) := rfl
  rw [run, h s.memory, Machine.onMemory]
  cases act s.memory <;> rfl

/-- Every word addresses a byte that can be written. -/
theorem run_writeByte (a : Word) (b : Byte) (s : Machine) :
    (onMemory (writeByte (a.setWidth 64) b)).run.run s
      = some (.ok (), s.setMemory (s.memory.set a b)) := by
  have followed := follows_onMemory (follows_writeByte (a.setWidth 64) b) s
  rw [toNat_address, Machine.onMemory, Memory.writeByte_toNat] at followed
  exact followed

/-! ### Operands -/

/-- The byte at a place. -/
def read (s : Machine) (p : Place) : Fallible Byte :=
  match p with
  | .register x => return s.registers.get x
  | .atHl => do readByte s.memory ((← pair s.registers .hl).setWidth 64)

/-- Replaces the byte at a place. -/
def write (p : Place) (v : Byte) : Action Machine Unit := do
  let s ← get
  match p with
  | .register x => set (s.setRegisters (s.registers.set x v))
  | .atHl => onMemory (writeByte ((← pair s.registers .hl).setWidth 64) v)

/-- The byte that a source stands for. -/
def operand (s : Machine) (source : Source) : Fallible Byte :=
  match source with
  | .place p => read s p
  | .immediate n => return n

/-- The address of a location. In the last page it is a sum. -/
def address (s : Machine) (l : Location) : Option Size :=
  match l with
  | .pointer p => do return (← pointer s.registers p).setWidth 64
  | .absolute a => some (a.setWidth 64)
  | .lastPage n => plus 0xFF00 (n.setWidth 64)
  | .lastPageC => plus 0xFF00 (s.registers.c.setWidth 64)

/-- Moves the pointer of a location that has been used. -/
def release (l : Location) : Action Machine Unit :=
  match l with
  | .pointer p => do
    let s ← get
    set (s.setRegisters (← advance s.registers p))
  | _ => return

section Operands

variable (s : Machine)

@[simp] theorem read_eq (p : Place) : read s p = pure (s.read p) := by
  cases p with
  | register x => rfl
  | atHl =>
    rw [read, pair_eq, lift_some, pure_bind, readByte_word]
    rfl

theorem run_write (p : Place) (v : Byte) : (write p v).run.run s = some (.ok (), s.write p v) := by
  cases p with
  | register x => rfl
  | atHl =>
    simp only [write, run_bind, run_get, Option.bind_some, pair_eq, lift_there, pure_bind,
      run_writeByte]
    rfl

@[simp] theorem operand_eq (source : Source) : operand s source = pure (s.operand source) := by
  cases source with
  | place p => exact read_eq s p
  | immediate n => rfl

/-- An offset into the last page leads to its last byte at most. -/
theorem plus_lastPage (n : Byte) :
    plus (0xFF00 : Size) (n.setWidth 64) = some ((Word.ofBytes 0xFF n).setWidth 64) := by
  have n_lt := n.isLt
  have toNat_n : (n.setWidth 64).toNat = n.toNat := BitVec.toNat_setWidth_of_le (by decide)
  obtain ⟨a, h_a, toNat_a⟩ := exists_plus (x := (0xFF00 : Size)) (y := n.setWidth 64) (by
    rw [toNat_n]
    show 0xFF00 + n.toNat < 2 ^ 64
    omega)
  have same : a = (Word.ofBytes 0xFF n).setWidth 64 := by
    apply BitVec.eq_of_toNat_eq
    rw [toNat_a, toNat_n, toNat_address, Word.toNat_ofBytes]
    rfl
  rw [h_a, same]

@[simp] theorem address_eq (l : Location) : address s l = some ((s.address l).setWidth 64) := by
  cases l with
  | pointer p =>
    rw [address, pointer_eq]
    rfl
  | absolute a => rfl
  | lastPage n => exact plus_lastPage n
  | lastPageC => exact plus_lastPage s.registers.c

theorem run_release (l : Location) : (release l).run.run s = some (.ok (), s.release l) := by
  cases l with
  | pointer p =>
    simp only [release, run_bind, run_get, Option.bind_some, advance_eq, lift_there, pure_bind,
      run_set]
    rfl
  | _ => rfl

end Operands

/-! ### Changes -/

/-- Copies a byte. -/
def load (target : Place) (source : Source) : Action Machine Unit := do
  let s ← get
  write target (← operand s source)

/-- Stores the accumulator. -/
def storeA (l : Location) : Action Machine Unit := do
  let s ← get
  onMemory (writeByte (← address s l) s.registers.a)
  release l

/-- Loads the accumulator. -/
def loadA (l : Location) : Action Machine Unit := do
  let s ← get
  let a ← readByte s.memory (← address s l)
  release l
  modify (·.setA a)

/-- Loads a pair. -/
def loadPair (p : Pair) (w : Word) : Action Machine Unit := do
  let s ← get
  set (s.setRegisters (← setPair s.registers p w))

/-- Loads the stack pointer from HL. -/
def loadSpHl : Action Machine Unit := do
  let s ← get
  set (s.setSp (← pair s.registers .hl))

/-- Puts a popped word into a pair. -/
def loadPopped (p : StackPair) (w : Word) : Action Machine Unit := do
  let s ← get
  set (s.setRegisters (← setStackPair s.registers p w))

/-- Increments a byte and lets the flags describe it. -/
def increment (target : Place) : Action Machine Unit := do
  let s ← get
  let r := Arithmetic.increment s.registers.flags (← read s target)
  set (s.setFlags r.2)
  write target r.1

/-- Decrements a byte and lets the flags describe it. -/
def decrement (target : Place) : Action Machine Unit := do
  let s ← get
  let r := Arithmetic.decrement s.registers.flags (← read s target)
  set (s.setFlags r.2)
  write target r.1

/-- Increments a pair. -/
def incrementPair (p : Pair) : Action Machine Unit := do
  let s ← get
  loadPair p ((← pair s.registers p) + 1)

/-- Decrements a pair. -/
def decrementPair (p : Pair) : Action Machine Unit := do
  let s ← get
  loadPair p ((← pair s.registers p) - 1)

/-- Lets the accumulator meet an operand. -/
def meetOperand (op : Accumulation) (source : Source) : Action Machine Unit := do
  let s ← get
  let r ← accumulate op s.registers.flags.carry s.registers.a (← operand s source)
  set ((s.setFlags r.2).setA r.1)

/-- Adds a pair to HL. -/
def addHl (source : Pair) : Action Machine Unit := do
  let s ← get
  let r ← addWords (← pair s.registers .hl) (← pair s.registers source)
  set (s.setFlags r.2)
  loadPair .hl r.1

/-- Puts the stack pointer plus a signed offset into a pair. -/
def offsetSp (target : Pair) (offset : Byte) : Action Machine Unit := do
  let s ← get
  let r ← addSigned s.registers.sp offset
  set (s.setFlags r.2)
  loadPair target r.1

/-- Corrects the accumulator after a decimal addition. -/
def adjustA : Action Machine Unit := do
  let s ← get
  let r ← decimalAdjust s.registers.flags s.registers.a
  set ((s.setFlags r.2).setA r.1)

/-- Rotates the accumulator. -/
def rotateA (r : Rotation) : Action Machine Unit := do
  let s ← get
  let r ← rotateAccumulator r s.registers.flags.carry s.registers.a
  set ((s.setFlags r.2).setA r.1)

/-- Works on the bits of a byte. -/
def operateBits (op : BitOperation) (target : Place) : Action Machine Unit := do
  let s ← get
  let n ← read s target
  match op with
  | .shift k =>
    let r ← shift k s.registers.flags.carry n
    set (s.setFlags r.2)
    write target r.1
  | .test i => set (s.setFlags (← testBit s.registers.flags i n))
  | .reset i => write target (n &&& ~~~(← mask i))
  | .set i => write target (n ||| (← mask i))

section Changes

variable (s : Machine)

theorem run_load (target : Place) (source : Source) :
    (load target source).run.run s = some (.ok (), s.load target source) := by
  simp only [load, run_bind, run_get, Option.bind_some, operand_eq, lift_value, pure_bind,
    run_write, Machine.load]

theorem run_storeA (l : Location) : (storeA l).run.run s = some (.ok (), s.storeA l) := by
  simp only [storeA, run_bind, run_get, Option.bind_some, address_eq, lift_there, pure_bind,
    run_writeByte, run_release, Machine.storeA]

theorem run_loadA (l : Location) : (loadA l).run.run s = some (.ok (), s.loadA l) := by
  simp only [loadA, run_bind, run_get, Option.bind_some, address_eq, lift_there, pure_bind,
    readByte_word, lift_value, run_release, run_modify, Machine.loadA]

theorem run_loadPair (p : Pair) (w : Word) :
    (loadPair p w).run.run s = some (.ok (), s.setPair p w) := by
  simp only [loadPair, run_bind, run_get, Option.bind_some, setPair_eq, lift_there, pure_bind,
    run_set, Machine.setPair]

theorem run_loadSpHl : loadSpHl.run.run s = some (.ok (), s.setSp s.registers.hl) := by
  simp only [loadSpHl, run_bind, run_get, Option.bind_some, pair_eq, lift_there, pure_bind,
    run_set, Registers.pair]

theorem run_loadPopped (p : StackPair) (w : Word) :
    (loadPopped p w).run.run s
      = some (.ok (), s.setRegisters (s.registers.setStackPair p w)) := by
  simp only [loadPopped, run_bind, run_get, Option.bind_some, setStackPair_eq, lift_there,
    pure_bind, run_set]

theorem run_increment (target : Place) :
    (increment target).run.run s = some (.ok (), s.increment target) := by
  simp only [increment, run_bind, run_get, Option.bind_some, read_eq, lift_value, pure_bind,
    run_set, run_write, Machine.increment]

theorem run_decrement (target : Place) :
    (decrement target).run.run s = some (.ok (), s.decrement target) := by
  simp only [decrement, run_bind, run_get, Option.bind_some, read_eq, lift_value, pure_bind,
    run_set, run_write, Machine.decrement]

theorem run_incrementPair (p : Pair) :
    (incrementPair p).run.run s = some (.ok (), s.incrementPair p) := by
  simp only [incrementPair, run_bind, run_get, Option.bind_some, pair_eq, lift_there, pure_bind,
    run_loadPair, Machine.incrementPair]

theorem run_decrementPair (p : Pair) :
    (decrementPair p).run.run s = some (.ok (), s.decrementPair p) := by
  simp only [decrementPair, run_bind, run_get, Option.bind_some, pair_eq, lift_there, pure_bind,
    run_loadPair, Machine.decrementPair]

theorem run_meetOperand (op : Accumulation) (source : Source) :
    (meetOperand op source).run.run s = some (.ok (), s.accumulate op source) := by
  simp only [meetOperand, run_bind, run_get, Option.bind_some, operand_eq, lift_value,
    accumulate_eq, lift_there, pure_bind, run_set, Machine.accumulate]

theorem run_addHl (source : Pair) : (addHl source).run.run s = some (.ok (), s.addHl source) := by
  simp only [addHl, run_bind, run_get, Option.bind_some, pair_eq, addWords_eq, lift_there,
    pure_bind, run_set, run_loadPair, Machine.addHl, Registers.pair]

theorem run_offsetSp (target : Pair) (offset : Byte) :
    (offsetSp target offset).run.run s = some (.ok (), s.offsetSp target offset) := by
  simp only [offsetSp, run_bind, run_get, Option.bind_some, addSigned_eq, lift_there, pure_bind,
    run_set, run_loadPair, Machine.offsetSp]

theorem run_adjustA : adjustA.run.run s = some (.ok (), s.decimalAdjust) := by
  simp only [adjustA, run_bind, run_get, Option.bind_some, decimalAdjust_eq, lift_there, pure_bind,
    run_set, Machine.decimalAdjust]

theorem run_rotateA (r : Rotation) : (rotateA r).run.run s = some (.ok (), s.rotateA r) := by
  simp only [rotateA, run_bind, run_get, Option.bind_some, rotateAccumulator_eq, lift_there,
    pure_bind, run_set, Machine.rotateA]

theorem run_operateBits (op : BitOperation) (target : Place) :
    (operateBits op target).run.run s = some (.ok (), s.operateBits op target) := by
  cases op <;> simp only [operateBits, run_bind, run_get, Option.bind_some, read_eq, lift_value,
    shift_eq, testBit_eq, mask_eq, lift_there, pure_bind, run_set, run_write, Machine.operateBits]

end Changes

/-! ### Instructions -/

/-- Changes the machine and goes on with the next instruction. -/
def proceed (c : Action Machine Unit) : Action Machine (Option Word) := do
  c
  return none

/-- Jumps to a target where the flags permit it. -/
def jumpIf (c : Option Condition) (target : Word) : Action Machine (Option Word) := do
  let s ← get
  return if s.registers.flags.permits c then some target else none

/-- Pushes a word, if there is room for it. -/
def push (w : Word) : Action Machine Unit := do
  let s ← get
  let sp := s.registers.sp
  if sp < 2 then
    throw (.stackOverflow sp)
  let top ← minus sp 2
  onMemory (writeWord (top.setWidth 64) w)
  modify (·.setSp top)

/-- Pops the word at the stack pointer. -/
def pop : Action Machine Word := do
  let s ← get
  let sp := s.registers.sp
  let w ← readWord s.memory (sp.setWidth 64)
  set (s.setSp (sp + 2))
  return w

/-- Stores the stack pointer as a word. -/
def storeSp (a : Word) : Action Machine Unit := do
  let s ← get
  onMemory (writeWord (a.setWidth 64) s.registers.sp)

/-- Pushes the address behind the instruction, which takes so many bytes, and jumps. -/
def callFrom (length : Nat) (target : Word) : Action Machine (Option Word) := do
  let s ← get
  push (s.registers.pc + .ofNat 16 length)
  return some target

/-- Jumps to a popped address. -/
def popJump : Action Machine (Option Word) := do
  let target ← pop
  return some target

/-- Carries out an instruction. -/
def execute (i : Instruction) : Action Machine (Option Word) :=
  match i with
  | .nop | .stop | .disableInterrupts | .enableInterrupts | .undefined _ => return none
  | .halt => proceed (modify fun s => { s with halted := true })
  | .load target source => proceed (load target source)
  | .storeA l => proceed (storeA l)
  | .loadA l => proceed (loadA l)
  | .loadPair p w => proceed (loadPair p w)
  | .storeSp a => do
    storeSp a
    return none
  | .loadSpHl => proceed loadSpHl
  | .loadHlSp offset => proceed (offsetSp .hl offset)
  | .push p => do
    let s ← get
    push (← stackPair s.registers p)
    return none
  | .pop p => do
    let w ← pop
    proceed (loadPopped p w)
  | .increment target => proceed (increment target)
  | .decrement target => proceed (decrement target)
  | .incrementPair p => proceed (incrementPair p)
  | .decrementPair p => proceed (decrementPair p)
  | .accumulate op source => proceed (meetOperand op source)
  | .addHl p => proceed (addHl p)
  | .addSp offset => proceed (offsetSp .sp offset)
  | .decimalAdjust => proceed adjustA
  | .complement => proceed (modify Machine.complement)
  | .setCarry => proceed (modify (·.assignCarry true))
  | .flipCarry => proceed (modify fun s => s.assignCarry !s.registers.flags.carry)
  | .rotateA r => proceed (rotateA r)
  | .bits op target => proceed (operateBits op target)
  | .jumpRelative c offset => do
    let s ← get
    jumpIf c (relativeTarget s.registers.pc offset)
  | .jump c target => jumpIf c target
  | .jumpHl => do
    let s ← get
    return some (← pair s.registers .hl)
  | .call c target => do
    let s ← get
    if s.registers.flags.permits c then callFrom i.length target else return none
  | .ret c => do
    let s ← get
    if s.registers.flags.permits c then popJump else return none
  | .retInterrupt => popJump
  | .restart vector => do
    let target ← restartTarget vector
    callFrom i.length (target.setWidth 16)

theorem follows_proceed {c : Action Machine Unit} {g : Machine → Machine}
    (h : ∀ s, c.run.run s = some (.ok (), g s)) : Follows (proceed c) (Machine.proceed g) := by
  intro s
  rw [proceed, run_bind, h]
  rfl

theorem follows_jumpIf (c : Option Condition) (target : Word) :
    Follows (jumpIf c target) (Machine.jumpIf c target) := fun _ => rfl

theorem follows_writeWord_word (a w : Word) :
    Follows (onMemory (writeWord (a.setWidth 64) w))
      (Machine.onMemory (Memory.writeWord a.toNat w)) := by
  have followed := follows_writeWord (address_succ_lt a) w
  rw [toNat_address] at followed
  exact follows_onMemory followed

theorem follows_push (w : Word) : Follows (push w) (Machine.push w) := by
  refine Follows.bind .get fun s => ?_
  dsimp only
  split
  · exact fun _ => rfl
  · next room =>
    rw [minus_of_le (Nat.not_lt.1 room), lift_there, pure_bind]
    exact Follows.bind (follows_writeWord_word _ w) fun _ => .modify _

theorem follows_pop : Follows pop Machine.pop := by
  refine Follows.bind .get fun s => ?_
  refine Follows.bind (.lift ?_) fun w => Follows.bind (.set _) fun _ => .pure w
  rw [readWord_eq _ (address_succ_lt _), toNat_address]

theorem follows_storeSp (a : Word) : Follows (storeSp a) (Machine.storeSp a) :=
  Follows.bind .get fun _ => follows_writeWord_word a _

theorem follows_callFrom (length : Nat) (target : Word) :
    Follows (callFrom length target) (Machine.callFrom length target) :=
  Follows.bind .get fun _ => Follows.bind (follows_push _) fun _ => .pure _

theorem follows_popJump : Follows popJump Machine.popJump :=
  Follows.bind follows_pop fun _ => .pure _

/-- **An instruction is carried out without a trap.** -/
theorem follows_execute (i : Instruction) : Follows (execute i) (Machine.execute i) := by
  -- what an instruction changes by itself has an equation, and the rest goes part by part
  cases i with
  | nop | stop | disableInterrupts | enableInterrupts | undefined code => exact .pure none
  | halt | complement | setCarry | flipCarry => exact follows_proceed (run_modify _)
  | load target source => exact follows_proceed (run_load · target source)
  | storeA l => exact follows_proceed (run_storeA · l)
  | loadA l => exact follows_proceed (run_loadA · l)
  | loadPair p w => exact follows_proceed (run_loadPair · p w)
  | storeSp a => exact Follows.bind (follows_storeSp a) fun _ => .pure none
  | loadSpHl => exact follows_proceed run_loadSpHl
  | loadHlSp offset => exact follows_proceed (run_offsetSp · .hl offset)
  | push p =>
    refine Follows.bind .get fun s => ?_
    rw [stackPair_eq]
    exact Follows.bind (follows_push _) fun _ => .pure none
  | pop p =>
    exact Follows.bind follows_pop fun w => follows_proceed (run_loadPopped · p w)
  | increment target => exact follows_proceed (run_increment · target)
  | decrement target => exact follows_proceed (run_decrement · target)
  | incrementPair p => exact follows_proceed (run_incrementPair · p)
  | decrementPair p => exact follows_proceed (run_decrementPair · p)
  | accumulate op source => exact follows_proceed (run_meetOperand · op source)
  | addHl p => exact follows_proceed (run_addHl · p)
  | addSp offset => exact follows_proceed (run_offsetSp · .sp offset)
  | decimalAdjust => exact follows_proceed run_adjustA
  | rotateA r => exact follows_proceed (run_rotateA · r)
  | bits op target => exact follows_proceed (run_operateBits · op target)
  | jumpRelative c offset => exact Follows.bind .get fun s => follows_jumpIf c _
  | jump c target => exact follows_jumpIf c target
  | jumpHl =>
    refine Follows.bind .get fun s => ?_
    rw [pair_eq]
    exact .pure _
  | call c target =>
    refine Follows.bind .get fun s => ?_
    split
    · exact follows_callFrom _ target
    · exact .pure none
  | ret c =>
    refine Follows.bind .get fun s => ?_
    split
    · exact follows_popJump
    · exact .pure none
  | retInterrupt => exact follows_popJump
  | restart vector =>
    have target : (Sm83.restartTarget vector).setWidth 16
        = Word.ofBytes 0 (Sm83.restartTarget vector) := by
      apply BitVec.eq_of_toNat_eq
      rw [toNat_widened, Word.toNat_ofBytes]
      exact (Nat.zero_add _).symm
    rw [execute, restartTarget_eq, lift_there, pure_bind, target]
    exact follows_callFrom _ _

/-! ### Steps -/

/-- Carries out one instruction and yields the new program counter. -/
def step : Action Machine Word := do
  let s ← get
  let pc := s.registers.pc
  let i ← fetch s.memory pc
  let target ← execute i
  let next := target.getD (pc + .ofNat 16 i.length)
  modify (·.setPc next)
  return next

/-- **A step is taken without a trap.** -/
theorem follows_step : Follows step Machine.step := by
  refine Follows.bind .get fun s => ?_
  refine Follows.bind (.lift (fetch_eq s.memory s.registers.pc)) fun i => ?_
  refine Follows.bind (follows_execute i) fun target => ?_
  exact fun _ => rfl

/-! ### Steps of a session -/

/-- The events of the step that a machine is about to take. -/
def announcements (s : Machine) : Option (List Event) := do
  let pc := s.registers.pc
  let whole ← (instructionAt s.memory pc).run
  let needed ← (fetch s.memory pc).run
  let announced :=
    match whole with
    | .ok i => [.executing pc i]
    | .error _ => []
  let noticed :=
    match needed with
    | .ok i => i.notice pc
    | .error _ => []
  return announced ++ noticed

/-- Announces the next step. -/
def announce : Action Session Unit := do
  let s ← get
  let es ← announcements s.machine
  set { s with journal := s.journal.map (Journal.recordAll · es) }

/-- Performs an action of the machine. -/
def onMachine (c : Action Machine α) : Action Session α := ExceptT.mk fun s => do
  let (r, m) ← c.run.run s.machine
  return (r, { s with machine := m })

/-- Counts a step, in a number of the host. -/
def countStep : Action Session Unit := do
  let s ← get
  let steps ← plus (.ofNat 64 s.steps) 1
  set { s with steps := steps.toNat }

/-- Announces the next step, takes it, and counts it if it succeeds. -/
def sessionStep : Action Session Word := do
  announce
  let pc ← onMachine step
  countStep
  return pc

theorem announcements_eq (s : Machine) : announcements s = some s.announcements := by
  rw [announcements, instructionAt_eq, fetch_eq]
  rfl

theorem follows_announce : Follows announce (modify Session.announce) := by
  have announced : (modify Session.announce : Session.Action Unit) = (do
      let s ← get
      set s.announce) := rfl
  rw [announced]
  refine Follows.bind .get fun s => ?_
  rw [announcements_eq]
  exact .set s.announce

theorem follows_onMachine {c : Action Machine α} {act : Machine.Action α} (h : Follows c act) :
    Follows (onMachine c) (Session.onMachine act) := by
  intro s
  have run : (onMachine c).run.run s
      = (c.run.run s.machine).bind fun r => some (r.1, { s with machine := r.2 }) := rfl
  rw [run, h s.machine, Session.onMachine]
  cases act s.machine <;> rfl

theorem countStep_eq {s : Session} (few : s.steps < 2 ^ 64 - 1) :
    countStep.run.run s = some (.ok (), { s with steps := s.steps + 1 }) := by
  have toNat_steps : (BitVec.ofNat 64 s.steps).toNat = s.steps := Nat.mod_eq_of_lt (by omega)
  obtain ⟨steps, h_steps, sum⟩ := exists_behind (a := .ofNat 64 s.steps) (by
    rw [toNat_steps]
    omega)
  show ((liftM (plus (BitVec.ofNat 64 s.steps) 1) : Action Session Size) >>= fun n =>
    set { s with steps := n.toNat }).run.run s = _
  rw [h_steps, lift_there, pure_bind, sum, toNat_steps]
  rfl

theorem steps_of_onMachine {act : Machine.Action α} {s t : Session} {a : α}
    (h : Session.onMachine act s = .ok a t) : t.steps = s.steps := by
  unfold Session.onMachine at h
  split at h
  · cases h
    rfl
  · cases h

/-- **A step of a session is taken without a trap**, as long as it can be counted. -/
theorem sessionStep_eq {s : Session} (few : s.steps < 2 ^ 64 - 1) :
    sessionStep.run.run s = some (answer (Session.step s), stateAfter (Session.step s)) := by
  let count : Session.Action Unit := modify fun t => { t with steps := t.steps + 1 }
  have whole : Session.step s
      = (Session.onMachine Machine.step >>= fun pc => count >>= fun _ => pure pc) s.announce := rfl
  rw [sessionStep, run_bind, follows_announce s]
  show (onMachine step >>= fun pc => countStep >>= fun _ => pure pc).run.run s.announce = _
  rw [run_bind, follows_onMachine follows_step s.announce, whole]
  cases h : Session.onMachine Machine.step s.announce with
  | ok pc t =>
    have same : t.steps = s.announce.steps := steps_of_onMachine h
    have few_t : t.steps < 2 ^ 64 - 1 := by rwa [same]
    rw [bind_ok h]
    show (countStep >>= fun _ => pure pc).run.run t = _
    rw [run_bind, countStep_eq few_t]
    rfl
  | error f t =>
    rw [bind_error h]
    rfl

end Sm83.Checked
