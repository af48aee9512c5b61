import Sm83.Proofs.Execution

/-!
# What a step stores

Few instructions write to memory, and those write one byte or one word. `Machine.stores` lists the
bytes of each of them, taken from the machine *before* the step: many a source is also part of the
address, a pointer may move, and what is stored may fall on the instruction itself.

`Memory.Receives` says that memory has received a list of bytes and nothing else. Its addresses are
numbers, so that nothing on the list can wrap around. `receives_perform` shows it of every
instruction that nothing stands in the way of; that is where a word stored at the last address and
a push without room are excluded. The statement about steps, `memory_after_step`, is then the same
statement read off `step_eq_ok_iff`.
-/

namespace Sm83

/-! ### Bytes received -/

namespace Memory

/-- The two bytes of a word that is stored at `a`, the low one first. -/
def wordAt (a : Nat) (w : Word) : List (Nat × Byte) := [(a, w.low), (a + 1, w.high)]

/-- **Exactly these bytes.** In `m'` every listed byte is at its address, and all the other bytes
are those of `m`. -/
structure Receives (m : Memory) (l : List (Nat × Byte)) (m' : Memory) : Prop where
  stored : ∀ a v, (a, v) ∈ l → a < size ∧ m'.get (.ofNat 16 a) = v
  kept : ∀ x : Word, (∀ v, (x.toNat, v) ∉ l) → m'.get x = m.get x

variable {m : Memory}

theorem receives_nil : m.Receives [] m := ⟨nofun, fun _ _ => rfl⟩

theorem receives_set (a : Word) (v : Byte) : m.Receives [(a.toNat, v)] (m.set a v) := by
  constructor
  · intro b u h
    obtain ⟨rfl, rfl⟩ := Prod.mk.inj (List.mem_singleton.1 h)
    rw [BitVec.ofNat_toNat, BitVec.setWidth_eq]
    exact ⟨a.isLt, m.get_set_self a u⟩
  · intro x h
    refine m.get_set_of_ne ?_ v
    rintro rfl
    exact h v (List.mem_singleton_self _)

/-- A word is received where both its bytes have an address. -/
theorem receives_setWord {a : Word} (h : a.toNat + 1 < size) (w : Word) :
    m.Receives (wordAt a.toNat w) (m.setWord a w) := by
  have apart : a ≠ a + 1 := by bv_omega
  constructor
  · intro b u hb
    rw [wordAt, List.mem_cons, List.mem_singleton] at hb
    obtain hb | hb := hb
    · obtain ⟨rfl, rfl⟩ := Prod.mk.inj hb
      rw [BitVec.ofNat_toNat, BitVec.setWidth_eq, setWord, get_set_of_ne _ apart]
      exact ⟨a.isLt, m.get_set_self a w.low⟩
    · obtain ⟨rfl, rfl⟩ := Prod.mk.inj hb
      rw [Word.ofNat_toNat_add]
      exact ⟨h, get_set_self ..⟩
  · intro x hx
    have low : x ≠ a := by
      rintro rfl
      exact hx _ (List.mem_cons_self ..)
    have high : x ≠ a + 1 := by
      rintro rfl
      have at_high : (a + 1).toNat = a.toNat + 1 := by
        rw [size] at h
        bv_omega
      exact hx w.high (by rw [wordAt, at_high]; simp)
    rw [setWord, get_set_of_ne _ high, get_set_of_ne _ low]

end Memory

namespace Machine

/-! ### Bytes stored -/

/-- The address of a location as a number. -/
def locate (s : Machine) : Location → Nat
  | .pointer .bc => s.registers.bc.toNat
  | .pointer .de => s.registers.de.toNat
  | .pointer .hlIncrement | .pointer .hlDecrement => s.registers.hl.toNat
  | .absolute nn => nn.toNat
  | .lastPage n => 0xFF00 + n.toNat
  | .lastPageC => 0xFF00 + s.registers.c.toNat

/-- **The bytes that an instruction stores**, with their addresses. Bits that are only tested,
an operand that is only compared with, and a call that is not carried out store nothing. -/
def stores (s : Machine) (i : Instruction) : List (Nat × Byte) :=
  let hl := s.registers.hl.toNat
  let old := s.memory.get s.registers.hl
  let sp := s.registers.sp.toNat
  match i with
  | .storeA l => [(s.locate l, s.registers.a)]
  | .load .atHl source => [(hl, s.operand source)]
  | .increment .atHl => [(hl, old + 1)]
  | .decrement .atHl => [(hl, old - 1)]
  | .bits (.shift k) .atHl => [(hl, (Arithmetic.shift k s.registers.flags.carry old).1)]
  | .bits (.reset j) .atHl => [(hl, old &&& ~~~Arithmetic.mask j)]
  | .bits (.set j) .atHl => [(hl, old ||| Arithmetic.mask j)]
  | .storeSp nn => Memory.wordAt nn.toNat s.registers.sp
  | .push p => Memory.wordAt (sp - 2) (s.registers.stackPair p)
  | .call c _ =>
    if s.registers.flags.permits c then
      Memory.wordAt (sp - 2) (s.registers.pc + .ofNat 16 i.length)
    else []
  | .restart _ => Memory.wordAt (sp - 2) (s.registers.pc + .ofNat 16 i.length)
  | _ => []

variable {s : Machine}

theorem toNat_address (s : Machine) (l : Location) : (s.address l).toNat = s.locate l := by
  cases l with
  | pointer p => cases p <;> rfl
  | absolute nn => rfl
  | lastPage n => exact Word.toNat_ofBytes 0xFF n
  | lastPageC => exact Word.toNat_ofBytes 0xFF s.registers.c

/-! ### Instructions -/

theorem memory_storeA (s : Machine) (l : Location) :
    (s.storeA l).memory = s.memory.set (s.address l) s.registers.a := by
  cases l <;> rfl

theorem memory_loadA (s : Machine) (l : Location) : (s.loadA l).memory = s.memory := by
  cases l <;> rfl

theorem receives_pushed (room : ¬s.registers.sp < 2) (w : Word) :
    s.memory.Receives (Memory.wordAt (s.registers.sp.toNat - 2) w) (s.pushed w).memory := by
  have low : (s.registers.sp - 2).toNat = s.registers.sp.toNat - 2 := by bv_omega
  rw [← low]
  refine Memory.receives_setWord ?_ w
  rw [low, Memory.size]
  bv_omega

/-- **What an instruction stores** is what is listed, if nothing stands in its way. -/
theorem receives_perform {i : Instruction} (clear : s.obstacle i = none) :
    s.memory.Receives (s.stores i) (s.perform i).memory := by
  cases i with
  | load target _ | increment target | decrement target =>
    cases target with
    | register r => exact Memory.receives_nil
    | atHl => exact Memory.receives_set ..
  | storeA l =>
    have received := s.memory.receives_set (s.address l) s.registers.a
    rwa [toNat_address, ← memory_storeA] at received
  | loadA l =>
    show s.memory.Receives [] (s.loadA l).memory
    rw [memory_loadA]
    exact Memory.receives_nil
  | storeSp nn =>
    have inside : nn ≠ 0xFFFF := ne_of_storeSp clear rfl
    refine Memory.receives_setWord ?_ _
    rw [Memory.size]
    bv_omega
  | push p => exact receives_pushed (not_lt_of_pushes clear rfl) _
  | bits op target =>
    cases op with
    | test j => exact Memory.receives_nil
    | _ =>
      cases target with
      | register r => exact Memory.receives_nil
      | atHl => exact Memory.receives_set ..
  | call c address =>
    by_cases permits : s.registers.flags.permits c
    · simp only [stores, perform, if_pos permits]
      exact receives_pushed (not_lt_of_pushes clear permits) _
    · simp only [stores, perform, if_neg permits]
      exact Memory.receives_nil
  | restart vector => exact receives_pushed (not_lt_of_pushes clear rfl) _
  | ret c =>
    -- a word that is popped stays in memory
    show s.memory.Receives [] (if s.registers.flags.permits c then s.popped else s : Machine).memory
    split <;> exact Memory.receives_nil
  | _ => exact Memory.receives_nil

/-! ### Steps -/

/-- **What a step stores.** After a step that succeeds, memory has received the bytes that its
instruction stores, and all the other bytes are as they were. -/
theorem memory_after_step (s t : Machine) (pc : Word) (h : step s = .ok pc t) :
    s.memory.Receives (s.stores s.instruction) t.memory := by
  obtain ⟨noFault, -, rfl⟩ := step_eq_ok_iff.1 h
  exact receives_perform (fault?_eq_none_iff.1 noFault).2

/-- A call in the last three bytes of memory, with the stack pointer on the last one, puts the
address behind itself, which is zero, over its own code. `LD (HL), H` replaces itself by half of its
address. -/
theorem memory_after_step_over_code :
    let s : Machine :=
      ⟨{ Registers.zero with pc := 0xFFFD, sp := 0xFFFF },
        ((Memory.zero.set 0xFFFD 0xCD).set 0xFFFE 0x34).set 0xFFFF 0x12, false⟩
    let s' : Machine :=
      ⟨{ Registers.zero with h := 0xC0, l := 0x01, pc := 0xC001 },
        Memory.zero.set 0xC001 0x74, false⟩
    (∃ t, step s = .ok 0x1234 t ∧ t.memory.get 0xFFFD = 0 ∧ t.memory.get 0xFFFE = 0 ∧
        t.memory.get 0xFFFF = 0x12) ∧
      ∃ t, step s' = .ok 0xC002 t ∧ t.memory.get 0xC001 = 0xC0 ∧ t.memory.get 0xC002 = 0 := by
  intro s s'
  have call : step s = .ok 0x1234 s.next := step_eq_ok_iff.2 ⟨by decide, by decide, rfl⟩
  have load : step s' = .ok 0xC002 s'.next := step_eq_ok_iff.2 ⟨by decide, by decide, rfl⟩
  obtain ⟨stored, kept⟩ := memory_after_step s _ _ call
  obtain ⟨stored', kept'⟩ := memory_after_step s' _ _ load
  have listed : s.stores s.instruction = [(0xFFFD, 0), (0xFFFE, 0)] := by decide
  have listed' : s'.stores s'.instruction = [(0xC001, 0xC0)] := by decide
  rw [listed] at stored kept
  rw [listed'] at stored' kept'
  refine ⟨⟨_, call, ?_, ?_, ?_⟩, _, load, ?_, ?_⟩
  · exact (stored 0xFFFD 0 (by decide)).2
  · exact (stored 0xFFFE 0 (by decide)).2
  · exact kept 0xFFFF (by decide)
  · exact (stored' 0xC001 0xC0 (by decide)).2
  · exact kept' 0xC002 (by decide)

end Machine

end Sm83
