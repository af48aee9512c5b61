import Mathlib.Data.List.Infix
import Sm83.Proofs.Execution

/-!
# The stack as a list

Words are pushed into memory and popped from it. This file puts a list beside the machine: a
push that succeeds extends it, a pop shortens it. As long as no more values are popped than have
been pushed, the list stands in memory between the stack pointer and the place where the stack
pointer was in the beginning.

`Machine.Represents` says how, and `Represents.push` and `Represents.pop` carry it over one
call. A push may meet slots that earlier pops have freed, so what matters is not which bytes have
been written before but that the values further down lie above the two bytes written now. That
is why the invariant ties the depth of the list to the stack pointer in *numbers*: with
`depth`, no address of a value wraps around.

A failed push changes neither side, so a sequence of calls goes on behind it. The whole is
assembled in `Machine.stack_refines_list`, by induction on the sequence from its end
(`represents_tally`, `get_tally_of_outside`).
-/

namespace Sm83.Machine

/-! ### Calls of the stack -/

/-- A call of the stack. -/
inductive StackCall where
  | push (w : Word)
  | pop
  deriving DecidableEq

/-- A machine on which calls of the stack have been made, and a list beside it. Each push that
succeeds extends the list, and each pop shortens it. -/
structure Tally where
  machine : Machine
  list : List Word
  /-- How many pushes have succeeded. -/
  pushes : Nat
  /-- How many pops have been called. -/
  pops : Nat

namespace Tally

/-- One call more. -/
def add (t : Tally) : StackCall → Tally
  | .push w =>
    match push w t.machine with
    | .ok _ m => ⟨m, w :: t.list, t.pushes + 1, t.pops⟩
    | .error _ m => { t with machine := m }
  | .pop => ⟨stateAfter (pop t.machine), t.list.tail, t.pushes, t.pops + 1⟩

variable {t : Tally}

theorem add_push_of_lt (full : t.machine.registers.sp < 2) (w : Word) : t.add (.push w) = t := by
  simp only [add, push_of_lt full]

theorem add_push_of_not_lt (room : ¬ t.machine.registers.sp < 2) (w : Word) :
    t.add (.push w) = ⟨t.machine.pushed w, w :: t.list, t.pushes + 1, t.pops⟩ := by
  simp only [add, push_of_not_lt room]

theorem add_pop_of_ok {w v : Word} {l : List Word} {m : Machine} (ok : pop t.machine = .ok w m)
    (list : t.list = v :: l) : t.add .pop = ⟨m, l, t.pushes, t.pops + 1⟩ := by
  simp only [add, ok, list, stateAfter_ok, List.tail_cons]

end Tally

/-- Makes calls one after the other, with an empty list in the beginning. -/
def tally (s : Machine) (calls : List StackCall) : Tally := calls.foldl Tally.add ⟨s, [], 0, 0⟩

theorem tally_concat (s : Machine) (calls : List StackCall) (c : StackCall) :
    s.tally (calls ++ [c]) = (s.tally calls).add c :=
  List.foldl_concat ..

/-- At no time have more values been popped than pushed. -/
def Balanced (s : Machine) (calls : List StackCall) : Prop :=
  ∀ p, p <+: calls → (s.tally p).pops ≤ (s.tally p).pushes

instance (s : Machine) (calls : List StackCall) : Decidable (s.Balanced calls) :=
  decidable_of_iff (∀ p ∈ calls.inits, (s.tally p).pops ≤ (s.tally p).pushes) <| by
    simp only [Balanced, List.mem_inits]

theorem Balanced.of_prefix {s : Machine} {calls p : List StackCall} (h : s.Balanced calls)
    (hp : p <+: calls) : s.Balanced p :=
  fun q hq => h q (hq.trans hp)

/-! ### The effect of one call -/

theorem push_eq_error_iff {s t : Machine} {w : Word} {f : Fault} :
    push w s = .error f t ↔ s.registers.sp < 2 ∧ f = .stackOverflow s.registers.sp ∧ t = s := by
  by_cases full : s.registers.sp < 2
  · rw [push_of_lt full]
    constructor
    · rintro ⟨⟩
      exact ⟨full, rfl, rfl⟩
    · rintro ⟨-, rfl, rfl⟩
      rfl
  · rw [push_of_not_lt full]
    exact iff_of_false nofun fun h => full h.1

theorem get_pushed_low (s : Machine) (w : Word) :
    (s.pushed w).memory.get (s.registers.sp - 2) = w.low := by
  show (s.memory.setWord (s.registers.sp - 2) w).get _ = _
  rw [Memory.setWord, Memory.get_set_of_ne _ (by bv_omega), Memory.get_set_self]

theorem get_pushed_high (s : Machine) (w : Word) :
    (s.pushed w).memory.get (s.registers.sp - 2 + 1) = w.high := by
  show (s.memory.setWord (s.registers.sp - 2) w).get _ = _
  rw [Memory.setWord, Memory.get_set_self]

theorem get_pushed_of_ne (s : Machine) (w : Word) {x : Word} (low : x ≠ s.registers.sp - 2)
    (high : x ≠ s.registers.sp - 2 + 1) : (s.pushed w).memory.get x = s.memory.get x := by
  show (s.memory.setWord (s.registers.sp - 2) w).get x = _
  rw [Memory.setWord, Memory.get_set_of_ne _ high, Memory.get_set_of_ne _ low]

theorem memory_stateAfter_pop (s : Machine) : (stateAfter (pop s)).memory = s.memory := by
  rw [pop_eq]
  split <;> rfl

/-! ### The list in memory -/

/-- Memory holds the list. The first value is at the stack pointer and the last one ends where
the stack pointer of `s` is. -/
structure Represents (s : Machine) (t : Tally) : Prop where
  depth : t.machine.registers.sp.toNat + 2 * t.list.length = s.registers.sp.toNat
  count : t.list.length + t.pops = t.pushes
  values : ∀ i w, t.list[i]? = some w →
    t.machine.memory.get (t.machine.registers.sp + .ofNat 16 (2 * i)) = w.low ∧
      t.machine.memory.get (t.machine.registers.sp + .ofNat 16 (2 * i + 1)) = w.high

namespace Represents

variable {s : Machine} {t : Tally}

theorem start (s : Machine) : Represents s (s.tally []) := ⟨rfl, rfl, nofun⟩

theorem lt_two_iff (h : Represents s t) :
    t.machine.registers.sp < 2 ↔ s.registers.sp.toNat - 2 * t.list.length < 2 := by
  have depth := h.depth
  show t.machine.registers.sp.toNat < 2 ↔ _
  omega

theorem push (h : Represents s t) (w : Word) : Represents s (t.add (.push w)) := by
  by_cases full : t.machine.registers.sp < 2
  · rwa [Tally.add_push_of_lt full]
  rw [Tally.add_push_of_not_lt full]
  obtain ⟨depth, count, values⟩ := h
  have room : 2 ≤ t.machine.registers.sp.toNat := Nat.not_lt.mp full
  refine ⟨?_, ?_, fun i v hv => ?_⟩
  · show (t.machine.registers.sp - 2).toNat + 2 * (t.list.length + 1) = _
    bv_omega
  · show t.list.length + 1 + t.pops = t.pushes + 1
    omega
  show (t.machine.pushed w).memory.get (t.machine.registers.sp - 2 + _) = _ ∧
    (t.machine.pushed w).memory.get (t.machine.registers.sp - 2 + _) = _
  cases i with
  | zero =>
    cases hv
    exact ⟨by simpa using get_pushed_low t.machine w, get_pushed_high t.machine w⟩
  | succ i =>
    -- the other values have not moved, and lie above the two bytes that are written
    have deep : i < t.list.length := Nat.lt_of_succ_lt_succ (List.getElem?_eq_some_iff.mp hv).1
    have inside := s.registers.sp.isLt
    rw [show t.machine.registers.sp - 2 + BitVec.ofNat 16 (2 * (i + 1)) =
        t.machine.registers.sp + BitVec.ofNat 16 (2 * i) by bv_omega,
      show t.machine.registers.sp - 2 + BitVec.ofNat 16 (2 * (i + 1) + 1) =
        t.machine.registers.sp + BitVec.ofNat 16 (2 * i + 1) by bv_omega,
      get_pushed_of_ne _ _ (by bv_omega) (by bv_omega),
      get_pushed_of_ne _ _ (by bv_omega) (by bv_omega)]
    exact values i v hv

/-- As long as the list has a value, a pop succeeds and returns the first one. -/
theorem pop_eq_ok (h : Represents s t) {w : Word} {l : List Word} (list : t.list = w :: l) :
    Machine.pop t.machine = .ok w t.machine.popped := by
  obtain ⟨depth, -, values⟩ := h
  have inside : t.machine.registers.sp ≠ 0xFFFF := by
    have := s.registers.sp.isLt
    rw [list, List.length_cons] at depth
    bv_omega
  have top : t.machine.top = w := by
    obtain ⟨low, high⟩ := values 0 w (by rw [list]; rfl)
    calc t.machine.top
        = .ofBytes (t.machine.memory.get (t.machine.registers.sp + 1))
            (t.machine.memory.get t.machine.registers.sp) := rfl
      _ = .ofBytes w.high w.low := by rw [← low, ← high]; simp
      _ = w := w.ofBytes_high_low
  rw [pop_of_ne inside, top]

theorem pop (h : Represents s t) (filled : t.list ≠ []) : Represents s (t.add .pop) := by
  obtain ⟨w, l, list⟩ := List.exists_cons_of_ne_nil filled
  rw [Tally.add_pop_of_ok (h.pop_eq_ok list) list]
  obtain ⟨depth, count, values⟩ := h
  rw [list, List.length_cons] at depth count
  have inside := s.registers.sp.isLt
  refine ⟨?_, ?_, fun i v hv => ?_⟩
  · show (t.machine.registers.sp + 2).toNat + 2 * l.length = _
    bv_omega
  · show l.length + (t.pops + 1) = t.pushes
    omega
  · show t.machine.memory.get (t.machine.registers.sp + 2 + _) = _ ∧
      t.machine.memory.get (t.machine.registers.sp + 2 + _) = _
    have moved := values (i + 1) v (by rw [list]; exact hv)
    rwa [show t.machine.registers.sp + 2 + BitVec.ofNat 16 (2 * i) =
        t.machine.registers.sp + BitVec.ofNat 16 (2 * (i + 1)) by bv_omega,
      show t.machine.registers.sp + 2 + BitVec.ofNat 16 (2 * i + 1) =
        t.machine.registers.sp + BitVec.ofNat 16 (2 * (i + 1) + 1) by bv_omega]

end Represents

/-! ### Sequences of calls -/

section Calls

variable {s : Machine} {calls : List StackCall}

theorem list_ne_nil_of_balanced (h : s.Balanced (calls ++ [.pop]))
    (before : Represents s (s.tally calls)) : (s.tally calls).list ≠ [] := by
  intro empty
  have count := before.count
  have here : (s.tally calls).pops + 1 ≤ (s.tally calls).pushes := by
    simpa only [tally_concat, Tally.add] using h _ List.prefix_rfl
  rw [empty, List.length_nil] at count
  omega

theorem represents_tally (h : s.Balanced calls) : Represents s (s.tally calls) := by
  induction calls using List.reverseRecOn with
  | nil => exact .start s
  | append_singleton calls c ih =>
    have before := ih (h.of_prefix (List.prefix_append calls [c]))
    rw [tally_concat]
    cases c with
    | push w => exact before.push w
    | pop => exact before.pop (list_ne_nil_of_balanced h before)

theorem pop_of_balanced {rest : List StackCall} (h : s.Balanced (calls ++ .pop :: rest)) :
    ∃ w l, (s.tally calls).list = w :: l ∧ (s.tally (calls ++ [.pop])).list = l ∧
      pop (s.tally calls).machine = .ok w (s.tally (calls ++ [.pop])).machine := by
  have now : s.Balanced (calls ++ [.pop]) := h.of_prefix ⟨rest, by simp⟩
  have before := represents_tally (now.of_prefix (List.prefix_append ..))
  obtain ⟨w, l, list⟩ := List.exists_cons_of_ne_nil (list_ne_nil_of_balanced now before)
  have popped := before.pop_eq_ok list
  refine ⟨w, l, list, ?_, ?_⟩
  · rw [tally_concat, Tally.add_pop_of_ok popped list]
  · rw [tally_concat, Tally.add_pop_of_ok popped list, popped]

/-- The bytes from the first stack pointer on, and those below every stack pointer since, are
left alone. -/
theorem get_tally_of_outside (h : s.Balanced calls) {x : Word}
    (outside : s.registers.sp ≤ x ∨ ∀ p, p <+: calls → x < (s.tally p).machine.registers.sp) :
    (s.tally calls).machine.memory.get x = s.memory.get x := by
  induction calls using List.reverseRecOn with
  | nil => rfl
  | append_singleton calls c ih =>
    have first := List.prefix_append calls [c]
    have kept := ih (h.of_prefix first) (outside.imp_right fun low p hp => low p (hp.trans first))
    have depth := (represents_tally (h.of_prefix first)).depth
    have last := outside.imp_right fun low => low _ List.prefix_rfl
    rw [← kept]
    rw [tally_concat] at last ⊢
    cases c with
    | pop => rw [Tally.add, memory_stateAfter_pop]
    | push w =>
      by_cases full : (s.tally calls).machine.registers.sp < 2
      · rw [Tally.add_push_of_lt full]
      · rw [Tally.add_push_of_not_lt full] at last ⊢
        have room : 2 ≤ (s.tally calls).machine.registers.sp.toNat := Nat.not_lt.mp full
        -- the two bytes that are written lie between the two bounds
        obtain above | below := last
        · exact get_pushed_of_ne _ w (by bv_omega) (by bv_omega)
        · change x < (s.tally calls).machine.registers.sp - 2 at below
          exact get_pushed_of_ne _ w (by bv_omega) (by bv_omega)

/-- Without pops, the list is made of the first words, as many as there are pairs of bytes below
the stack pointer. -/
theorem tally_pushes (s : Machine) (ws : List Word) :
    Represents s (s.tally (ws.map .push)) ∧ (s.tally (ws.map .push)).pops = 0 ∧
      (s.tally (ws.map .push)).list = (ws.take (s.registers.sp.toNat / 2)).reverse := by
  induction ws using List.reverseRecOn with
  | nil => exact ⟨.start s, rfl, by simp; rfl⟩
  | append_singleton ws w ih =>
    obtain ⟨before, pops, list⟩ := ih
    have full_iff := before.lt_two_iff
    rw [list, List.length_reverse, List.length_take] at full_iff
    rw [List.map_append, List.map_singleton, tally_concat]
    refine ⟨before.push w, ?_⟩
    by_cases full : (s.tally (ws.map .push)).machine.registers.sp < 2
    · have used : s.registers.sp.toNat / 2 ≤ ws.length := by
        have := full_iff.mp full
        omega
      rw [Tally.add_push_of_lt full, List.take_append_of_le_length used]
      exact ⟨pops, list⟩
    · have left : ws.length + 1 ≤ s.registers.sp.toNat / 2 := by
        have := mt full_iff.mpr full
        omega
      rw [Tally.add_push_of_not_lt full, List.take_of_length_le (by simpa using left),
        List.reverse_append, list, List.take_of_length_le (by omega)]
      exact ⟨pops, rfl⟩

end Calls

/-- **The stack is a list.** Calls that never pop more than they have pushed find the stack as the
list beside them. Every pop succeeds and returns the latest value that is left; the values lie
below the first stack pointer, each low byte first, and determine the stack pointer; a push fails
exactly where two bytes are missing below it, and then changes nothing; and the bytes outside the
stack stay as they were. So half as many pushes in a row succeed as there are bytes. -/
theorem stack_refines_list (s : Machine) :
    (∀ calls, s.Balanced calls →
      (s.tally calls).machine.registers.sp.toNat + 2 * (s.tally calls).list.length
          = s.registers.sp.toNat ∧
      (∀ i w, (s.tally calls).list[i]? = some w →
        (s.tally calls).machine.memory.get
            ((s.tally calls).machine.registers.sp + .ofNat 16 (2 * i)) = w.low ∧
          (s.tally calls).machine.memory.get
            ((s.tally calls).machine.registers.sp + .ofNat 16 (2 * i + 1)) = w.high) ∧
      (∀ before rest, calls = before ++ .pop :: rest →
        ∃ w l, (s.tally before).list = w :: l ∧ (s.tally (before ++ [.pop])).list = l ∧
          pop (s.tally before).machine = .ok w (s.tally (before ++ [.pop])).machine) ∧
      (∀ w f t, push w (s.tally calls).machine = .error f t ↔
        s.registers.sp.toNat - 2 * (s.tally calls).list.length < 2 ∧
          f = .stackOverflow (s.tally calls).machine.registers.sp ∧
          t = (s.tally calls).machine) ∧
      ∀ x, (s.registers.sp ≤ x ∨ ∀ p, p <+: calls → x < (s.tally p).machine.registers.sp) →
        (s.tally calls).machine.memory.get x = s.memory.get x) ∧
    ∀ ws : List Word,
      (s.tally (ws.map .push)).list = (ws.take (s.registers.sp.toNat / 2)).reverse ∧
      (s.tally (ws.map .push)).pushes = min ws.length (s.registers.sp.toNat / 2) := by
  refine ⟨fun calls h => ?_, fun ws => ?_⟩
  · have represents := represents_tally h
    refine ⟨represents.depth, represents.values, ?_, fun w f t => ?_,
      fun x => get_tally_of_outside h⟩
    · rintro before rest rfl
      exact pop_of_balanced h
    · rw [← represents.lt_two_iff, push_eq_error_iff]
  · obtain ⟨represents, pops, list⟩ := tally_pushes s ws
    have count := represents.count
    rw [pops, list, List.length_reverse, List.length_take, Nat.min_comm] at count
    exact ⟨list, count.symm⟩

/-- Three bytes below the stack pointer hold one word. The second push finds no room, which the
pop and the third push do not notice. -/
theorem stack_refines_list_at_bottom :
    let s : Machine := ⟨{ Registers.zero with sp := 3 }, Memory.zero.set 3 0x99, false⟩
    let calls : List StackCall := [.push 0xABCD, .push 0x1234, .pop, .push 0x5678]
    s.Balanced calls ∧ (s.tally calls).list = [0x5678] ∧
      (∃ t, pop (s.tally [.push 0xABCD, .push 0x1234]).machine = .ok 0xABCD t) ∧
      (s.tally calls).machine.memory.get 1 = 0x78 ∧ (s.tally calls).machine.memory.get 2 = 0x56 ∧
      (s.tally calls).machine.memory.get 3 = 0x99 ∧
      push 7 (s.tally calls).machine = .error (.stackOverflow 1) (s.tally calls).machine := by
  intro s calls
  have balanced : s.Balanced calls := by decide
  obtain ⟨-, values, pops, full, frame⟩ := (stack_refines_list s).1 calls balanced
  obtain ⟨w, l, list, -, popped⟩ := pops [.push 0xABCD, .push 0x1234] [.push 0x5678] rfl
  have list' : (s.tally [.push 0xABCD, .push 0x1234]).list = [0xABCD] := by decide
  obtain ⟨rfl, -⟩ := List.cons.inj (list.symm.trans list')
  obtain ⟨low, high⟩ := values 0 0x5678 (by decide)
  have sp : (s.tally calls).machine.registers.sp = 1 := by decide
  rw [sp] at low high full
  refine ⟨balanced, by decide, ⟨_, popped⟩, low, high, ?_, ?_⟩
  · exact frame 3 (.inl (by decide))
  · exact (full 7 _ _).mpr ⟨by decide, rfl, rfl⟩

end Sm83.Machine
