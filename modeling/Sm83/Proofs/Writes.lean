import Mathlib.Algebra.Group.Nat.Defs
import Sm83.Memory
import Sm83.Proofs.Action

/-!
# Writes and sequences of writes

Memory is written by the byte, by the word and by the block. A write is an action that changes
memory in place, byte after byte, and might fail half way. That none of them does is a property of
the checks: each is made ahead of the first byte, and it covers the last one. So what a write comes
to is said for each of the three in turn, where it succeeds and where it fails (`writeByte_of_lt`,
`writeWord_of_lt`, `writeBlock_of_le` and their counterparts).

From there on the three are one kind of call, `Memory.Write`: a number of bytes to put from an
address on. `Write.call_eq` says what every call comes to. It succeeds if its bytes fit as a whole
and puts all of them there, and otherwise it fails and leaves memory alone.

What a sequence of calls leaves in memory follows by induction on the sequence (`get_after`): each
byte comes from the latest of the calls that succeeded and cover it. `last_write_wins` puts this
together with the exact bounds of writing and reading.
-/

namespace Sm83

/-! ### All bytes of a bank -/

namespace Bank

variable {n : Nat}

theorem get_halves_of_lt (low high : Bank n) {a : Nat} (h : a < 2 ^ n) :
    (halves low high).get a = low.get a := by
  rw [get, Nat.testBit_lt_two_pow h, if_neg Bool.false_ne_true]

theorem get_halves_add (low high : Bank n) {a : Nat} (h : a < 2 ^ n) :
    (halves low high).get (2 ^ n + a) = high.get a := by
  have h_choice : (2 ^ n + a).testBit n = true := by
    rw [Nat.testBit_two_pow_add_eq, Nat.testBit_lt_two_pow h]
    rfl
  rw [get, h_choice, if_pos rfl]
  -- the bit that chose the half does not count within it
  exact get_congr high fun i hi => Nat.testBit_two_pow_add_gt hi a

/-- The list of all bytes has them at their addresses. -/
theorem toListAppend_eq (t : Bank n) (rest : List Byte) :
    t.toListAppend rest = (List.range (2 ^ n)).map t.get ++ rest := by
  induction t generalizing rest with
  | cell b => rfl
  | @halves m low high ihl ihh =>
    have h_low : (List.range (2 ^ m)).map (halves low high).get
        = (List.range (2 ^ m)).map low.get :=
      List.map_congr_left fun a ha => get_halves_of_lt low high (List.mem_range.1 ha)
    have h_high : (List.range (2 ^ m)).map ((halves low high).get ∘ (2 ^ m + ·))
        = (List.range (2 ^ m)).map high.get :=
      List.map_congr_left fun a ha => get_halves_add low high (List.mem_range.1 ha)
    rw [toListAppend, ihh, ihl, Nat.pow_succ, Nat.mul_two, List.range_add, List.map_append,
      List.map_map, h_low, h_high, List.append_assoc]

end Bank

namespace Memory

variable {m : Memory} {x : Word}

theorem toList_eq (m : Memory) : m.toList = (List.range size).map fun a => m.get (.ofNat 16 a) := by
  rw [toList, Bank.toList, Bank.toListAppend_eq, List.append_nil]
  refine List.map_congr_left fun a ha => ?_
  have h_toNat : (BitVec.ofNat 16 a).toNat = a := Nat.mod_eq_of_lt (List.mem_range.1 ha)
  rw [get, h_toNat]

/-! ### Single writes -/

section Writing

variable {a : Nat} {bs : List Byte}

theorem writeByte_of_lt (h : a < size) (b : Byte) :
    writeByte a b m = .ok () (m.set (.ofNat 16 a) b) := by
  change (if size ≤ a then _ else _ : Action Unit) m = _
  rw [if_neg (Nat.not_le.2 h)]
  rfl

theorem writeByte_of_le (h : size ≤ a) (b : Byte) :
    writeByte a b m = .error (.outOfRange a) m := by
  change (if size ≤ a then _ else _ : Action Unit) m = _
  rw [if_pos h]
  rfl

/-- Memory with the bytes of a block from an address on. -/
def overwrite (m : Memory) (a : Nat) : List Byte → Memory
  | [] => m
  | b :: bs => (m.set (.ofNat 16 a) b).overwrite (a + 1) bs

/-- Bytes that have an address each are all written. -/
theorem writeBytes_of_le (h : a + bs.length ≤ size) :
    writeBytes a bs m = .ok () (m.overwrite a bs) := by
  induction bs generalizing m a with
  | nil => rfl
  | cons b bs ih =>
    rw [List.length_cons] at h
    rw [writeBytes, bind_ok (writeByte_of_lt (by omega) b)]
    exact ih (by omega)

/-- Where the high byte of a word has an address, both are written. -/
theorem writeWord_of_lt (h : a + 1 < size) (w : Word) :
    writeWord a w m = .ok () (m.overwrite a [w.low, w.high]) := by
  change (if size ≤ a + 1 then _ else _ : Action Unit) m = _
  rw [if_neg (Nat.not_le.2 h)]
  change (writeByte a w.low >>= fun _ => writeByte (a + 1) w.high) m = _
  rw [bind_ok (writeByte_of_lt (Nat.lt_of_succ_lt h) w.low), writeByte_of_lt h]
  rfl

/-- A word that runs past the end of memory is refused before its low byte is written. -/
theorem writeWord_of_le (h : size ≤ a + 1) (w : Word) :
    writeWord a w m = .error (.outOfRange (a + 1)) m := by
  change (if size ≤ a + 1 then _ else _ : Action Unit) m = _
  rw [if_pos h]
  rfl

theorem writeBlock_of_le (h : a + bs.length ≤ size) :
    writeBlock a bs m = .ok () (m.overwrite a bs) := by
  change (if size < a + bs.length then _ else _ : Action Unit) m = _
  rw [if_neg (Nat.not_lt.2 h)]
  exact writeBytes_of_le h

/-- A block that runs past the end of memory is refused before its first byte is written. -/
theorem writeBlock_of_lt (h : size < a + bs.length) :
    writeBlock a bs m = .error (.blockTooLarge a bs.length) m := by
  change (if size < a + bs.length then _ else _ : Action Unit) m = _
  rw [if_pos h]
  rfl

end Writing

/-- Every word addresses a byte. -/
theorem writeByte_toNat (m : Memory) (a : Word) (b : Byte) :
    writeByte a.toNat b m = .ok () (m.set a b) := by
  rw [writeByte_of_lt a.isLt, BitVec.ofNat_toNat, BitVec.setWidth_eq]

theorem overwrite_word (m : Memory) (a w : Word) :
    m.overwrite a.toNat [w.low, w.high] = m.setWord a w := by
  have h_low : BitVec.ofNat 16 a.toNat = a := BitVec.ofNat_toNat 16 a
  have h_high : BitVec.ofNat 16 (a.toNat + 1) = a + 1 := by rw [BitVec.ofNat_add, h_low]; rfl
  rw [overwrite, overwrite, overwrite, setWord, h_low, h_high]

/-- A word can be written everywhere but at the last address. -/
theorem writeWord_toNat (m : Memory) (a w : Word) :
    writeWord a.toNat w m
      = if a = 0xFFFF then .error (.outOfRange size) m else .ok () (m.setWord a w) := by
  split
  · next h =>
    subst h
    exact writeWord_of_le (Nat.le_refl _) w
  · next h =>
    have h_ne : a.toNat ≠ 0xFFFF := fun h' => h (BitVec.eq_of_toNat_eq h')
    have h_lt := a.isLt
    rw [writeWord_of_lt (by rw [size]; omega), overwrite_word]

/-! ### Blocks -/

/-- The byte that a block from the address `a` on has at `x`, if it covers `x`. -/
def blockAt (a : Nat) (bs : List Byte) (x : Word) : Option Byte :=
  if a ≤ x.toNat then bs[x.toNat - a]? else none

theorem blockAt_nil (a : Nat) (x : Word) : blockAt a [] x = none := by
  unfold blockAt
  split <;> rfl

theorem blockAt_cons_self (b : Byte) (bs : List Byte) (x : Word) :
    blockAt x.toNat (b :: bs) x = some b := by
  rw [blockAt, if_pos (Nat.le_refl _), Nat.sub_self, List.getElem?_cons_zero]

theorem blockAt_cons_of_ne {a : Nat} (h : x.toNat ≠ a) (b : Byte) (bs : List Byte) :
    blockAt a (b :: bs) x = blockAt (a + 1) bs x := by
  unfold blockAt
  by_cases h_le : a + 1 ≤ x.toNat
  · have h_sub : x.toNat - a = x.toNat - (a + 1) + 1 := by omega
    rw [if_pos h_le, if_pos (Nat.le_of_succ_le h_le), h_sub, List.getElem?_cons_succ]
  · rw [if_neg h_le, if_neg (by omega)]

/-- A block that lies in memory is seen where it covers memory and nowhere else. -/
theorem get_overwrite (m : Memory) {a : Nat} {bs : List Byte} (h : a + bs.length ≤ size)
    (x : Word) : (m.overwrite a bs).get x = (blockAt a bs x).getD (m.get x) := by
  induction bs generalizing m a with
  | nil =>
    rw [blockAt_nil]
    rfl
  | cons b bs ih =>
    rw [List.length_cons] at h
    rw [overwrite, ih _ (by omega), get_set]
    have h_toNat : (BitVec.ofNat 16 a).toNat = a := Nat.mod_eq_of_lt (by rw [size] at h; omega)
    by_cases hx : x.toNat = a
    · -- the bytes behind the first one do not reach back to it
      have h_none : blockAt (a + 1) bs x = none := if_neg (by omega)
      rw [h_none, if_pos (BitVec.eq_of_toNat_eq (hx.trans h_toNat.symm)), ← hx, blockAt_cons_self]
      rfl
    · have h_ne : x ≠ .ofNat 16 a := fun h => hx (h ▸ h_toNat)
      rw [if_neg h_ne, blockAt_cons_of_ne hx]

/-! ### Calls -/

/-- A call that writes to memory. -/
inductive Write where
  | block (a : Nat) (bs : List Byte)
  | byte (a : Nat) (b : Byte)
  | word (a : Nat) (w : Word)

namespace Write

/-- Makes the call. -/
def call : Write → Action Unit
  | block a bs => writeBlock a bs
  | byte a b => writeByte a b
  | word a w => writeWord a w

/-- The first address that is written. -/
def address : Write → Nat
  | block a _ | byte a _ | word a _ => a

/-- The bytes that are written, in the order of their addresses. -/
def bytes : Write → List Byte
  | block _ bs => bs
  | byte _ b => [b]
  | word _ w => [w.low, w.high]

/-- The byte that a call puts at `x`, if it covers `x`. -/
def put (w : Write) (x : Word) : Option Byte := blockAt w.address w.bytes x

/-- Why a call fails, if it does. A block names itself, a byte its address, and a word the address
of its high byte, even if the low one is missing as well. -/
def fault : Write → Fault
  | block a bs => .blockTooLarge a bs.length
  | byte a _ => .outOfRange a
  | word a _ => .outOfRange (a + 1)

/-- **What a call comes to.** The three checks are one: a call puts all its bytes if they fit as a
whole, and otherwise it fails and leaves memory alone. -/
theorem call_eq (w : Write) (m : Memory) :
    w.call m = if w.address + w.bytes.length ≤ size then .ok () (m.overwrite w.address w.bytes)
      else .error w.fault m := by
  by_cases h : w.address + w.bytes.length ≤ size
  · rw [if_pos h]
    cases w with
    | block a bs => exact writeBlock_of_le h
    | byte a b => exact writeByte_of_lt h b
    | word a w => exact writeWord_of_lt h w
  · rw [if_neg h]
    have h := Nat.not_le.1 h
    cases w with
    | block a bs => exact writeBlock_of_lt h
    | byte a b => exact writeByte_of_le (Nat.le_of_lt_succ h) b
    | word a w => exact writeWord_of_le (Nat.le_of_lt_succ h) w

theorem answer_call (w : Write) (m : Memory) :
    answer (w.call m) = if w.address + w.bytes.length ≤ size then .ok () else .error w.fault := by
  rw [call_eq]
  split <;> rfl

/-- A call that fails changes no byte. -/
theorem eq_of_call_error {w : Write} {m t : Memory} {f : Fault} (h : w.call m = .error f t) :
    t = m := by
  rw [call_eq] at h
  split at h
  · cases h
  · cases h
    rfl

theorem get_stateAfter_call (w : Write) (m : Memory) (x : Word) :
    (stateAfter (w.call m)).get x
      = (if (answer (w.call m)).isOk then w.put x else none).getD (m.get x) := by
  rw [call_eq]
  split
  · next h => exact m.get_overwrite h x
  · rfl

end Write

/-! ### Sequences of calls -/

/-- Memory after calls that are made one after the other, whether or not they succeed. -/
def after (m : Memory) : List Write → Memory
  | [] => m
  | w :: ws => (stateAfter (w.call m)).after ws

/-- Those of a sequence of calls that succeed. -/
def successes (m : Memory) : List Write → List Write
  | [] => []
  | w :: ws =>
    if (answer (w.call m)).isOk then w :: (stateAfter (w.call m)).successes ws
    else (stateAfter (w.call m)).successes ws

/-- Where every call fits, all of them succeed. -/
theorem successes_eq_self {ws : List Write} (h : ∀ w ∈ ws, w.address + w.bytes.length ≤ size)
    (m : Memory) : m.successes ws = ws := by
  induction ws generalizing m with
  | nil => rfl
  | cons w ws ih =>
    obtain ⟨hw, h⟩ := List.forall_mem_cons.1 h
    have h_ok : (answer (w.call m)).isOk := by rw [w.answer_call, if_pos hw]; rfl
    rw [successes, if_pos h_ok, ih h]

/-- **The last write wins.** Each byte comes from the latest successful call that covers it, and
stays as it was if there is none. -/
theorem get_after (m : Memory) (ws : List Write) (x : Word) :
    (m.after ws).get x = ((m.successes ws).reverse.findSome? (·.put x)).getD (m.get x) := by
  induction ws generalizing m with
  | nil => rfl
  | cons w ws ih =>
    rw [after, ih, w.get_stateAfter_call m x, successes]
    split
    · rw [List.reverse_cons, List.findSome?_append, List.findSome?_singleton, Option.getD_or]
    · rfl

/-! ### Reading -/

theorem readByte_eq (m : Memory) (a : Nat) :
    m.readByte a = if a < 0x10000 then .ok (m.get (.ofNat 16 a)) else .error (.outOfRange a) := rfl

/-- A word is read where both its bytes are, and otherwise the first address that is missing is
reported. -/
theorem readWord_eq (m : Memory) (a : Nat) :
    m.readWord a =
      if a + 1 < 0x10000 then .ok (.ofBytes (m.get (.ofNat 16 (a + 1))) (m.get (.ofNat 16 a)))
      else .error (.outOfRange (max a 0x10000)) := by
  rw [readWord, readByte_eq, readByte_eq]
  rcases Nat.lt_trichotomy (a + 1) 0x10000 with h | h | h
  · rw [if_pos h, if_pos h, if_pos (Nat.lt_of_succ_lt h)]
    rfl
  · -- the low byte is the last one in memory
    have h_max : max a 0x10000 = a + 1 := by omega
    rw [if_neg (Nat.not_lt.2 (Nat.le_of_eq h.symm)), if_neg (Nat.not_lt.2 (Nat.le_of_eq h.symm)),
      if_pos (by omega), h_max]
    rfl
  · have h_max : max a 0x10000 = a := by omega
    rw [if_neg (Nat.not_lt_of_gt h), if_neg (Nat.not_lt_of_gt h), if_neg (by omega), h_max]
    rfl

/-- **Memory is a map in which the last write wins, with exact bounds.** Calls are made on zeroed
memory, one after the other. Each byte is what the latest successful call covering it has put
there, or zero. A call succeeds exactly if all its bytes lie in memory, and a call that fails
changes none. Bytes and words are read exactly where they lie in memory. -/
theorem last_write_wins (ws : List Write) :
    let m := zero.after ws
    (m.toList.length = 0x10000 ∧ ∀ x : Word, m.toList[x.toNat]? = some (m.get x)) ∧
      (∀ x : Word,
        m.get x = ((zero.successes ws).reverse.findSome? (·.put x)).getD 0) ∧
      (∀ a bs, answer ((Write.block a bs).call m) =
        if a + bs.length ≤ 0x10000 then .ok () else .error (.blockTooLarge a bs.length)) ∧
      (∀ a b, answer ((Write.byte a b).call m) =
        if a < 0x10000 then .ok () else .error (.outOfRange a)) ∧
      (∀ a w, answer ((Write.word a w).call m) =
        if a + 1 < 0x10000 then .ok () else .error (.outOfRange (a + 1))) ∧
      (∀ w f t, Write.call w m = .error f t → t = m) ∧
      (∀ a, m.readByte a =
        if a < 0x10000 then .ok (m.get (.ofNat 16 a)) else .error (.outOfRange a)) ∧
      ∀ a, (m.readWord a).map BitVec.toNat =
        if a + 1 < 0x10000 then
          .ok ((m.get (.ofNat 16 a)).toNat + 256 * (m.get (.ofNat 16 (a + 1))).toNat)
        else .error (.outOfRange (max a 0x10000)) := by
  intro m
  refine ⟨⟨?_, ?_⟩, ?_, fun a bs => Write.answer_call _ m, fun a b => Write.answer_call _ m,
    fun a w => Write.answer_call _ m, fun w f t => Write.eq_of_call_error, m.readByte_eq, ?_⟩
  · rw [toList_eq, List.length_map, List.length_range]
    rfl
  · intro x
    have h_range : (List.range size)[x.toNat]? = some x.toNat := List.getElem?_range x.isLt
    rw [toList_eq, List.getElem?_map, h_range, Option.map_some, BitVec.ofNat_toNat,
      BitVec.setWidth_eq]
  · intro x
    rw [get_after, get_zero]
  · intro a
    rw [readWord_eq]
    split
    · rw [Except.map, Word.toNat_ofBytes, Nat.add_comm]
    · rfl

/-- A word that straddles the end of memory is refused as a whole, so that an earlier byte stays. -/
example : let ws := [Write.byte 0xFFFF 7, .word 0xFFFF 0x1234, .block 0x10000 []]
    (zero.after ws).get 0xFFFF = 7 ∧ (zero.successes ws).length = 2 := by decide

end Memory

end Sm83
