import Sm83.Command.Patch
import Sm83.Proofs.Address

/-!
# What a patch text stands for

The bytes of a patch are written in pairs, and the pairs are pairs of *bytes*: the text behind
the equals sign is cut after every second byte of its UTF-8 form, wherever the characters end.
`Command.readPairs` goes over characters instead. The two readings agree
(`readPairs_eq_some_iff`), for this reason: up to the first character beyond ASCII one character
is one byte, and that character itself takes at least two bytes, the first of them no digit
(`exists_utf8_cons_of_le`). So the pair that it touches is refused in either reading, and what
lies behind it does not matter.

`ReadsPatch` has one case for each way the text can fail and one for success. A case assumes
that the checks of the cases before it have passed, which is the order of the checks.

## Main statements

* `readPairs_eq_some_iff`, `readPairs_eq_none_iff`: bytes read from pairs of bytes.
* `splitAtEquals_eq_some_iff`: the text is cut at its first equals sign, so any other one is
  left among the digits.
* `patch_accepted_or_refused`: the reader of patches and the relation `ReadsPatch` agree.
-/

/-! ### Numerals of two characters -/

namespace Sm83.Numeral

theorem IsDigit.toNat_lt {c : Char} {d : Nat} (h : IsDigit 16 c d) : c.toNat < 128 := by
  rw [← digit?_eq_some_iff le_rfl, digit?_eq_some_iff_toNat le_rfl] at h
  omega

theorem denotes_pair_iff (base : Nat) (c d : Char) (n : Nat) :
    Denotes base [c, d] n ↔
      ∃ high low, IsDigit base c high ∧ IsDigit base d low ∧ n = base * high + low := by
  constructor
  · rintro ⟨_, _ | ⟨high, _ | ⟨low, ⟨⟩⟩⟩, rfl⟩
    exact ⟨_, _, high, low, by simp [Nat.ofDigits_cons, Nat.add_comm]⟩
  · rintro ⟨high, low, hc, hd, rfl⟩
    exact ⟨[high, low], .cons hc (.cons hd .nil), by simp [Nat.ofDigits_cons, Nat.add_comm]⟩

theorem denotes_singleton_iff (base : Nat) (c : Char) (n : Nat) :
    Denotes base [c] n ↔ IsDigit base c n := by
  constructor
  · rintro ⟨_, _ | ⟨digit, ⟨⟩⟩, rfl⟩
    simpa using digit
  · exact fun digit => ⟨[n], .cons digit .nil, by simp⟩

theorem writes_pair_iff (base : Nat) (c d : Char) (n : Nat) :
    Writes base [c, d] n ↔
      (∃ high low, IsDigit base c high ∧ IsDigit base d low ∧ n = base * high + low) ∨
        c = '+' ∧ IsDigit base d n := by
  rw [← denotes_pair_iff, ← denotes_singleton_iff, Writes]
  constructor
  · rintro ⟨run, rfl | h, -, denotes⟩
    · exact .inl denotes
    · cases h
      exact .inr ⟨rfl, denotes⟩
  · rintro (denotes | ⟨rfl, denotes⟩)
    · exact ⟨[c, d], .inl rfl, by simp, denotes⟩
    · exact ⟨[d], .inr rfl, by simp, denotes⟩

theorem Writes.pair_le {c d : Char} {n : Nat} (h : Writes 16 [c, d] n) : n ≤ 0xFF := by
  obtain ⟨high, low, ⟨_, -⟩, ⟨_, -⟩, rfl⟩ | ⟨-, _, -⟩ := (writes_pair_iff 16 c d n).mp h <;> omega

theorem Writes.pair_lt {c d : Char} {n : Nat} (h : Writes 16 [c, d] n) :
    c.toNat < 128 ∧ d.toNat < 128 := by
  obtain ⟨high, low, hc, hd, -⟩ | ⟨rfl, hd⟩ := (writes_pair_iff 16 c d n).mp h
  · exact ⟨hc.toNat_lt, hd.toNat_lt⟩
  · exact ⟨by decide, hd.toNat_lt⟩

end Sm83.Numeral

namespace Sm83.Command

open Numeral (IsDigit)

/-! ### Texts as bytes -/

/-- The bytes of a text in UTF-8. -/
def utf8 (cs : List Char) : List Byte :=
  cs.flatMap fun c => (String.utf8EncodeChar c).map UInt8.toBitVec

@[simp] theorem utf8_nil : utf8 [] = [] := rfl

theorem utf8_cons (c : Char) (cs : List Char) :
    utf8 (c :: cs) = (String.utf8EncodeChar c).map UInt8.toBitVec ++ utf8 cs := rfl

theorem utf8Length_eq (cs : List Char) : utf8Length cs = (utf8 cs).length := by
  induction cs with
  | nil => rfl
  | cons c cs ih => simp [utf8Length, utf8_cons, String.length_utf8EncodeChar, ih]

theorem utf8_cons_of_lt {c : Char} (h : c.toNat < 128) (cs : List Char) :
    utf8 (c :: cs) = BitVec.ofNat 8 c.toNat :: utf8 cs := by
  rw [utf8_cons, String.utf8EncodeChar, if_pos (by simpa using Nat.le_of_lt_succ h)]
  rfl

/-- A character beyond ASCII takes more than one byte, and the first of them is beyond ASCII. -/
theorem exists_utf8_cons_of_le {c : Char} (h : 128 ≤ c.toNat) (cs : List Char) :
    ∃ x y rest, utf8 (c :: cs) = x :: y :: rest ∧ 128 ≤ x.toNat := by
  rw [utf8_cons]
  unfold String.utf8EncodeChar
  dsimp only
  split_ifs with one
  · exact absurd one (Nat.not_le.mpr h)
  -- two, three or four bytes, each led by one with its two highest bits set
  all_goals
    refine ⟨_, _, _, rfl, ?_⟩
    simp only [UInt8.toNat_toBitVec, UInt8.toNat_ofNat', Nat.reducePow]
    omega

/-! ### Pairs of bytes -/

/-- The bytes of a text, two at a time. -/
def pairs : List Byte → List (Byte × Byte)
  | x :: y :: rest => (x, y) :: pairs rest
  | _ => []

/-- `x` is the one byte of a hexadecimal digit with value `d`. -/
def IsHexByte (x : Byte) (d : Nat) : Prop :=
  ∃ c, IsDigit 16 c d ∧ x = .ofNat 8 c.toNat

/-- Two digits write the byte of their value. A plus sign may stand in place of the first. -/
def WritesByte : Byte × Byte → Byte → Prop
  | (x, y), b =>
    (∃ high low, IsHexByte x high ∧ IsHexByte y low ∧ b = .ofNat 8 (16 * high + low)) ∨
      x = 0x2B ∧ ∃ low, IsHexByte y low ∧ b = .ofNat 8 low

theorem IsHexByte.toNat_lt {x : Byte} {d : Nat} (h : IsHexByte x d) : x.toNat < 128 := by
  obtain ⟨c, digit, rfl⟩ := h
  have := digit.toNat_lt
  rw [BitVec.toNat_ofNat]
  omega

theorem isHexByte_iff {c : Char} (h : c.toNat < 128) (d : Nat) :
    IsHexByte (.ofNat 8 c.toNat) d ↔ IsDigit 16 c d := by
  refine ⟨?_, fun digit => ⟨c, digit, rfl⟩⟩
  rintro ⟨c', digit, same⟩
  have := digit.toNat_lt
  have : c = c' := by
    rw [← Char.toNat_inj]
    simpa [← BitVec.toNat_inj, Nat.mod_eq_of_lt, h.trans, this.trans] using same
  exact this ▸ digit

theorem WritesByte.toNat_lt {x y b : Byte} (h : WritesByte (x, y) b) :
    x.toNat < 128 ∧ y.toNat < 128 := by
  obtain ⟨high, low, hx, hy, -⟩ | ⟨rfl, low, hy, -⟩ := h
  · exact ⟨hx.toNat_lt, hy.toNat_lt⟩
  · exact ⟨by decide, hy.toNat_lt⟩

/-- Two characters of ASCII write a byte exactly if they are a numeral. -/
theorem writesByte_iff {c d : Char} (hc : c.toNat < 128) (hd : d.toNat < 128) (b : Byte) :
    WritesByte (.ofNat 8 c.toNat, .ofNat 8 d.toNat) b ↔
      ∃ n, Numeral.Writes 16 [c, d] n ∧ b = .ofNat 8 n := by
  have plus : BitVec.ofNat 8 c.toNat = 0x2B ↔ c = '+' := by
    rw [← Char.toNat_inj, ← BitVec.toNat_inj, BitVec.toNat_ofNat, Nat.mod_eq_of_lt (by omega)]
    rfl
  simp only [WritesByte, isHexByte_iff hc, isHexByte_iff hd, plus, Numeral.writes_pair_iff]
  constructor
  · rintro (⟨high, low, hc, hd, rfl⟩ | ⟨rfl, low, hd, rfl⟩)
    · exact ⟨_, .inl ⟨high, low, hc, hd, rfl⟩, rfl⟩
    · exact ⟨low, .inr ⟨rfl, hd⟩, rfl⟩
  · rintro ⟨n, ⟨high, low, hc, hd, rfl⟩ | ⟨rfl, hd⟩, rfl⟩
    · exact .inl ⟨high, low, hc, hd, rfl⟩
    · exact .inr ⟨rfl, n, hd, rfl⟩

theorem readPairs_cons_cons_eq_some_iff (c d : Char) (rest : List Char) (bytes : List Byte) :
    readPairs (c :: d :: rest) = some bytes ↔
      ∃ n ns, Numeral.Writes 16 [c, d] n ∧ readPairs rest = some ns ∧
        .ofNat 8 n :: ns = bytes := by
  have numeral (n : Nat) : Numeral.read 16 0xFF [c, d] = .ok n ↔ Numeral.Writes 16 [c, d] n := by
    rw [Numeral.read_eq_ok_iff (by decide) le_rfl]
    exact and_iff_left_of_imp Numeral.Writes.pair_le
  simp only [← numeral]
  constructor
  · intro h
    rw [readPairs] at h
    split at h
    · rename_i n ns hn hns
      exact ⟨n, ns, hn, hns, Option.some.inj h⟩
    · cases h
  · rintro ⟨n, ns, hn, hns, rfl⟩
    simp only [readPairs, hn, hns]

theorem not_forall₂_of_le {c : Char} (wide : 128 ≤ c.toNat) (cs : List Char) (bytes : List Byte) :
    ¬ List.Forall₂ WritesByte (pairs (utf8 (c :: cs))) bytes := by
  obtain ⟨x, y, rest, eq, hx⟩ := exists_utf8_cons_of_le wide cs
  rw [eq, pairs]
  rintro (_ | ⟨writes, _⟩)
  exact absurd writes.toNat_lt.1 (Nat.not_lt.mpr hx)

theorem readPairs_eq_some_iff : ∀ (cs : List Char) (bytes : List Byte),
    (utf8 cs).length % 2 = 0 →
      (readPairs cs = some bytes ↔ List.Forall₂ WritesByte (pairs (utf8 cs)) bytes)
  | [], bytes, _ => by simp [readPairs, pairs, eq_comm]
  | [c], bytes, even => by
    -- on its own, a character of ASCII is an odd number of bytes
    obtain ascii | wide := lt_or_ge c.toNat 128
    · rw [utf8_cons_of_lt ascii] at even
      cases even
    · simp only [readPairs, not_forall₂_of_le wide, reduceCtorEq]
  | c :: d :: rest, bytes, even => by
    rw [readPairs_cons_cons_eq_some_iff]
    obtain ascii | wide := lt_or_ge c.toNat 128
    · obtain ascii' | wide := lt_or_ge d.toNat 128
      · rw [utf8_cons_of_lt ascii, utf8_cons_of_lt ascii'] at even ⊢
        have ih (ns : List Byte) := readPairs_eq_some_iff rest ns <| by
          simp only [List.length_cons] at even
          omega
        simp only [pairs, List.forall₂_cons_left_iff, writesByte_iff ascii ascii', ← ih]
        constructor
        · rintro ⟨n, ns, writes, hns, rfl⟩
          exact ⟨_, ns, ⟨n, writes, rfl⟩, hns, rfl⟩
        · rintro ⟨_, ns, ⟨n, writes, rfl⟩, hns, rfl⟩
          exact ⟨n, ns, writes, hns, rfl⟩
      · -- the first byte of `d` is the second of the pair
        obtain ⟨x, y, more, eq, hx⟩ := exists_utf8_cons_of_le wide rest
        rw [utf8_cons_of_lt ascii, eq, pairs]
        constructor
        · rintro ⟨n, ns, writes, -⟩
          exact absurd writes.pair_lt.2 (Nat.not_lt.mpr wide)
        · rintro (_ | ⟨writes, _⟩)
          exact absurd writes.toNat_lt.2 (Nat.not_lt.mpr hx)
    · refine iff_of_false ?_ (not_forall₂_of_le wide (d :: rest) bytes)
      rintro ⟨n, ns, writes, -⟩
      exact absurd writes.pair_lt.1 (Nat.not_lt.mpr wide)

theorem exists_forall₂_iff {α β : Type} {R : α → β → Prop} {xs : List α} :
    (∃ ys, List.Forall₂ R xs ys) ↔ ∀ x ∈ xs, ∃ y, R x y := by
  induction xs with
  | nil => simp
  | cons x xs ih => simp [List.forall₂_cons_left_iff, ← ih]

theorem readPairs_eq_none_iff (cs : List Char) (even : (utf8 cs).length % 2 = 0) :
    readPairs cs = none ↔ ∃ p ∈ pairs (utf8 cs), ∀ b, ¬ WritesByte p b := by
  calc readPairs cs = none
      ↔ ¬ ∃ bytes, readPairs cs = some bytes := by
        rw [← Option.isSome_iff_exists, Option.not_isSome_iff_eq_none]
    _ ↔ ¬ ∃ bytes, List.Forall₂ WritesByte (pairs (utf8 cs)) bytes := by
        simp only [readPairs_eq_some_iff cs _ even]
    _ ↔ ∃ p ∈ pairs (utf8 cs), ∀ b, ¬ WritesByte p b := by
        rw [exists_forall₂_iff]
        push Not
        rfl

/-! ### The whole text -/

/-- The text falls apart at its first equals sign. -/
def Splits (text before after : List Char) : Prop :=
  text = before ++ '=' :: after ∧ '=' ∉ before

theorem splitAtEquals_eq_some_iff (text before after : List Char) :
    splitAtEquals text = some (before, after) ↔ Splits text before after := by
  constructor
  · intro h
    rw [splitAtEquals] at h
    have sep := List.head?_dropWhile_not (· ≠ '=') text
    split at h
    · cases h
    · rename_i c rest hd
      cases h
      rw [hd] at sep
      obtain rfl : c = '=' := by simpa using sep
      refine ⟨by rw [← hd, List.takeWhile_append_dropWhile], fun mem => ?_⟩
      simpa using List.all_eq_true.mp List.all_takeWhile _ mem
  · rintro ⟨rfl, first⟩
    have other : ∀ c ∈ before, decide (c ≠ '=') = true := by
      intro c hc
      simpa using fun h : c = '=' => first (h ▸ hc)
    rw [splitAtEquals, List.dropWhile_append_of_pos other, List.takeWhile_append_of_pos other]
    simp

theorem splitAtEquals_eq_none_iff (text : List Char) :
    splitAtEquals text = none ↔ '=' ∉ text := by
  constructor
  · intro h mem
    obtain ⟨before, after, split⟩ := List.eq_append_cons_of_mem mem
    rw [(splitAtEquals_eq_some_iff _ _ _).mpr split] at h
    cases h
  · intro missing
    rw [Option.eq_none_iff_forall_ne_some]
    rintro ⟨before, after⟩ h
    obtain ⟨rfl, -⟩ := (splitAtEquals_eq_some_iff _ _ _).mp h
    simp at missing

/-- **What a patch text stands for**, or what is wrong with it first. -/
inductive ReadsPatch (text : List Char) : Except PatchError Patch → Prop where
  | noEqualsSign (missing : '=' ∉ text) : ReadsPatch text (.error (.noEqualsSign text))
  | badAddress {before digits : List Char} {e : AddressError} (split : Splits text before digits)
      (refused : readAddress before = .error e) : ReadsPatch text (.error (.badAddress e))
  | badLength {before digits : List Char} {a : Word} (split : Splits text before digits)
      (address : readAddress before = .ok a)
      (unpaired : digits = [] ∨ (utf8 digits).length % 2 = 1) :
      ReadsPatch text (.error (.badLength digits))
  | badByte {before digits : List Char} {a : Word} {p : Byte × Byte}
      (split : Splits text before digits) (address : readAddress before = .ok a)
      (filled : digits ≠ []) (even : (utf8 digits).length % 2 = 0)
      (mem : p ∈ pairs (utf8 digits)) (bad : ∀ b, ¬ WritesByte p b) :
      ReadsPatch text (.error (.badByte digits))
  | patch {before digits : List Char} {a : Word} {bytes : List Byte}
      (split : Splits text before digits) (address : readAddress before = .ok a)
      (filled : digits ≠ []) (even : (utf8 digits).length % 2 = 0)
      (good : List.Forall₂ WritesByte (pairs (utf8 digits)) bytes) :
      ReadsPatch text (.ok ⟨a, bytes⟩)

theorem readPatch_of_splits {text before digits : List Char} (h : Splits text before digits) :
    readPatch text =
      match readAddress before with
      | .error e => .error (.badAddress e)
      | .ok a =>
        if digits = [] ∨ (utf8 digits).length % 2 ≠ 0 then .error (.badLength digits)
        else
          match readPairs digits with
          | none => .error (.badByte digits)
          | some bytes => .ok ⟨a, bytes⟩ := by
  have split := (splitAtEquals_eq_some_iff _ _ _).mpr h
  cases ha : readAddress before <;> cases hp : readPairs digits <;>
    simp only [readPatch, split, utf8Length_eq, ha, hp]

/-- **Every patch text is read, or refused for the first thing that is wrong with it.** There is
one answer for each text, and `ReadsPatch` says which. -/
theorem patch_accepted_or_refused (text : List Char) (r : Except PatchError Patch) :
    readPatch text = r ↔ ReadsPatch text r := by
  constructor
  · -- the checks, in their order
    rintro rfl
    cases hs : splitAtEquals text with
    | none =>
      simp only [readPatch, hs]
      exact .noEqualsSign ((splitAtEquals_eq_none_iff text).mp hs)
    | some parts =>
      obtain ⟨before, digits⟩ := parts
      have split := (splitAtEquals_eq_some_iff _ _ _).mp hs
      rw [readPatch_of_splits split]
      cases ha : readAddress before with
      | error e => exact .badAddress split ha
      | ok a =>
        dsimp only
        split_ifs with unpaired
        · exact .badLength split ha (unpaired.imp_right (by omega))
        · obtain ⟨filled, even⟩ := not_or.mp unpaired
          rw [not_not] at even
          cases hp : readPairs digits with
          | some bytes =>
            exact .patch split ha filled even ((readPairs_eq_some_iff digits bytes even).mp hp)
          | none =>
            obtain ⟨p, mem, bad⟩ := (readPairs_eq_none_iff digits even).mp hp
            exact .badByte split ha filled even mem bad
  · intro h
    cases h with
    | noEqualsSign missing => simp only [readPatch, (splitAtEquals_eq_none_iff text).mpr missing]
    | badAddress split refused => rw [readPatch_of_splits split, refused]
    | badLength split address unpaired =>
      rw [readPatch_of_splits split, address]
      exact if_pos (unpaired.imp_right (by omega))
    | @badByte before digits a p split address filled even mem bad =>
      rw [readPatch_of_splits split, address]
      simp [filled, even, (readPairs_eq_none_iff digits even).mpr ⟨p, mem, bad⟩]
    | @patch before digits a bytes split address filled even good =>
      rw [readPatch_of_splits split, address]
      simp [filled, even, (readPairs_eq_some_iff digits bytes even).mpr good]

example : readPatch "0x10=+a0B".toList = .ok ⟨0x10, [0x0A, 0x0B]⟩ := by decide

-- A second equals sign is among the digits.
example : readPatch "1==1".toList = .error (.badByte "=1".toList) := by decide

end Sm83.Command
