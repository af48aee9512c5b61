import Mathlib.Data.List.Forall2
import Mathlib.Data.Nat.Digits.Defs
import Mathlib.Tactic.Ring
import Sm83.Command.Address
import Sm83.Text.Hex

/-!
# What an address text stands for

`Command.readAddress` trims a text, looks for the marker of a base and reads a numeral digit by
digit. Here the language it accepts is said without any of these steps, and so is the reason it
gives for every text outside that language (`Command.ReadsAddress`,
`Command.readAddress_eq_iff`).

The work is in the numerals. A reader that goes from the left stops at the first thing that is
wrong, and two things can be: a character that is no digit, and a value above the limit. Which
of them it meets is decided by the longest run of digits at the start of the text
(`Numeral.Leads`). The value of a run only grows as digits are appended
(`Numeral.le_ofDigits_reverse_cons`), so a run whose value is above the limit has been refused
by its end, and a run within the limit is read in full. `Numeral.readDigits_of_leads` says so in
one equation, and the acceptance and the two errors are read off it.

Values are those of `Nat.ofDigits`, so leading zeros need no word of their own.

## Main statements

* `Numeral.read_eq_ok_iff`, `Numeral.read_eq_error_iff`: which numerals are read, and why the
  others are not.
* `Text.trims_iff`: trimming leaves the text between the white space at its two ends.
* `Command.readAddress_eq_iff`: the reader of addresses and the relation `ReadsAddress` agree.
* `Command.address_accepted_or_explained`: the numbers it returns and the errors it words.
-/

namespace Sm83.Numeral

/-! ### Digits -/

section Digits

/-- `c` is a digit of the base, in either case, and its value is `d`. -/
def IsDigit (base : Nat) (c : Char) (d : Nat) : Prop :=
  d < base ∧ ∃ k, c = Hex.digit k d

/-! The digits stand in three runs of the character table. -/

theorem toNat_digit_of_lt : ∀ d < 10, ∀ k, (Hex.digit k d).toNat = 48 + d := by
  intro d hd k
  cases k <;> revert d <;> decide

theorem toNat_digit_lower : ∀ d < 16, 10 ≤ d → (Hex.digit .lower d).toNat = 87 + d := by decide

theorem toNat_digit_upper : ∀ d < 16, 10 ≤ d → (Hex.digit .upper d).toNat = 55 + d := by decide

variable {base : Nat}

theorem digit?_eq_some_iff_toNat (le : base ≤ 16) (c : Char) (d : Nat) :
    digit? base c = some d ↔ d < base ∧
      (d < 10 ∧ c.toNat = 48 + d ∨ 10 ≤ d ∧ c.toNat = 87 + d ∨
        10 ≤ d ∧ c.toNat = 55 + d) := by
  have code (a b : Char) : a ≤ b ↔ a.toNat ≤ b.toNat := by
    rw [Char.le_def, UInt32.le_iff_toNat_le]; rfl
  simp only [digit?, code, Char.reduceToNat, Option.ite_none_right_eq_some, Option.some_inj]
  split_ifs <;> omega

theorem digit?_eq_some_iff (le : base ≤ 16) (c : Char) (d : Nat) :
    digit? base c = some d ↔ IsDigit base c d := by
  rw [digit?_eq_some_iff_toNat le, IsDigit]
  refine and_congr_right fun hd => ⟨?_, ?_⟩
  · rintro (⟨small, h⟩ | ⟨large, h⟩ | ⟨large, h⟩)
    · exact ⟨.lower, Char.toNat_inj.mp (h.trans (toNat_digit_of_lt d small _).symm)⟩
    · exact ⟨.lower, Char.toNat_inj.mp (h.trans (toNat_digit_lower d (by omega) large).symm)⟩
    · exact ⟨.upper, Char.toNat_inj.mp (h.trans (toNat_digit_upper d (by omega) large).symm)⟩
  · rintro ⟨k, rfl⟩
    obtain small | large := lt_or_ge d 10
    · exact .inl ⟨small, toNat_digit_of_lt d small k⟩
    · cases k
      · exact .inr (.inl ⟨large, toNat_digit_lower d (by omega) large⟩)
      · exact .inr (.inr ⟨large, toNat_digit_upper d (by omega) large⟩)

theorem not_isDigit_plus (le : base ≤ 16) (d : Nat) : ¬ IsDigit base '+' d := by
  rw [← digit?_eq_some_iff le, digit?_eq_some_iff_toNat le]
  simp only [Char.reduceToNat]
  omega

end Digits

/-! ### Runs of digits -/

section Values

variable {base limit : Nat}

/-- `n` is the value of a run of digits of the base, the most significant one first. -/
def Denotes (base : Nat) (cs : List Char) (n : Nat) : Prop :=
  ∃ ds, List.Forall₂ (IsDigit base) cs ds ∧ Nat.ofDigits base ds.reverse = n

/-- Appending a digit to the value read so far leaves the value of the whole run as it is. -/
theorem ofDigits_reverse_cons_cons (base v d : Nat) (ds : List Nat) :
    Nat.ofDigits base (v :: d :: ds).reverse
      = Nat.ofDigits base ((base * v + d) :: ds).reverse := by
  simp only [Nat.ofDigits_reverse_cons, List.length_cons]
  ring

theorem le_ofDigits_reverse_cons (h : 0 < base) (v : Nat) (ds : List Nat) :
    v ≤ Nat.ofDigits base (v :: ds).reverse := by
  rw [Nat.ofDigits_reverse_cons]
  exact (Nat.le_mul_of_pos_left v (Nat.pow_pos h)).trans (Nat.le_add_left _ _)

/-- `run` is the longest run of digits that `cs` starts with, `n` is its value, and `rest` is
what comes after it. -/
structure Leads (base : Nat) (cs run rest : List Char) (n : Nat) : Prop where
  split : cs = run ++ rest
  denotes : Denotes base run n
  ends : ∀ c ∈ rest.head?, ∀ d, ¬ IsDigit base c d

theorem exists_leads (base : Nat) (cs : List Char) : ∃ run rest n, Leads base cs run rest n := by
  induction cs with
  | nil => exact ⟨[], [], 0, rfl, ⟨[], .nil, rfl⟩, by simp⟩
  | cons c cs ih =>
    by_cases digit : ∃ d, IsDigit base c d
    · obtain ⟨d, digit⟩ := digit
      obtain ⟨run, rest, _, rfl, ⟨ds, digits, rfl⟩, ends⟩ := ih
      exact ⟨c :: run, rest, _, rfl, ⟨d :: ds, .cons digit digits, rfl⟩, ends⟩
    · refine ⟨[], c :: cs, 0, rfl, ⟨[], .nil, rfl⟩, ?_⟩
      simpa using digit

/-- The run of digits that the text starts with has a value above the limit. -/
def Overflows (base limit : Nat) (cs : List Char) : Prop :=
  ∃ run rest n, Leads base cs run rest n ∧ limit < n

theorem readDigits_of_ne_nil {cs : List Char} (h : cs ≠ []) :
    readDigits base limit cs = cs.foldlM (append base limit) 0 := by
  cases cs with
  | nil => exact absurd rfl h
  | cons c cs => rfl

section Reading

variable (pos : 0 < base) (le : base ≤ 16)
include pos le

/-- A run of digits is read in full, or refused for its value by its end. -/
theorem foldlM_append_of_forall₂ {cs : List Char} {ds : List Nat}
    (h : List.Forall₂ (IsDigit base) cs ds) {v : Nat} (hv : v ≤ limit) :
    cs.foldlM (append base limit) v =
      if Nat.ofDigits base (v :: ds).reverse ≤ limit then
        .ok (Nat.ofDigits base (v :: ds).reverse)
      else .error .tooLarge := by
  induction h generalizing v with
  | nil =>
    have : Nat.ofDigits base [v] = v := Nat.ofDigits_singleton
    simp only [List.reverse_singleton, this, if_pos hv]
    rfl
  | @cons c d cs ds digit _ ih =>
    rw [List.foldlM_cons, ofDigits_reverse_cons_cons]
    unfold append
    rw [(digit?_eq_some_iff le c d).mpr digit]
    dsimp only
    split_ifs with fits all all
    · exact (ih fits).trans (if_pos all)
    · exact (ih fits).trans (if_neg all)
    · -- the value only grows, so what is too large stays too large
      exact absurd ((le_ofDigits_reverse_cons pos _ _).trans all) fits
    · rfl

omit pos in
/-- What does not start with a digit is refused, unless there is nothing. -/
theorem foldlM_append_of_ends {rest : List Char}
    (ends : ∀ c ∈ rest.head?, ∀ d, ¬ IsDigit base c d) (v : Nat) :
    rest.foldlM (append base limit) v = if rest = [] then .ok v else .error .invalidDigit := by
  cases rest with
  | nil => rfl
  | cons c rest =>
    have other : digit? base c = none :=
      Option.eq_none_iff_forall_ne_some.mpr fun d hd =>
        ends c rfl d ((digit?_eq_some_iff le c d).mp hd)
    rw [List.foldlM_cons, append, other, if_neg (List.cons_ne_nil c rest)]
    rfl

/-- **The first thing that is wrong** shows in the run of digits at the start and in whether
anything comes after it. -/
theorem readDigits_of_leads {cs run rest : List Char} {n : Nat} (h : Leads base cs run rest n) :
    readDigits base limit cs =
      if limit < n then .error .tooLarge
      else if run ≠ [] ∧ rest = [] then .ok n else .error .invalidDigit := by
  obtain ⟨rfl, ⟨ds, digits, rfl⟩, ends⟩ := h
  by_cases empty : run ++ rest = []
  · obtain ⟨rfl, rfl⟩ := List.append_eq_nil_iff.mp empty
    cases digits
    rfl
  -- the run is read from zero, and the zero does not count in its value
  have fold := foldlM_append_of_forall₂ pos le digits (Nat.zero_le limit)
  simp only [Nat.ofDigits_reverse_cons, Nat.mul_zero, Nat.add_zero] at fold
  rw [readDigits_of_ne_nil empty, List.foldlM_append, fold]
  by_cases large : limit < Nat.ofDigits base ds.reverse
  · rw [if_pos large, if_neg (Nat.not_le.mpr large)]
    rfl
  · rw [if_neg large, if_pos (Nat.not_lt.mp large)]
    show List.foldlM (append base limit) _ rest = _
    rw [foldlM_append_of_ends le ends]
    by_cases whole : rest = []
    · have filled : run ≠ [] := fun h => empty (by rw [h, whole]; rfl)
      rw [if_pos whole, if_pos ⟨filled, whole⟩]
    · rw [if_neg whole, if_neg fun h => whole h.2]

theorem readDigits_eq_tooLarge_iff (cs : List Char) :
    readDigits base limit cs = .error .tooLarge ↔ Overflows base limit cs := by
  constructor
  · intro h
    obtain ⟨run, rest, n, leads⟩ := exists_leads base cs
    refine ⟨run, rest, n, leads, ?_⟩
    rw [readDigits_of_leads pos le leads] at h
    by_contra small
    rw [if_neg small] at h
    split_ifs at h
    cases h
  · rintro ⟨run, rest, n, leads, large⟩
    rw [readDigits_of_leads pos le leads, if_pos large]

theorem readDigits_eq_ok_iff (cs : List Char) (n : Nat) :
    readDigits base limit cs = .ok n ↔ cs ≠ [] ∧ Denotes base cs n ∧ n ≤ limit := by
  constructor
  · intro h
    obtain ⟨run, rest, m, leads⟩ := exists_leads base cs
    rw [readDigits_of_leads pos le leads] at h
    split_ifs at h with large whole
    obtain ⟨filled, rfl⟩ := whole
    cases h
    obtain ⟨rfl, denotes, -⟩ := leads
    simpa using ⟨filled, denotes, Nat.not_lt.mp large⟩
  · rintro ⟨filled, denotes, small⟩
    have leads : Leads base cs cs [] n := ⟨by simp, denotes, by simp⟩
    rw [readDigits_of_leads pos le leads, if_neg (Nat.not_lt.mpr small), if_pos ⟨filled, rfl⟩]

theorem readDigits_ne_empty (cs : List Char) : readDigits base limit cs ≠ .error .empty := by
  obtain ⟨run, rest, n, leads⟩ := exists_leads base cs
  rw [readDigits_of_leads pos le leads]
  split_ifs <;> simp

end Reading

end Values

/-! ### Signs -/

section Numerals

variable {base limit : Nat}

/-- The text without one plus sign at its start. -/
def unsigned : List Char → List Char
  | '+' :: cs => cs
  | cs => cs

/-- The text is a numeral of the base with value `n`: at least one digit, and perhaps a plus
sign before them. -/
def Writes (base : Nat) (cs : List Char) (n : Nat) : Prop :=
  ∃ run, (cs = run ∨ cs = '+' :: run) ∧ run ≠ [] ∧ Denotes base run n

/-- The reason to give for a text that is no numeral within the limit. -/
def Explains (base limit : Nat) (cs : List Char) : Error → Prop
  | .empty => cs = []
  | .tooLarge => cs ≠ [] ∧ Overflows base limit (unsigned cs)
  | .invalidDigit => cs ≠ [] ∧ ¬ Overflows base limit (unsigned cs)

theorem read_eq (base limit : Nat) (cs : List Char) :
    read base limit cs =
      if cs = [] then .error .empty else readDigits base limit (unsigned cs) := by
  fun_cases read <;> simp_all [unsigned]

theorem Explains.unique {cs : List Char} {e e' : Error} (h : Explains base limit cs e)
    (h' : Explains base limit cs e') : e = e' := by
  cases e <;> cases e' <;> simp_all [Explains]

theorem writes_iff (le : base ≤ 16) (cs : List Char) (n : Nat) :
    Writes base cs n ↔ unsigned cs ≠ [] ∧ Denotes base (unsigned cs) n := by
  fun_cases unsigned with
  | case1 cs =>
    constructor
    · rintro ⟨run, rfl | h, filled, denotes⟩
      · -- a plus sign is no digit, so it is not part of the run
        obtain ⟨ds, digits, -⟩ := denotes
        cases digits with
        | cons digit _ => exact absurd digit (not_isDigit_plus le _)
      · cases h
        exact ⟨filled, denotes⟩
    · exact fun ⟨filled, denotes⟩ => ⟨cs, .inr rfl, filled, denotes⟩
  | case2 cs bare =>
    constructor
    · rintro ⟨run, rfl | rfl, filled, denotes⟩
      · exact ⟨filled, denotes⟩
      · exact absurd rfl (bare run)
    · exact fun ⟨filled, denotes⟩ => ⟨cs, .inl rfl, filled, denotes⟩

variable (pos : 0 < base) (le : base ≤ 16)
include pos le

theorem read_eq_ok_iff (cs : List Char) (n : Nat) :
    read base limit cs = .ok n ↔ Writes base cs n ∧ n ≤ limit := by
  rw [read_eq, writes_iff le]
  split_ifs with empty
  · simp [empty, unsigned]
  · rw [readDigits_eq_ok_iff pos le, and_assoc]

theorem explains_of_read {cs : List Char} {e : Error}
    (h : read base limit cs = .error e) : Explains base limit cs e := by
  rw [read_eq] at h
  split_ifs at h with empty
  · cases h
    exact empty
  · cases e with
    | empty => exact absurd h (readDigits_ne_empty pos le _)
    | tooLarge => exact ⟨empty, (readDigits_eq_tooLarge_iff pos le _).mp h⟩
    | invalidDigit =>
      refine ⟨empty, fun large => ?_⟩
      rw [(readDigits_eq_tooLarge_iff pos le _).mpr large] at h
      cases h

theorem read_eq_error_iff (cs : List Char) (e : Error) :
    read base limit cs = .error e ↔
      (∀ n ≤ limit, ¬ Writes base cs n) ∧ Explains base limit cs e := by
  constructor
  · intro h
    refine ⟨fun n small writes => ?_, explains_of_read pos le h⟩
    rw [(read_eq_ok_iff pos le cs n).mpr ⟨writes, small⟩] at h
    cases h
  · rintro ⟨other, explains⟩
    cases h : read base limit cs with
    | ok n =>
      obtain ⟨writes, small⟩ := (read_eq_ok_iff pos le cs n).mp h
      exact absurd writes (other n small)
    | error e' => rw [explains.unique (explains_of_read pos le h)]

end Numerals

end Sm83.Numeral

namespace Sm83.Text

/-- `t` is the text without the white space around it. -/
structure Trims (text t : List Char) : Prop where
  around : ∃ front back, text = front ++ t ++ back ∧ ∀ c ∈ front ++ back, isBlank c
  first : ∀ c ∈ t.head?, ¬ isBlank c
  last : ∀ c ∈ t.getLast?, ¬ isBlank c

theorem trimStart_append {front t : List Char} (blank : ∀ c ∈ front, isBlank c)
    (first : ∀ c ∈ t.head?, ¬ isBlank c) : trimStart (front ++ t) = t := by
  rw [trimStart, List.dropWhile_append_of_pos blank]
  cases t with
  | nil => rfl
  | cons c t => exact List.dropWhile_cons_of_neg (first c rfl)

theorem exists_trimStart (cs : List Char) :
    ∃ front, cs = front ++ trimStart cs ∧ (∀ c ∈ front, isBlank c) ∧
      ∀ c ∈ (trimStart cs).head?, ¬ isBlank c := by
  refine ⟨cs.takeWhile isBlank, List.takeWhile_append_dropWhile.symm, ?_, ?_⟩
  · exact List.all_eq_true.mp List.all_takeWhile
  · intro c hc
    have := List.head?_dropWhile_not isBlank cs
    rw [← trimStart, Option.mem_def.mp hc] at this
    simpa using this

theorem trims_iff (text t : List Char) : Trims text t ↔ trim text = t := by
  constructor
  · rintro ⟨⟨front, back, rfl, blank⟩, first, last⟩
    cases t with
    | nil =>
      -- nothing but white space, which the first of the two passes takes whole
      have : trimStart (front ++ back ++ []) = [] := trimStart_append blank (by simp)
      rw [List.append_nil] at this
      rw [trim, List.append_nil, this]
      rfl
    | cons c t =>
      have start : trimStart (front ++ (c :: t ++ back)) = c :: t ++ back :=
        trimStart_append (fun x hx => blank x (List.mem_append_left _ hx)) first
      have finish : trimStart (back.reverse ++ (c :: t).reverse) = (c :: t).reverse := by
        refine trimStart_append (fun x hx => ?_) (by rwa [List.head?_reverse])
        exact blank x (List.mem_append_right _ (List.mem_reverse.mp hx))
      rw [trim, List.append_assoc, start, List.reverse_append, finish, List.reverse_reverse]
  · rintro rfl
    obtain ⟨front, split, frontBlank, first⟩ := exists_trimStart text
    obtain ⟨back, split', backBlank, last⟩ := exists_trimStart (trimStart text).reverse
    have rest : trimStart text = trim text ++ back.reverse := by
      rw [← List.reverse_reverse (trimStart text), split', List.reverse_append]
      rfl
    refine ⟨⟨front, back.reverse, ?_, ?_⟩, ?_, ?_⟩
    · rw [List.append_assoc, ← rest, ← split]
    · intro c hc
      rcases List.mem_append.mp hc with hc | hc
      · exact frontBlank c hc
      · exact backBlank c (List.mem_reverse.mp hc)
    · intro c hc
      apply first c
      rw [rest, List.head?_append, Option.mem_def.mp hc]
      rfl
    · simpa [trim] using last

end Sm83.Text

namespace Sm83.Command

/-- The base that the marker at the start of a text stands for, and the text behind the
marker. Without a marker the base is ten. -/
inductive Marks : List Char → Nat → List Char → Prop where
  | hexadecimal {m : Char} {digits : List Char} (marker : m = 'x' ∨ m = 'X') :
      Marks ('0' :: m :: digits) 16 digits
  | decimal {digits : List Char}
      (bare : ∀ m rest, m = 'x' ∨ m = 'X' → digits ≠ '0' :: m :: rest) :
      Marks digits 10 digits

theorem marks_iff (t : List Char) (base : Nat) (digits : List Char) :
    Marks t base digits ↔ splitBase t = (base, digits) := by
  constructor
  · intro h
    cases h with
    | hexadecimal marker => obtain rfl | rfl := marker <;> rfl
    | decimal bare =>
      fun_cases splitBase t with
      | case1 rest => exact absurd rfl (bare 'x' rest (.inl rfl))
      | case2 rest => exact absurd rfl (bare 'X' rest (.inr rfl))
      | case3 => rfl
  · fun_cases splitBase t with
    | case1 rest =>
      rintro ⟨⟩
      exact .hexadecimal (.inl rfl)
    | case2 rest =>
      rintro ⟨⟩
      exact .hexadecimal (.inr rfl)
    | case3 _ lower upper =>
      rintro ⟨⟩
      refine .decimal ?_
      rintro m rest (rfl | rfl) h
      · exact lower rest h
      · exact upper rest h

/-- **What an address text stands for.** The white space around it goes, the marker says the
base, and what is left is a numeral within sixteen bits or the reason why it is none. -/
inductive ReadsAddress (text : List Char) : Except AddressError Word → Prop where
  | word {t digits : List Char} {base : Nat} {a : Word} (trims : Text.Trims text t)
      (marks : Marks t base digits) (writes : Numeral.Writes base digits a.toNat) :
      ReadsAddress text (.ok a)
  | refused {t digits : List Char} {base : Nat} {cause : Numeral.Error}
      (trims : Text.Trims text t) (marks : Marks t base digits)
      (other : ∀ n ≤ 0xFFFF, ¬ Numeral.Writes base digits n)
      (explains : Numeral.Explains base 0xFFFF digits cause) :
      ReadsAddress text (.error ⟨t, cause⟩)

theorem Marks.bounds {t digits : List Char} {base : Nat} (h : Marks t base digits) :
    0 < base ∧ base ≤ 16 := by
  cases h <;> decide

theorem readAddress_of_marks {text t digits : List Char} {base : Nat}
    (trims : Text.Trims text t) (marks : Marks t base digits) :
    readAddress text =
      match Numeral.read base 0xFFFF digits with
      | .ok n => .ok (.ofNat 16 n)
      | .error cause => .error ⟨t, cause⟩ := by
  have trim := (Text.trims_iff text t).mp trims
  have split := (marks_iff t base digits).mp marks
  cases h : Numeral.read base 0xFFFF digits <;> simp only [readAddress, trim, split, h]

theorem readAddress_eq_iff (text : List Char) (r : Except AddressError Word) :
    readAddress text = r ↔ ReadsAddress text r := by
  constructor
  · rintro rfl
    have trims : Text.Trims text (Text.trim text) := (Text.trims_iff _ _).mpr rfl
    have marks : Marks (Text.trim text) (splitBase (Text.trim text)).1
        (splitBase (Text.trim text)).2 := (marks_iff _ _ _).mpr rfl
    obtain ⟨pos, le⟩ := marks.bounds
    rw [readAddress_of_marks trims marks]
    cases h : Numeral.read (splitBase (Text.trim text)).1 0xFFFF (splitBase (Text.trim text)).2 with
    | ok n =>
      obtain ⟨writes, small⟩ := (Numeral.read_eq_ok_iff pos le _ n).mp h
      refine .word trims marks ?_
      rwa [BitVec.toNat_ofNat, Nat.mod_eq_of_lt (by omega)]
    | error cause =>
      obtain ⟨other, explains⟩ := (Numeral.read_eq_error_iff pos le _ cause).mp h
      exact .refused trims marks other explains
  · intro h
    cases h with
    | word trims marks writes =>
      obtain ⟨pos, le⟩ := marks.bounds
      rw [readAddress_of_marks trims marks,
        (Numeral.read_eq_ok_iff pos le _ _).mpr ⟨writes, by omega⟩]
      dsimp only
      rw [BitVec.ofNat_toNat, BitVec.setWidth_eq]
    | refused trims marks other explains =>
      obtain ⟨pos, le⟩ := marks.bounds
      rw [readAddress_of_marks trims marks,
        (Numeral.read_eq_error_iff pos le _ _).mpr ⟨other, explains⟩]

/-- **Every address text is read as the number it writes, or refused with its reason.** The
number returned is that of the numeral between the white space, behind the marker of its base.
A text without such a numeral is named in the error without the white space around it, followed
by the one cause that explains it, in words that no other cause has. -/
theorem address_accepted_or_explained (text : List Char) :
    (∀ n, (∃ a, readAddress text = .ok a ∧ a.toNat = n) ↔
      ∃ t base digits, Text.Trims text t ∧ Marks t base digits ∧
        Numeral.Writes base digits n ∧ n ≤ 0xFFFF) ∧
    ∀ cause chain, (∃ e, readAddress text = .error e ∧ e.cause = cause ∧ e.chain = chain) ↔
      ∃ t base digits, Text.Trims text t ∧ Marks t base digits ∧
        (∀ n ≤ 0xFFFF, ¬ Numeral.Writes base digits n) ∧
        Numeral.Explains base 0xFFFF digits cause ∧
        chain = ["invalid address: " ++ String.ofList t,
          match cause with
          | .empty => "cannot parse integer from empty string"
          | .invalidDigit => "invalid digit found in string"
          | .tooLarge => "number too large to fit in target type"] := by
  simp only [readAddress_eq_iff]
  refine ⟨fun n => ⟨?_, ?_⟩, fun cause chain => ⟨?_, ?_⟩⟩
  · rintro ⟨a, ⟨trims, marks, writes⟩, rfl⟩
    exact ⟨_, _, _, trims, marks, writes, by omega⟩
  · rintro ⟨t, base, digits, trims, marks, writes, small⟩
    have value : (BitVec.ofNat 16 n).toNat = n := by
      rw [BitVec.toNat_ofNat, Nat.mod_eq_of_lt (by omega)]
    exact ⟨.ofNat 16 n, .word trims marks (value.symm ▸ writes), value⟩
  · rintro ⟨_, ⟨⟩ | ⟨trims, marks, other, explains⟩, rfl, rfl⟩
    exact ⟨_, _, _, trims, marks, other, explains, rfl⟩
  · rintro ⟨t, base, digits, trims, marks, other, explains, rfl⟩
    exact ⟨⟨t, cause⟩, .refused trims marks other explains, rfl, rfl⟩

/-- A bare marker, a digit of the wrong base, digits above the limit ahead of a stray character, and
the greatest address with a sign and leading zeros. -/
theorem address_accepted_or_explained_at_edges :
    (∃ e, readAddress "\t0x ".toList = .error e ∧ e.cause = .empty ∧
      e.chain = ["invalid address: 0x", "cannot parse integer from empty string"]) ∧
    (∃ e, readAddress "fe".toList = .error e ∧ e.cause = .invalidDigit ∧
      e.chain = ["invalid address: fe", "invalid digit found in string"]) ∧
    (∃ e, readAddress " 655360z".toList = .error e ∧ e.cause = .tooLarge ∧
      e.chain = ["invalid address: 655360z", "number too large to fit in target type"]) ∧
    ∃ a, readAddress " 0X+000ffFF\t".toList = .ok a ∧ a.toNat = 0xFFFF := by
  refine ⟨?_, ?_, ?_, ?_⟩
  · obtain ⟨other, explains⟩ :=
      (@Numeral.read_eq_error_iff 16 0xFFFF (by decide) (by decide) [] .empty).1 rfl
    exact ((address_accepted_or_explained _).2 _ _).2 ⟨"0x".toList, 16, [],
      (Text.trims_iff _ _).2 (by decide), .hexadecimal (.inl rfl), other, explains, by decide⟩
  · obtain ⟨other, explains⟩ :=
      (@Numeral.read_eq_error_iff 10 0xFFFF (by decide) (by decide) "fe".toList .invalidDigit).1
        (by decide)
    exact ((address_accepted_or_explained _).2 _ _).2 ⟨"fe".toList, 10, "fe".toList,
      (Text.trims_iff _ _).2 (by decide), (marks_iff _ _ _).2 (by decide), other, explains,
      by decide⟩
  · obtain ⟨other, explains⟩ :=
      (@Numeral.read_eq_error_iff 10 0xFFFF (by decide) (by decide) "655360z".toList .tooLarge).1
        (by decide)
    exact ((address_accepted_or_explained _).2 _ _).2 ⟨"655360z".toList, 10, "655360z".toList,
      (Text.trims_iff _ _).2 (by decide), (marks_iff _ _ _).2 (by decide), other, explains,
      by decide⟩
  · obtain ⟨writes, small⟩ :=
      (@Numeral.read_eq_ok_iff 16 0xFFFF (by decide) (by decide) "+000ffFF".toList 0xFFFF).1
        (by decide)
    exact ((address_accepted_or_explained _).1 _).2 ⟨"0X+000ffFF".toList, 16, "+000ffFF".toList,
      (Text.trims_iff _ _).2 (by decide), .hexadecimal (.inr rfl), writes, small⟩

end Sm83.Command
