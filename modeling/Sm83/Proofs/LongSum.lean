import Mathlib.Data.Nat.Digits.Defs
import Mathlib.Tactic.Ring
import Sm83.Arithmetic

/-!
# Long sums

The processor computes on single bytes. Longer numbers are worked on byte by byte, and the carry
that one operation leaves in the flags is taken up by the next. `Arithmetic.chain` carries out
operations in that way, and this file says what they come to for sums and differences of any
length, in binary and in decimal.

All of them go by one induction, `ofDigits_chain`: where every operation keeps the balance of one
digit, with its carry, the chain keeps the balance of the whole number. Between the digits of two
numbers this is `ofDigits_chain_zipWith`. So the work is in single bytes.

* An addition keeps the balance as it stands (`add_balance`). A subtraction is the addition of the
  complement with the carry inverted (`fst_subtract_eq`, `carry_subtract_eq`), so that a borrow is a
  carry that fails to appear.
* A decimal addition is a binary one and a correction. What has to be corrected is decided on the
  byte that is left of the sum and on the flags, but it can be said of the sum itself, before it is
  cut (`decimalAdjust_add`). Only then is the correction seen to be that of a decimal carry
  (`addDecimal_balance`).

## Main statements

* `carry_chains`: additions and subtractions of numbers in binary.
* `decimal_chain`: additions of numbers in packed decimal.
-/

namespace Sm83.Arithmetic

/-! ### Chains -/

/-- Carries out operations one after the other, each on the flags that the one before it has left.
What comes out is a byte of each and the flags in the end. -/
def chain : List (Flags → Byte × Flags) → Flags → List Byte × Flags
  | [], f => ([], f)
  | op :: ops, f =>
    let r := op f
    let rest := chain ops r.2
    (r.1 :: rest.1, rest.2)

@[simp] theorem chain_nil (f : Flags) : chain [] f = ([], f) := rfl

theorem chain_cons (op : Flags → Byte × Flags) (ops : List (Flags → Byte × Flags)) (f : Flags) :
    chain (op :: ops) f = ((op f).1 :: (chain ops (op f).2).1, (chain ops (op f).2).2) := rfl

@[simp] theorem length_chain (ops : List (Flags → Byte × Flags)) (f : Flags) :
    (chain ops f).1.length = ops.length := by
  induction ops generalizing f with
  | nil => rfl
  | cons op ops ih => rw [chain_cons, List.length_cons, List.length_cons, ih]

/-- What holds of every byte that an operation can come to holds of the bytes of the chain. -/
theorem forall_chain {P : Byte → Prop} {ops : List (Flags → Byte × Flags)}
    (h : ∀ op ∈ ops, ∀ f, P (op f).1) (f : Flags) : ∀ b ∈ (chain ops f).1, P b := by
  induction ops generalizing f with
  | nil => exact nofun
  | cons op ops ih =>
    obtain ⟨h_op, h_ops⟩ := List.forall_mem_cons.1 h
    exact List.forall_mem_cons.2 ⟨h_op f, ih h_ops _⟩

theorem length_chain_zipWith (op : Byte → Byte → Flags → Byte × Flags) {xs ys : List Byte}
    (h : xs.length = ys.length) (f : Flags) :
    (chain (List.zipWith op xs ys) f).1.length = xs.length := by
  rw [length_chain, List.length_zipWith, ← h, Nat.min_self]

section Balance

variable {base : Nat} {digit : Byte → Nat}

/-- **The balance of a chain.** If every operation turns what it gains and a carry into a digit and
a carry that is worth the base, then the whole chain turns the number that is gained and a carry
into a number and a carry that is worth as many powers of the base as there are digits. -/
theorem ofDigits_chain {α : Type} {op : α → Flags → Byte × Flags} {gain : α → Nat}
    (carry : Flags → Nat) {as : List α}
    (h_step : ∀ a ∈ as, ∀ f, digit (op a f).1 + base * carry (op a f).2 = gain a + carry f)
    (f : Flags) :
    Nat.ofDigits base ((chain (as.map op) f).1.map digit)
        + base ^ as.length * carry (chain (as.map op) f).2
      = Nat.ofDigits base (as.map gain) + carry f := by
  induction as generalizing f with
  | nil => simp
  | cons a as ih =>
    have h_first := h_step a List.mem_cons_self f
    have h_rest := ih (fun a ha => h_step a (List.mem_cons_of_mem _ ha)) (op a f).2
    rw [List.map_cons, chain_cons]
    simp only [List.map_cons, Nat.ofDigits_cons, List.length_cons]
    -- how the rest comes about does not matter from here on, only its balance
    generalize chain (as.map op) (op a f).2 = rest at h_rest ⊢
    -- the carry out of the first digit is the carry into the others
    calc digit (op a f).1 + base * Nat.ofDigits base (rest.1.map digit)
          + base ^ (as.length + 1) * carry rest.2
        = digit (op a f).1 + base * (Nat.ofDigits base (rest.1.map digit)
          + base ^ as.length * carry rest.2) := by ring
      _ = (digit (op a f).1 + base * carry (op a f).2)
          + base * Nat.ofDigits base (as.map gain) := by rw [h_rest]; ring
      _ = gain a + base * Nat.ofDigits base (as.map gain) + carry f := by rw [h_first]; ring

/-- Operations between the digits of two numbers gain the sum of the numbers. -/
theorem ofDigits_chain_zipWith {op : Byte → Byte → Flags → Byte × Flags} {left right : Byte → Nat}
    (carry : Flags → Nat) {xs ys : List Byte} (h_length : xs.length = ys.length)
    (h_step : ∀ x ∈ xs, ∀ y ∈ ys, ∀ f,
      digit (op x y f).1 + base * carry (op x y f).2 = left x + right y + carry f) (f : Flags) :
    Nat.ofDigits base ((chain (List.zipWith op xs ys) f).1.map digit)
        + base ^ xs.length * carry (chain (List.zipWith op xs ys) f).2
      = Nat.ofDigits base (xs.map left) + Nat.ofDigits base (ys.map right) + carry f := by
  -- the digits are taken in pairs, one operation for each
  have h_ops : List.zipWith op xs ys = (xs.zip ys).map fun p => op p.1 p.2 :=
    List.map_uncurry_zip_eq_zipWith.symm
  have h_gain : Nat.ofDigits base (xs.map left) + Nat.ofDigits base (ys.map right)
      = Nat.ofDigits base ((xs.zip ys).map fun p => left p.1 + right p.2) := by
    rw [Nat.ofDigits_add_ofDigits_eq_ofDigits_zipWith_of_length_eq (by simpa using h_length),
      List.zipWith_map, List.map_zip_eq_zipWith]
    rfl
  have h_count : (xs.zip ys).length = xs.length := by
    rw [List.length_zip, ← h_length, Nat.min_self]
  rw [h_ops, h_gain, ← h_count]
  exact ofDigits_chain carry
    (fun p hp => h_step p.1 (List.of_mem_zip hp).1 p.2 (List.of_mem_zip hp).2) f

end Balance

/-! ### Numbers in binary -/

/-- The number that bytes stand for, the lowest byte first. -/
def number (bs : List Byte) : Nat := Nat.ofDigits 256 (bs.map BitVec.toNat)

@[simp] theorem number_nil : number [] = 0 := rfl

theorem number_cons (b : Byte) (bs : List Byte) :
    number (b :: bs) = b.toNat + 256 * number bs := rfl

theorem number_lt (bs : List Byte) : number bs < 256 ^ bs.length := by
  induction bs with
  | nil => exact Nat.one_pos
  | cons b bs ih =>
    have := b.isLt
    rw [number_cons, List.length_cons, Nat.pow_succ]
    omega

/-- A number and its complement are as much as so many bytes can hold. -/
theorem number_map_not (bs : List Byte) :
    number (bs.map (~~~·)) + number bs + 1 = 256 ^ bs.length := by
  induction bs with
  | nil => rfl
  | cons b bs ih =>
    have h_not : (~~~b).toNat = 255 - b.toNat := BitVec.toNat_not
    have := b.isLt
    rw [List.map_cons, number_cons, number_cons, List.length_cons, Nat.pow_succ, ← ih]
    omega

/-! ### Sums and differences of bytes -/

section Bytes

variable (a n : Byte) (c : Bool)

theorem byteSum_lt : byteSum a n c < 512 := by
  have := a.isLt
  have := n.isLt
  have := Bool.toNat_lt c
  unfold byteSum
  omega

theorem toNat_fst_add : (add a n c).1.toNat = byteSum a n c % 256 := by
  simp only [add, byteSum, BitVec.toNat_add, Byte.toNat_ofCarry]
  omega

theorem carry_add : (add a n c).2.carry = decide (0xFF < byteSum a n c) := rfl

/-- Nothing of a sum is lost: the carry is worth what does not fit into the byte. -/
theorem add_balance :
    (add a n c).1.toNat + 256 * (add a n c).2.carry.toNat = a.toNat + n.toNat + c.toNat := by
  have h_lt := byteSum_lt a n c
  rw [toNat_fst_add, carry_add]
  change _ = byteSum a n c
  by_cases h : 0xFF < byteSum a n c
  · rw [decide_eq_true h, Bool.toNat_true]
    omega
  · rw [decide_eq_false h, Bool.toNat_false]
    omega

theorem not_toNat_add (c : Bool) : (!c).toNat + c.toNat = 1 := by
  cases c <;> rfl

/-- What a complement adds and what the byte itself takes off make up the carry. -/
theorem byteSum_not : byteSum a (~~~n) (!c) + byteSum 0 n c = a.toNat + 256 := by
  have h_not : (~~~n).toNat = 255 - n.toNat := BitVec.toNat_not
  have h_lt := n.isLt
  have h_carry := not_toNat_add c
  have h_zero : (0 : Byte).toNat = 0 := rfl
  unfold byteSum
  omega

/-- A subtraction is the addition of the complement, with the carry inverted on the way in. -/
theorem fst_subtract_eq : (subtract a n c).1 = (add a (~~~n) !c).1 := by
  have h_not := byteSum_not a n c
  have h_zero : (0 : Byte).toNat = 0 := rfl
  apply BitVec.eq_of_toNat_eq
  rw [toNat_fst_add]
  simp only [subtract, BitVec.toNat_sub, Byte.toNat_ofCarry]
  unfold byteSum at h_not ⊢
  omega

/-- A subtraction borrows where the addition of the complement does not carry. -/
theorem carry_subtract_eq : (subtract a n c).2.carry = !(add a (~~~n) !c).2.carry := by
  have h_not := byteSum_not a n c
  have h_subtract : (subtract a n c).2.carry = decide (a.toNat < byteSum 0 n c) := rfl
  rw [h_subtract, carry_add, ← decide_not]
  exact decide_eq_decide.2 (by omega)

end Bytes

/-! ### Sums and differences of numbers -/

/-- An operation between two bytes that takes its carry from the flags it finds. -/
def meet (op : Accumulation) (x y : Byte) (f : Flags) : Byte × Flags :=
  accumulate op f.carry x y

section Numbers

variable {xs ys : List Byte} (h : xs.length = ys.length) (f : Flags)
include h

theorem number_addCarry :
    number (chain (List.zipWith (meet .addCarry) xs ys) f).1
        + 256 ^ xs.length * (chain (List.zipWith (meet .addCarry) xs ys) f).2.carry.toNat
      = number xs + number ys + f.carry.toNat :=
  ofDigits_chain_zipWith (fun f => f.carry.toNat) h (fun x _ y _ f => add_balance x y f.carry) f

/-- The carry that a subtraction leaves is the borrow of the whole number. -/
theorem number_subtractCarry :
    number (chain (List.zipWith (meet .subtractCarry) xs ys) f).1 + number ys + f.carry.toNat
      = number xs
        + 256 ^ xs.length * (chain (List.zipWith (meet .subtractCarry) xs ys) f).2.carry.toNat := by
  -- the complement is added, and the carry of that sum says that nothing is borrowed
  have h_step (x y : Byte) (f : Flags) :
      (meet .subtractCarry x y f).1.toNat
          + 256 * (!(meet .subtractCarry x y f).2.carry).toNat
        = x.toNat + (~~~y).toNat + (!f.carry).toNat := by
    change (subtract x y f.carry).1.toNat + 256 * (!(subtract x y f.carry).2.carry).toNat = _
    rw [fst_subtract_eq, carry_subtract_eq, Bool.not_not, add_balance]
  generalize h_chain : chain (List.zipWith (meet .subtractCarry) xs ys) f = r
  have h_balance : number r.1 + 256 ^ xs.length * (!r.2.carry).toNat
      = number xs + number (ys.map (~~~·)) + (!f.carry).toNat := by
    rw [← h_chain]
    simp only [number, List.map_map]
    exact ofDigits_chain_zipWith (fun f => (!f.carry).toNat) h (fun x _ y _ f => h_step x y f) f
  have h_not := number_map_not ys
  have h_in := not_toNat_add f.carry
  -- in the end either the carry or the borrow is worth what is beyond the number
  have h_out : 256 ^ xs.length * (!r.2.carry).toNat + 256 ^ xs.length * r.2.carry.toNat
      = 256 ^ xs.length := by
    rw [← Nat.mul_add, not_toNat_add, Nat.mul_one]
  rw [← h] at h_not
  omega

/-- Without a borrow on the way in, a subtraction borrows from beyond the number if that is the
smaller one. -/
theorem carry_subtractCarry_iff (h_carry : f.carry = false) :
    (chain (List.zipWith (meet .subtractCarry) xs ys) f).2.carry = true
      ↔ number xs < number ys := by
  have h_number := number_subtractCarry h f
  have h_lt := number_lt (chain (List.zipWith (meet .subtractCarry) xs ys) f).1
  rw [length_chain_zipWith _ h] at h_lt
  rw [h_carry, Bool.toNat_false] at h_number
  -- the bytes that come out never make up for the borrow
  cases h_out : (chain (List.zipWith (meet .subtractCarry) xs ys) f).2.carry with
  | true =>
    rw [h_out, Bool.toNat_true] at h_number
    exact iff_of_true rfl (by omega)
  | false =>
    rw [h_out, Bool.toNat_false] at h_number
    exact iff_of_false Bool.false_ne_true (by omega)

end Numbers

/-- **Sums and differences of any length.** Bytes are added or subtracted from the lowest on, and
each operation takes up the carry that the one before it has left. The bytes that come out stand
for the sum or the difference, and the carry in the end is what does not fit into them; after a
subtraction without a borrow on the way in it tells which number is the smaller one. An operation
without a carry may stand at the beginning, and does what the one with a carry does when the carry
is clear. -/
theorem carry_chains (xs ys : List Byte) (h : xs.length = ys.length) (f : Flags) :
    (let sum := chain (List.zipWith (meet .addCarry) xs ys) f
     sum.1.length = xs.length ∧
      number sum.1 + 256 ^ xs.length * sum.2.carry.toNat
        = number xs + number ys + f.carry.toNat) ∧
    (let difference := chain (List.zipWith (meet .subtractCarry) xs ys) f
     difference.1.length = xs.length ∧
      (number difference.1 : ℤ) - 256 ^ xs.length * difference.2.carry.toNat
        = number xs - number ys - f.carry.toNat ∧
      (f.carry = false → (difference.2.carry = true ↔ number xs < number ys))) ∧
    ∀ x y g, g.carry = false →
      chain (meet .add x y :: List.zipWith (meet .addCarry) xs ys) f
        = chain (List.zipWith (meet .addCarry) (x :: xs) (y :: ys)) g ∧
      chain (meet .subtract x y :: List.zipWith (meet .subtractCarry) xs ys) f
        = chain (List.zipWith (meet .subtractCarry) (x :: xs) (y :: ys)) g := by
  refine ⟨⟨length_chain_zipWith _ h f, number_addCarry h f⟩,
    ⟨length_chain_zipWith _ h f, ?_, carry_subtractCarry_iff h f⟩, fun x y g h_clear => ?_⟩
  · have h_number := congrArg (Nat.cast : ℕ → ℤ) (number_subtractCarry h f)
    push_cast at h_number
    omega
  · have h_add : meet .add x y f = meet .addCarry x y g := by
      simp only [meet, accumulate, h_clear]
    have h_subtract : meet .subtract x y f = meet .subtractCarry x y g := by
      simp only [meet, accumulate, h_clear]
    simp only [List.zipWith_cons_cons, chain_cons, h_add, h_subtract, and_self]

/-- A full byte and a carry make up a whole byte more: the result is zero, and the carry goes on. -/
theorem carry_chains_at_full_byte :
    let f : Flags := ⟨false, false, false, false, true⟩
    let sum := chain (List.zipWith (meet .addCarry) [0xFF, 0x12] [0x00, 0xED]) f
    sum.1 = [0x00, 0x00] ∧ sum.2.carry = true ∧
      number sum.1 + 256 ^ 2 * sum.2.carry.toNat
        = number [0xFF, 0x12] + number [0x00, 0xED] + 1 := by
  intro f sum
  have h_sum := (carry_chains [0xFF, 0x12] [0x00, 0xED] rfl f).1.2
  exact ⟨by decide, by decide, h_sum⟩

/-! ### Packed decimal -/

/-- A byte that holds two decimal digits, one in each half. -/
def IsDecimal (b : Byte) : Prop := b.toNat / 16 ≤ 9 ∧ b.toNat % 16 ≤ 9

instance (b : Byte) : Decidable (IsDecimal b) := inferInstanceAs (Decidable (_ ∧ _))

/-- The number that two decimal digits stand for. -/
def decimal (b : Byte) : Nat := 10 * (b.toNat / 16) + b.toNat % 16

/-- The number that bytes with two decimal digits each stand for, the lowest byte first. -/
def decimalNumber (bs : List Byte) : Nat := Nat.ofDigits 100 (bs.map decimal)

/-- Adds two bytes and the carry, and corrects the sum to decimal. -/
def addDecimal (x y : Byte) (f : Flags) : Byte × Flags :=
  let sum := accumulate .addCarry f.carry x y
  decimalAdjust sum.2 sum.1

section Decimal

variable (a n : Byte) (c : Bool)

/-- A sum of bytes with its low digit corrected. Nothing has been cut off yet. -/
def correctedSum : Nat := byteSum a n c + if 9 < nibbleSum a n c then 6 else 0

/-- The low digit is corrected if the low halves have come to more than a digit. Beyond fifteen
only the half-carry shows it. -/
theorem correctLow_add :
    correctLow (add a n c).2 (add a n c).1
      = (add a n c).1.toNat + if 9 < nibbleSum a n c then 6 else 0 := by
  have h_half : (add a n c).2.halfCarry = decide (0xF < nibbleSum a n c) := rfl
  have h_low : (add a n c).1.toNat % 16 = nibbleSum a n c % 16 := by
    rw [toNat_fst_add]
    unfold byteSum nibbleSum
    omega
  have h_bound : nibbleSum a n c < 32 := by
    have := Bool.toNat_lt c
    unfold nibbleSum
    omega
  simp only [correctLow, h_half, h_low, decide_eq_true_eq]
  -- beyond fifteen the half-carry decides, and up to there the low half is the sum itself
  split <;> split <;> omega

/-- The high digit is corrected if the sum has come to more than it can hold. Beyond a byte only
the carry shows it. -/
theorem correctsHigh_add :
    correctsHigh (add a n c).2 (add a n c).1 = decide (0x9F < correctedSum a n c) := by
  have h_lt := byteSum_lt a n c
  rw [correctsHigh, correctLow_add, carry_add, toNat_fst_add, correctedSum, ← Bool.decide_or]
  exact decide_eq_decide.2 (by omega)

/-- The correction of a sum can be read off the sum itself. -/
theorem decimalAdjust_add :
    (decimalAdjust (add a n c).2 (add a n c).1).1.toNat
        = (correctedSum a n c + if 0x9F < correctedSum a n c then 0x60 else 0) % 256 ∧
      (decimalAdjust (add a n c).2 (add a n c).1).2.carry
        = decide (0x9F < correctedSum a n c) := by
  refine ⟨?_, correctsHigh_add a n c⟩
  have h_cut := toNat_fst_add a n c
  have h_low := correctLow_add a n c
  have h_result : (decimalAdjust (add a n c).2 (add a n c).1).1.toNat
      = (if correctsHigh (add a n c).2 (add a n c).1 then
          correctLow (add a n c).2 (add a n c).1 + 0x60
        else correctLow (add a n c).2 (add a n c).1) % 256 :=
    BitVec.toNat_ofNat _ 8
  rw [h_result, correctsHigh_add]
  -- what was cut off before the correction is cut off after it as well
  by_cases h_high : 0x9F < correctedSum a n c
  · rw [if_pos (decide_eq_true h_high), if_pos h_high, correctedSum]
    omega
  · rw [if_neg (mt of_decide_eq_true h_high), if_neg h_high, correctedSum]
    omega

end Decimal

section DecimalNumbers

variable {x y : Byte} {xs ys : List Byte} (f : Flags)

/-- With its low digit corrected, a sum has a decimal digit in the low half, and above it what the
high digits and the decimal carry have come to. -/
theorem exists_correctedSum (hx : IsDecimal x) (hy : IsDecimal y) (c : Bool) :
    ∃ tens ones, correctedSum x y c = 16 * tens + ones ∧ tens ≤ 19 ∧ ones ≤ 9 ∧
      10 * tens + ones = decimal x + decimal y + c.toNat := by
  obtain ⟨h_xh, h_xl⟩ := hx
  obtain ⟨h_yh, h_yl⟩ := hy
  have h_in := Bool.toNat_lt c
  have h_low : nibbleSum x y c = x.toNat % 16 + y.toNat % 16 + c.toNat := rfl
  have h_sum : byteSum x y c = 16 * (x.toNat / 16 + y.toNat / 16) + nibbleSum x y c := by
    unfold byteSum nibbleSum
    omega
  unfold correctedSum decimal
  by_cases h_carry : 9 < nibbleSum x y c
  · -- the correction takes ten ones for a ten
    rw [if_pos h_carry]
    exact ⟨x.toNat / 16 + y.toNat / 16 + 1, nibbleSum x y c - 10, by omega⟩
  · rw [if_neg h_carry]
    exact ⟨x.toNat / 16 + y.toNat / 16, nibbleSum x y c, by omega⟩

/-- The corrected sum of decimal digits is made of decimal digits, and of a carry worth a
hundred. -/
theorem addDecimal_balance (hx : IsDecimal x) (hy : IsDecimal y) :
    IsDecimal (addDecimal x y f).1 ∧
      decimal (addDecimal x y f).1 + 100 * (addDecimal x y f).2.carry.toNat
        = decimal x + decimal y + f.carry.toNat := by
  have h_byte : (addDecimal x y f).1.toNat
      = (correctedSum x y f.carry + if 0x9F < correctedSum x y f.carry then 0x60 else 0) % 256 :=
    (decimalAdjust_add x y f.carry).1
  have h_carry : (addDecimal x y f).2.carry = decide (0x9F < correctedSum x y f.carry) :=
    (decimalAdjust_add x y f.carry).2
  obtain ⟨tens, ones, h_sum, h_tens, h_ones, h_value⟩ := exists_correctedSum hx hy f.carry
  rw [h_sum] at h_byte h_carry
  rw [← h_value, h_carry]
  unfold IsDecimal decimal
  by_cases h_high : 0x9F < 16 * tens + ones
  · -- ten tens are taken for a carry
    rw [if_pos h_high] at h_byte
    rw [decide_eq_true h_high, Bool.toNat_true]
    omega
  · rw [if_neg h_high] at h_byte
    rw [decide_eq_false h_high, Bool.toNat_false]
    omega

theorem forall_isDecimal_chain (hx : ∀ x ∈ xs, IsDecimal x) (hy : ∀ y ∈ ys, IsDecimal y) :
    ∀ b ∈ (chain (List.zipWith addDecimal xs ys) f).1, IsDecimal b := by
  refine forall_chain (fun op h_op f => ?_) f
  rw [← List.map_uncurry_zip_eq_zipWith] at h_op
  obtain ⟨⟨x, y⟩, h_pair, rfl⟩ := List.mem_map.1 h_op
  obtain ⟨h_x, h_y⟩ := List.of_mem_zip h_pair
  exact (addDecimal_balance f (hx x h_x) (hy y h_y)).1

end DecimalNumbers

/-- **Decimal sums of any length.** Packed decimal bytes are added and corrected from the lowest on,
and each correction hands its carry on. The bytes that come out are packed decimal again and stand
for the sum, and the carry in the end is what does not fit into so many digits. -/
theorem decimal_chain (xs ys : List Byte) (h : xs.length = ys.length)
    (hx : ∀ x ∈ xs, IsDecimal x) (hy : ∀ y ∈ ys, IsDecimal y) (f : Flags) :
    let sum := chain (List.zipWith addDecimal xs ys) f
    sum.1.length = xs.length ∧ (∀ b ∈ sum.1, IsDecimal b) ∧
      decimalNumber sum.1 + 100 ^ xs.length * sum.2.carry.toNat
        = decimalNumber xs + decimalNumber ys + f.carry.toNat := by
  refine ⟨length_chain_zipWith _ h f, forall_isDecimal_chain f hx hy, ?_⟩
  exact ofDigits_chain_zipWith (fun f => f.carry.toNat) h
    (fun x h_x y h_y f => (addDecimal_balance f (hx x h_x) (hy y h_y)).2) f

/-- `4985 + 5077 + 1 = 10063`. The lower correction carries into the higher digit, and the higher
one out of the number. -/
theorem decimal_chain_of_four_digits :
    let f : Flags := ⟨false, false, false, false, true⟩
    let sum := chain (List.zipWith addDecimal [0x85, 0x49] [0x77, 0x50]) f
    sum.1 = [0x63, 0x00] ∧ sum.2.carry = true ∧
      decimalNumber sum.1 + 100 ^ 2 * sum.2.carry.toNat
        = decimalNumber [0x85, 0x49] + decimalNumber [0x77, 0x50] + 1 := by
  intro f sum
  have h_sum := decimal_chain [0x85, 0x49] [0x77, 0x50] rfl (by decide) (by decide) f
  exact ⟨by decide, by decide, h_sum.2.2⟩

end Sm83.Arithmetic
