import Sm83.Word

/-!
# Hexadecimal numerals

Listings and dumps write bytes and words with a fixed number of upper-case digits. Messages
write numbers in lower case behind the marker `0x`, padded with zeros to a least number of
digits. Both print the digits of one function, `Hex.digits`.
-/

namespace Sm83.Hex

/-- Which letters stand for the digits above nine. -/
inductive Case where
  | lower
  | upper
  deriving DecidableEq

/-- The character of a digit below sixteen. -/
def digit : Case → Nat → Char
  | .lower, d => d.digitChar
  | .upper, d => d.digitChar.toUpper

/-- The last `width` digits of `n`, the most significant one first. -/
def digits (c : Case) : (width n : Nat) → List Char
  | 0, _ => []
  | w + 1, n => digits c w (n / 16) ++ [digit c (n % 16)]

@[simp] theorem digits_zero (c : Case) (n : Nat) : digits c 0 n = [] := rfl

@[simp] theorem digits_succ (c : Case) (w n : Nat) :
    digits c (w + 1) n = digits c w (n / 16) ++ [digit c (n % 16)] := rfl

@[simp] theorem length_digits (c : Case) (w n : Nat) : (digits c w n).length = w := by
  induction w generalizing n with
  | zero => rfl
  | succ w ih => simp [ih]

/-- How many digits `n` has when none of them is a leading zero; zero itself has one. -/
def width (n : Nat) : Nat := n.log2 / 4 + 1

/-- A byte as two upper-case digits. -/
def byte (b : Byte) : String := String.ofList (digits .upper 2 b.toNat)

/-- A word as four upper-case digits. -/
def word (w : Word) : String := String.ofList (digits .upper 4 w.toNat)

/-- A number in a message: `0x` and at least `least` lower-case digits. -/
def marked (least n : Nat) : String :=
  "0x" ++ String.ofList (digits .lower (max least (width n)) n)

end Sm83.Hex
