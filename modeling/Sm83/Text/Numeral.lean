/-!
# Reading unsigned numerals

A numeral is an optional plus sign and at least one digit of the base, with any number of
leading zeros, and its value may not exceed a limit. The digits are read from the left, and
the first thing that is wrong decides the error: a character that is no digit, or a value
that has grown past the limit.
-/

namespace Sm83.Numeral

/-- Why a text is not a numeral within the limit. -/
inductive Error where
  /-- There is no text at all. -/
  | empty
  /-- A character, or the place after a plus sign, holds no digit of the base. -/
  | invalidDigit
  /-- The digits read so far exceed the limit. -/
  | tooLarge
  deriving DecidableEq

/-- The wording of an error. -/
def Error.message : Error → String
  | .empty => "cannot parse integer from empty string"
  | .invalidDigit => "invalid digit found in string"
  | .tooLarge => "number too large to fit in target type"

/-- The value of a character as a digit of a base up to thirty-six. Letters of either case
stand for the digits above nine. -/
def digit? (base : Nat) (c : Char) : Option Nat :=
  let value :=
    if '0' ≤ c ∧ c ≤ '9' then c.toNat - '0'.toNat
    else if 'a' ≤ c ∧ c ≤ 'z' then c.toNat - 'a'.toNat + 10
    else if 'A' ≤ c ∧ c ≤ 'Z' then c.toNat - 'A'.toNat + 10
    else base
  if value < base then some value else none

/-- Appends one digit to the value read so far. -/
def append (base limit value : Nat) (c : Char) : Except Error Nat :=
  match digit? base c with
  | none => .error .invalidDigit
  | some d => if base * value + d ≤ limit then .ok (base * value + d) else .error .tooLarge

/-- Reads a non-empty run of digits. -/
def readDigits (base limit : Nat) : List Char → Except Error Nat
  | [] => .error .invalidDigit
  | c :: cs => (c :: cs).foldlM (append base limit) 0

/-- Reads a numeral of the given base whose value is at most `limit`. -/
def read (base limit : Nat) : List Char → Except Error Nat
  | [] => .error .empty
  | '+' :: cs => readDigits base limit cs
  | c :: cs => readDigits base limit (c :: cs)

end Sm83.Numeral
