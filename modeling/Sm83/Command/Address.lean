import Sm83.Text.Blank
import Sm83.Text.Numeral
import Sm83.Word

/-!
# Addresses on the command line

An address is a decimal numeral, or a hexadecimal one behind `0x`. White space around it does
not count.
-/

namespace Sm83.Command

/-- Why a text is no address. -/
structure AddressError where
  /-- The text without the white space around it. -/
  text : List Char
  cause : Numeral.Error
  deriving DecidableEq

/-- The wording of an address error, followed by that of its cause. -/
def AddressError.chain (e : AddressError) : List String :=
  ["invalid address: " ++ String.ofList e.text, e.cause.message]

/-- The base that a numeral is written in, and the numeral without the marker of the base. -/
def splitBase : List Char → Nat × List Char
  | '0' :: 'x' :: digits => (16, digits)
  | '0' :: 'X' :: digits => (16, digits)
  | digits => (10, digits)

/-- Reads an address. -/
def readAddress (text : List Char) : Except AddressError Word :=
  let trimmed := Text.trim text
  let (base, digits) := splitBase trimmed
  match Numeral.read base 0xFFFF digits with
  | .ok n => .ok (.ofNat 16 n)
  | .error cause => .error ⟨trimmed, cause⟩

end Sm83.Command
