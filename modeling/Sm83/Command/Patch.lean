import Sm83.Command.Address

/-!
# Patches on the command line

A patch names an address and the bytes to put there, as in `0x100=c3`. The bytes are pairs of
hexadecimal digits. Every pair is a numeral of its own, so its first character may be a plus
sign. The text of the bytes is measured in UTF-8, where a character that is no digit may take
several places.
-/

namespace Sm83.Command

/-- Bytes to put into memory at an address. -/
structure Patch where
  address : Word
  bytes : List Byte
  deriving DecidableEq

/-- Why a text is no patch. -/
inductive PatchError where
  /-- Nothing parts the address from the bytes. -/
  | noEqualsSign (text : List Char)
  | badAddress (e : AddressError)
  /-- There are no digits, or they cannot be paired. -/
  | badLength (digits : List Char)
  /-- A pair is no byte. -/
  | badByte (digits : List Char)
  deriving DecidableEq

/-- The wording of a patch error, followed by that of its cause if it has one. -/
def PatchError.chain : PatchError → List String
  | .noEqualsSign t => ["expected ADDR=HEXBYTES, got " ++ String.ofList t]
  | .badAddress e => e.chain
  | .badLength ds => ["patch bytes must be an even number of hex digits: " ++ String.ofList ds]
  | .badByte ds => ["invalid hex byte in patch: " ++ String.ofList ds]

/-- The texts before and after the first equals sign. -/
def splitAtEquals (text : List Char) : Option (List Char × List Char) :=
  match text.dropWhile (· ≠ '=') with
  | [] => none
  | _ :: rest => some (text.takeWhile (· ≠ '='), rest)

/-- How many bytes a text takes in UTF-8. -/
def utf8Length : List Char → Nat
  | [] => 0
  | c :: rest => c.utf8Size + utf8Length rest

/-- Reads one byte from each pair of characters. A pair with a character beyond ASCII is no
byte, and neither is a last character without a partner. -/
def readPairs : List Char → Option (List Byte)
  | [] => some []
  | [_] => none
  | c :: d :: rest =>
    match Numeral.read 16 0xFF [c, d], readPairs rest with
    | .ok n, some bytes => some (.ofNat 8 n :: bytes)
    | _, _ => none

/-- Reads a patch. -/
def readPatch (text : List Char) : Except PatchError Patch :=
  match splitAtEquals text with
  | none => .error (.noEqualsSign text)
  | some (address, digits) =>
    match readAddress address with
    | .error e => .error (.badAddress e)
    | .ok a =>
      if digits = [] ∨ utf8Length digits % 2 ≠ 0 then .error (.badLength digits)
      else
        match readPairs digits with
        | none => .error (.badByte digits)
        | some bytes => .ok ⟨a, bytes⟩

end Sm83.Command
