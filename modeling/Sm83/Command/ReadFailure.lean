/-!
# Failures to read

A program image may be impossible to read. The common causes are told apart by their meaning;
every other error of the system is kept by its number and its words.
-/

namespace Sm83.Command

/-- Why a file could not be read. -/
inductive ReadFailure where
  /-- There is no such file. -/
  | missing
  /-- The file may not be read. -/
  | denied
  /-- The name goes through a file as if that were a directory. -/
  | notDirectory
  /-- The name is that of a directory. -/
  | directory
  /-- The name, or a part of it, is longer than the system allows. -/
  | nameTooLong
  /-- The name holds the character NUL, which no name of a file can. -/
  | nulInName
  /-- Another error of the system. -/
  | system (code : Nat) (words : String)
  deriving DecidableEq

namespace ReadFailure

/-- The failure that an error of the system stands for, given by its number and its words. -/
def ofSystem (code : Nat) (words : String) : ReadFailure :=
  match code with
  | 2 => missing
  | 13 => denied
  | 20 => notDirectory
  | 21 => directory
  | 36 => nameTooLong
  | _ => system code words

/-- The words of the system, followed by the number of the error. -/
def numbered (code : Nat) (words : String) : String :=
  words ++ " (os error " ++ toString code ++ ")"

/-- The wording of a failure to read. -/
def message : ReadFailure → String
  | missing => numbered 2 "No such file or directory"
  | denied => numbered 13 "Permission denied"
  | notDirectory => numbered 20 "Not a directory"
  | directory => numbered 21 "Is a directory"
  | nameTooLong => numbered 36 "File name too long"
  | nulInName => "file name contained an unexpected NUL byte"
  | system code words => numbered code words

end ReadFailure

end Sm83.Command
