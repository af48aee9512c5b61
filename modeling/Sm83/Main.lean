import Sm83.Command.Outcome

/-!
# The program

Reads the command line and the program image, does the job, prints what came of it and hands
back the exit status.
-/

namespace Sm83.Command

/-- The failure that an error of the system stands for. -/
def readFailure (e : IO.Error) : ReadFailure :=
  match e with
  | .noFileOrDirectory _ code words | .interrupted _ code words
  | .alreadyExists _ code words | .invalidArgument _ code words
  | .permissionDenied _ code words | .resourceExhausted _ code words
  | .inappropriateType _ code words | .noSuchThing _ code words
  | .otherError code words | .resourceBusy code words | .resourceVanished code words
  | .unsupportedOperation code words | .hardwareFault code words
  | .unsatisfiedConstraints code words | .illegalOperation code words
  | .protocolError code words | .timeExpired code words => .ofSystem code.toNat words
  | .unexpectedEof | .userError _ => .system 0 e.toString

/-- The bytes of a file. -/
def readImage (name : String) : IO (Except ReadFailure (List Byte)) := do
  if name.contains '\x00' then return .error .nulInName
  try
    let contents ← IO.FS.withFile name .read (·.readBinToEnd)
    return .ok (contents.toList.map fun b => .ofNat 8 b.toNat)
  catch e => return .error (readFailure e)

/-- Does a job with as much fuel as it takes. -/
partial def performFully (j : Job) (contents : Except ReadFailure (List Byte)) (fuel : Nat) :
    Outcome :=
  match j.perform? .ofProcess contents none fuel with
  | some o => o
  | none => performFully j contents (2 * fuel)

/-- How the commands are written. -/
def usage : String :=
  "Usage: gb-cpu run ROM [--offset ADDR] [--pc ADDR] [--sp ADDR] [--patch ADDR=HEXBYTES]...\n"
    ++ "                  [--max-steps COUNT] [--window COUNT] [--strict]\n"
    ++ "       gb-cpu disasm ROM [--offset ADDR] [--start ADDR] [--count COUNT]\n"

/-- What is told about a command line that is wrong. -/
def misuseText : Misuse → String
  | .noCommand => "no command"
  | .unknownCommand word => "unknown command: " ++ word
  | .unknownArgument word => "unexpected argument: " ++ word
  | .repeatedOption name => "option given twice: " ++ name
  | .missingValue name => "a value is required: " ++ name
  | .unexpectedValue name => "no value is expected: " ++ name
  | .missingOperand => "a program image is required"
  | .invalidValue message => message

end Sm83.Command

open Sm83.Command

def main (args : List String) : IO UInt32 := do
  let output ← IO.getStdout
  let errors ← IO.getStderr
  match Job.ofWords args with
  | .error stop =>
    match stop with
    | .help => output.putStr usage
    | .version => output.putStr (versionLine ++ "\n")
    | .misuse m => errors.putStr ("error: " ++ misuseText m ++ "\n\n" ++ usage)
    return .ofNat stop.status
  | .ok job =>
    let contents ← readImage job.image
    let o := performFully job contents 0x10000
    output.putStr o.output
    errors.putStr o.errorText
    match o.status with
    | some status => return .ofNat status
    | none => throw (IO.userError "no room for the listing")
