/-
**The program.**

The command line is handed to `BoolLut.Command.Request.ofArguments`, the formula is read from the
source that it names, and what `BoolLut.Command.Options.answer` gives is printed.  Only the reading
and the printing happen here.
-/

import BoolLut.Command.Answer
import Std.Time.DateTime.Timestamp

set_option relaxedAutoImplicit false
set_option autoImplicit false

namespace BoolLut

namespace Command

/-- The refusal of the system under the number `code`, which may be given with either sign. -/
def ReadError.ofCode (code : UInt32) (reason : String) : ReadError :=
  match code.toInt32.toInt.natAbs with
  | 2 => .notFound
  | 20 => .notDirectory
  | 21 => .isDirectory
  | number => .system reason number

/-- The refusal of the system that an error reports. -/
def ReadError.ofIOError : IO.Error → ReadError
  | .noFileOrDirectory _ code reason => .ofCode code reason
  | .inappropriateType _ code reason => .ofCode code reason
  | .permissionDenied _ code reason => .ofCode code reason
  | .invalidArgument _ code reason => .ofCode code reason
  | .otherError code reason => .ofCode code reason
  | e => .ofCode 5 e.toString

/-- The formula, read from its source. -/
def Source.load : Source → IO (Except ReadError String)
  | .formula text => return .ok text
  | .file path => do
      match ← (IO.FS.readBinFile path).toBaseIO with
      | .ok bytes => return decode bytes
      | .error e => return .error (.ofIOError e)
  | .stdin => do
      match ← (← IO.getStdin).readBinToEnd.toBaseIO with
      | .ok bytes => return decode bytes
      | .error e => return .error (.ofIOError e)

/-- Prints an answer and gives its exit code. -/
def deliver (answer : Logged Outcome) : IO UInt32 := do
  let now ← Std.Time.Timestamp.now
  IO.eprint (complaint now.toSecondsSinceUnixEpoch.val.toNat answer)
  IO.print answer.value.stdout
  (← IO.getStdout).flush
  return answer.value.exitCode.value.toUInt32

/-- Prints what a list of arguments asks for. -/
def perform (arguments : List String) : IO UInt32 := do
  match Request.ofArguments arguments with
  | .error e => deliver (pure e.outcome)
  | .ok .help => deliver (pure helpOutcome)
  | .ok (.generate o) => do deliver (o.answer (← o.source.load))

end Command

end BoolLut

/-- Prints the truth table that the command line asks for. -/
def main (arguments : List String) : IO UInt32 := BoolLut.Command.perform arguments
