/-
**What the program does.**

The command line is understood before anything is read.  A call for help is answered with the help
text; otherwise the formula is read from its one source, and a run over it gives the answer.  What
the other sources hold is never looked at.  The records that the command line asks to see come
before all else that is printed as a complaint, each on a line of the logger.

Main definitions:

* `BoolLut.Command.helpText` — the help text;
* `BoolLut.Command.Options.answer` — the answer once the formula was read, or could not be;
* `BoolLut.Command.Source.read` — the formula, read from its source;
* `BoolLut.Command.answer` — the answer to a list of arguments in given surroundings;
* `BoolLut.Command.complaintWith` — all that is printed as a complaint by a given logger;
* `BoolLut.Command.complaint` — the same, with a plain logger, at a given time.
-/

import BoolLut.Command.Arguments
import BoolLut.Command.FileTree
import BoolLut.Run

set_option relaxedAutoImplicit false
set_option autoImplicit false

namespace BoolLut

namespace Command

/-- The help text. -/
def helpText : String := unlines
  ["Generate the truth table (LUT) of a boolean formula",
    "",
    "Usage: bitgen [OPTIONS] [FORMULA]",
    "",
    "Arguments:",
    "  [FORMULA]  Formula, e.g. `a && !b`. Read from stdin if omitted",
    "",
    "Options:",
    "  -f, --file <FILE>            Read the formula from a file",
    "      --exact                  Use exactly one bit per identifier instead of the " ++
      "lut2/lut4 buckets",
    "      --symbols                Print the tree with real operator symbols",
    "      --log-level <LOG_LEVEL>  Log level for diagnostics on stderr [default: warn]",
    "  -h, --help                   Print help"]

/-- The answer to a call for help. -/
def helpOutcome : Outcome := ⟨helpText, "", .success⟩

/-- The answer to a command line that breaks a rule. -/
def UsageError.outcome (e : UsageError) : Outcome := ⟨"", "error: " ++ e.message ++ "\n", .usage⟩

/-- The answer when the formula cannot be read. -/
def ReadError.outcome (e : ReadError) : Outcome :=
  ⟨"", "Could not read formula: " ++ e.message ++ "\n", .io⟩

/-- What is recorded when a source is opened. -/
def Source.announcement : Source → List Record
  | formula _ => []
  | file path => [.reading path]
  | stdin => []

/-- The answer once the formula was read, or could not be, with the records on the way to it. -/
def Options.record (o : Options) (reading : Except ReadError String) : Logged Outcome := do
  o.source.announcement.forM Logged.emit
  match reading with
  | .error e => pure e.outcome
  | .ok text => execute text o.style o.policy

/-- The answer once the formula was read, or could not be, with the records that are shown. -/
def Options.answer (o : Options) (reading : Except ReadError String) : Logged Outcome where
  value := (o.record reading).value
  records := (o.record reading).records.filter o.threshold.admits

/-! ### In given surroundings -/

/-- The formula, read from its source. -/
def Source.read (s : Surroundings) : Source → Except ReadError String
  | formula text => .ok text
  | file path => s.read path
  | stdin => decode s.stdin

/-- What a list of arguments is answered with. -/
def answer (arguments : List String) (s : Surroundings) : Logged Outcome :=
  match Request.ofArguments arguments with
  | .error e => pure e.outcome
  | .ok .help => pure helpOutcome
  | .ok (.generate o) => o.answer (o.source.read s)

/-! ### Complaints -/

/-- All that is printed as a complaint, if the logger makes the line `line r` of a record `r`: the
records that are shown, and then the outcome's own. -/
def complaintWith (line : Record → String) (answer : Logged Outcome) : String :=
  unlines (answer.records.map line) ++ answer.value.stderr

/-- A number below a hundred in two digits. -/
def twoDigits (n : Nat) : String := String.ofList ((Nat.toDigits 10 n).leftpad 2 '0')

/-- The time of day, in hours, minutes and seconds, so many seconds after a midnight. -/
def timeOfDay (seconds : Nat) : String :=
  twoDigits (seconds / 3600 % 24) ++ ":" ++ twoDigits (seconds / 60 % 60) ++ ":" ++
    twoDigits (seconds % 60)

/-- All that is printed as a complaint by a plain logger, which puts the time of day before what a
record says. -/
def complaint (seconds : Nat) (answer : Logged Outcome) : String :=
  complaintWith (fun r => timeOfDay seconds ++ " " ++ r.message) answer

end Command

end BoolLut
