/-
**How a run can fail.**

A run over a formula fails because the text is no formula, or because the formula has too many
names.  The program tells the caller by its exit code; two further codes stand for failures that
come before any formula was there to look at.

Main definitions:

* `BoolLut.ExitCode` — the ways a program ends, with `BoolLut.ExitCode.value`;
* `BoolLut.Failure` — the two ways a run fails;
* `BoolLut.Failure.message`, `BoolLut.Failure.exitCode`, `BoolLut.Failure.source?` — what is said,
  how the program ends, and the diagnostic behind it, if there is one.

Main results:

* `BoolLut.ExitCode.value_injective` — different ends have different codes.
-/

import BoolLut.BitWidth
import BoolLut.ParseError

set_option relaxedAutoImplicit false
set_option autoImplicit false

namespace BoolLut

/-- How the program ends. -/
inductive ExitCode where
  /-- The truth table was printed. -/
  | success
  /-- The text is no formula. -/
  | parse
  /-- The formula has too many names. -/
  | capacity
  /-- The command line cannot be understood. -/
  | usage
  /-- The formula could not be read. -/
  | io
deriving DecidableEq, Repr

/-- The number handed to the caller. -/
def ExitCode.value : ExitCode → UInt8
  | success => 0
  | parse => 1
  | capacity => 2
  | usage => 64
  | io => 74

/-- Different ends have different codes. -/
theorem ExitCode.value_injective {a b : ExitCode} (h : a.value = b.value) : a = b := by
  cases a <;> cases b <;> simp_all [value]

/-- Why a run over a formula fails. -/
inductive Failure where
  /-- The text is no formula. -/
  | parse (diagnostic : Diagnostic)
  /-- The formula has too many names. -/
  | capacity (excess : TooManyNames)
deriving DecidableEq, Repr

namespace Failure

/-- What the user is told. -/
def message : Failure → String
  | parse diagnostic => "Parse error: " ++ diagnostic.text
  | capacity excess => excess.message

/-- How the program ends. -/
def exitCode : Failure → ExitCode
  | parse _ => .parse
  | capacity _ => .capacity

/-- The diagnostic that the failure rests on, if it rests on one. -/
def source? : Failure → Option Diagnostic
  | parse diagnostic => some diagnostic
  | capacity _ => none

end Failure

end BoolLut
