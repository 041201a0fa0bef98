/-
**A run over a formula.**

A run takes the text of a formula and gives what is printed and how the program ends.  There are
three ways: the report with the truth table, the report with a refusal because of too many names,
and nothing but a message because the text is no formula.

Main definitions:

* `BoolLut.Outcome` — what was printed, and the exit code;
* `BoolLut.Outcome.ofReport` — the outcome that ends in a report;
* `BoolLut.execute` — a run with its records;
* `BoolLut.run` — a run without them.

Main results:

* `BoolLut.run_of_error` — **no formula, no report**: a text that is no formula gives its message
  and nothing else;
* `BoolLut.run_of_ok` — a formula gives the report on its own names and its own truth table.
-/

import BoolLut.Failure
import BoolLut.Formula.Parser
import BoolLut.Log
import BoolLut.Report

set_option relaxedAutoImplicit false
set_option autoImplicit false

namespace BoolLut

/-- What a program printed and how it ended. -/
structure Outcome where
  /-- What was printed as a result. -/
  stdout : String
  /-- What was printed as a complaint. -/
  stderr : String
  /-- How it ended. -/
  exitCode : ExitCode
deriving DecidableEq, Repr

/-- The outcome of a run over a text that is no formula. -/
def Outcome.ofParseError (e : ParseError) : Outcome where
  stdout := ""
  stderr := (Failure.parse e.diagnostic).message ++ "\n"
  exitCode := (Failure.parse e.diagnostic).exitCode

/-- The outcome of a run that ends in a report. -/
def Outcome.ofReport (r : Report) : Outcome where
  stdout := r.text
  stderr := ""
  exitCode :=
    match r.table with
    | .ok _ => .success
    | .error e => (Failure.capacity e).exitCode

/-- A run over a text, with its records. -/
def execute (text : String) (style : TreeStyle) (policy : WidthPolicy) : Logged Outcome :=
  match Formula.parse text with
  | .error e => pure (.ofParseError e)
  | .ok root => do
      Logged.emit (.parsed root.size root.depth)
      let names ← root.nameTableLogged
      let table ← TruthTable.buildLogged names root policy
      pure (.ofReport ⟨root, names, table, style⟩)

/-- A run over a text. -/
def run (text : String) (style : TreeStyle) (policy : WidthPolicy) : Outcome :=
  (execute text style policy).value

/-- A text that is no formula gives its message and nothing else. -/
theorem run_of_error {text : String} {e : ParseError} (h : Formula.parse text = .error e)
    (style : TreeStyle) (policy : WidthPolicy) :
    run text style policy = .ofParseError e := by
  simp [run, execute, h]

/-- A formula gives the report on its own names and its own truth table. -/
theorem run_of_ok {text : String} {root : Formula} (h : Formula.parse text = .ok root)
    (style : TreeStyle) (policy : WidthPolicy) :
    run text style policy =
      .ofReport ⟨root, root.nameTable, TruthTable.build root.nameTable root policy, style⟩ := by
  simp [run, execute, h]

end BoolLut
