/-
**The report on a formula.**

A report shows the tree of a formula, its names with the number of their occurrences, and its truth
table as one line of digits behind a marker.  For a formula with too many names the refusal stands
in the place of the truth table.

Main definitions:

* `BoolLut.unlines` — lines, each with its end;
* `BoolLut.NameTable.summary` — the lines about names;
* `BoolLut.TruthTable.lut` — the marker and the digits;
* `BoolLut.Report` — what a report is about, with `BoolLut.Report.lines` and
  `BoolLut.Report.text`.
-/

import BoolLut.Formula.Text
import BoolLut.TruthTable

set_option relaxedAutoImplicit false
set_option autoImplicit false

namespace BoolLut

/-- A text of the given lines, each with its end. -/
def unlines (lines : List String) : String := String.join (lines.map fun line => line ++ "\n")

/-- How many names there are, and how often each occurs. -/
def NameTable.summary (t : NameTable) : List String :=
  ("Found " ++ toString t.size ++ " unique identifiers") ::
    t.counts.map fun (name, count) => name.text ++ ": " ++ toString count ++ " occurrences"

/-- The digit in front of the rows of every truth table. -/
def lutMarker : Char := '0'

/-- A truth table on one line: the marker and the digits. -/
def TruthTable.lut (tt : TruthTable) : String := lutMarker.toString ++ tt.digits

/-- Everything that a report shows. -/
structure Report where
  /-- The formula. -/
  root : Formula
  /-- The names. -/
  names : NameTable
  /-- The truth table, or why there is none. -/
  table : Except TooManyNames TruthTable
  /-- How the tree is written. -/
  style : TreeStyle

namespace Report

/-- The lines about the truth table. -/
def conclusion : Except TooManyNames TruthTable → List String
  | .ok tt => ["Generating a lut" ++ tt.width.text ++ ".", tt.lut]
  | .error e => [e.message]

/-- The lines of a report. -/
def lines (r : Report) : List String :=
  r.root.render r.style :: r.names.summary ++ conclusion r.table

/-- A report as it is printed. -/
def text (r : Report) : String := unlines r.lines

end Report

end BoolLut
