/-
**Truth tables.**

The truth table of a formula has a row for every code: the value of the formula when each name has
the value that the code gives it.  The names are those of a table of names, which need not be the
formula's own; a variable that is not in the table is false in every row.

Main definitions:

* `BoolLut.TruthTable` — a width and as many rows as it has codes;
* `BoolLut.TruthTable.build` — the truth table of a formula over a table of names;
* `BoolLut.TruthTable.row?`, `BoolLut.TruthTable.row` — one row;
* `BoolLut.TruthTable.countOnes` — how many rows are true;
* `BoolLut.TruthTable.digits` — the rows as a word of `0` and `1`.
-/

import BoolLut.Assignment
import BoolLut.Formula.Value

set_option relaxedAutoImplicit false
set_option autoImplicit false

namespace BoolLut

/-- The values of a formula, one for each code of a width, in increasing order of the codes. -/
@[ext] structure TruthTable where
  /-- The width of the codes. -/
  width : BitWidth
  /-- The values. -/
  rows : List Bool
  /-- Every code has a row. -/
  length_rows : rows.length = width.rows
deriving DecidableEq

namespace TruthTable

/-- The truth table of `root` over the names of `t`. -/
def build (t : NameTable) (root : Formula) (policy : WidthPolicy) :
    Except TooManyNames TruthTable :=
  match BitWidth.ofCount t.size policy with
  | .error e => .error e
  | .ok width =>
      .ok ⟨width, (t.assignments width).map fun a => root.eval a.bindings.value, by simp⟩

/-- The number of rows. -/
def size (tt : TruthTable) : Nat := tt.rows.length

/-- Whether there are no rows. -/
def isEmpty (tt : TruthTable) : Bool := tt.rows.isEmpty

/-- The row of a code, if the code is within the width. -/
def row? (tt : TruthTable) (code : Nat) : Option Bool := tt.rows[code]?

/-- The row of a code; to ask for one that is not there breaks a rule. -/
def row (tt : TruthTable) (code : Nat) : Except Misuse Bool :=
  match tt.row? code with
  | some value => .ok value
  | none => .error (.rowOutOfRange tt.size code)

/-- The number of rows that are true. -/
def countOnes (tt : TruthTable) : Nat := tt.rows.count true

/-- The digit for a value. -/
def digit (value : Bool) : Char := if value then '1' else '0'

/-- The rows as digits, that of code zero in front. -/
def digits (tt : TruthTable) : String := String.ofList (tt.rows.map digit)

theorem size_eq (tt : TruthTable) : tt.size = tt.width.rows := tt.length_rows

end TruthTable

end BoolLut
