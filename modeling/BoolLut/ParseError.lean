/-
**Why a text is not a formula.**

A text is refused for one cause at one place.  The causes are a type of their own; their wording is
one function, and a cause with its place becomes a diagnostic, which is a sentence and an offset.

Main definitions:

* `BoolLut.Fault` — the causes, with `BoolLut.Fault.message`;
* `BoolLut.ParseError` — a cause and the place, in bytes;
* `BoolLut.Diagnostic` — a sentence and the place it is about, with `BoolLut.Diagnostic.text`.
-/

import BoolLut.Token.Basic

set_option relaxedAutoImplicit false
set_option autoImplicit false

namespace BoolLut

/-- A cause for which a text is refused. -/
inductive Fault where
  /-- No token begins with this character. -/
  | unknownChar (c : Char)
  /-- The first character of a connective stands without the second. -/
  | halfConnective (op : Connective)
  /-- This token cannot stand here. -/
  | unexpected (token : Token)
  /-- The text ends where an operand is missing. -/
  | unexpectedEnd
  /-- An operand inside a group is followed by something that does not close the group. -/
  | unclosedGroup
  /-- One more `!` or group is opened than may be open at once. -/
  | tooDeep
deriving DecidableEq

/-- The sentence for a cause. -/
def Fault.message : Fault → String
  | unknownChar c => "unexpected character '" ++ c.toString ++ "'"
  | halfConnective op => "expected '" ++ op.symbol ++ "'"
  | unexpected token => "unexpected " ++ token.describe
  | unexpectedEnd => "unexpected end of input"
  | unclosedGroup => "expected ')'"
  | tooDeep => "expression nested too deeply"

theorem Fault.message_unexpected (t : Token) :
    (unexpected t).message = "unexpected " ++ t.describe := rfl

/-- A sentence about a place in a text. -/
structure Diagnostic where
  /-- What is wrong. -/
  message : String
  /-- The number of bytes before the place. -/
  offset : Nat
deriving DecidableEq, Repr

/-- A diagnostic on one line. -/
def Diagnostic.text (d : Diagnostic) : String :=
  d.message ++ " at offset " ++ toString d.offset

/-- Why a text is refused, and where. -/
structure ParseError where
  /-- The cause. -/
  fault : Fault
  /-- The number of bytes before the place. -/
  offset : Nat
deriving DecidableEq

/-- A refusal in words. -/
def ParseError.diagnostic (e : ParseError) : Diagnostic := ⟨e.fault.message, e.offset⟩

end BoolLut
