/-
**Requests that break a rule of this library.**

Every function here is total on its own types, so the only thing a caller can do wrong is to ask
for a value that does not exist: a name without a character, or a row that a truth table does not
have.  The two requests have one type, and a text each.

Main definitions:

* `BoolLut.Misuse` — the two broken rules;
* `BoolLut.Misuse.message` — what a caller is told.
-/

set_option relaxedAutoImplicit false
set_option autoImplicit false

namespace BoolLut

/-- A request for a value that does not exist. -/
inductive Misuse where
  /-- A name was asked for with no character in it. -/
  | emptyName
  /-- Row `code` was asked of a table that has only `rows` of them. -/
  | rowOutOfRange (rows code : Nat)
deriving DecidableEq, Repr

/-- The sentence that tells a caller which rule was broken. -/
def Misuse.message : Misuse → String
  | emptyName => "Identifier name must be non-empty"
  | rowOutOfRange rows code =>
      "index out of bounds: the len is " ++ toString rows ++ " but the index is " ++ toString code

end BoolLut
