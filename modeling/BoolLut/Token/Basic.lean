/-
**Tokens.**

A formula written as text is a sequence of tokens: names, the four connectives, `!` and the two
parentheses.  A connective or `!` is the same token however it was spelled.

Main definitions:

* `BoolLut.Token` — the tokens;
* `BoolLut.Token.describe` — how a token is called in an error message;
* `BoolLut.Token.isNameStart`, `BoolLut.Token.isNameChar` — what a word begins with and goes on
  with;
* `BoolLut.Token.ofWord` — the token that a word spells;
* `BoolLut.Lexeme` — a token with the place where its spelling starts.

Main results:

* `BoolLut.Token.ofWord_eq_name_iff` — a word is a name exactly when it is none of the three
  reserved words.
-/

import BoolLut.Formula.Basic

set_option relaxedAutoImplicit false
set_option autoImplicit false

namespace BoolLut

/-- The smallest unit of a written formula. -/
inductive Token where
  /-- A variable. -/
  | name (name : Name)
  /-- One of `==`, `!=`, `&&` and `||`. -/
  | connective (op : Connective)
  /-- The sign `!`. -/
  | not
  /-- The sign that opens a group. -/
  | leftParen
  /-- The sign that closes a group. -/
  | rightParen
deriving DecidableEq

namespace Token

/-- How a token is called when it stands where it should not. -/
def describe : Token → String
  | .name n => "identifier '" ++ n.text ++ "'"
  | .connective op => "'" ++ op.symbol ++ "'"
  | .not => "'" ++ Formula.notSymbol ++ "'"
  | .leftParen => "'('"
  | .rightParen => "')'"

/-! ### Words -/

/-- The characters a word may begin with. -/
def isNameStart (c : Char) : Bool := c.isAlpha || c == '_'

/-- The characters a word may go on with. -/
def isNameChar (c : Char) : Bool := c.isAlphanum || c == '_'

theorem isNameChar_of_isNameStart {c : Char} (h : isNameStart c = true) :
    isNameChar c = true := by
  simp only [isNameStart, isNameChar, Char.isAlphanum, Bool.or_eq_true] at h ⊢
  exact h.imp_left Or.inl

/-- The operator that a word stands for, whatever the case of its letters. -/
def reserved? (word : List Char) : Option Token :=
  match word.map Char.toUpper with
  | ['A', 'N', 'D'] => some (.connective .and)
  | ['O', 'R'] => some (.connective .or)
  | ['N', 'O', 'T'] => some .not
  | _ => none

/-- The token spelled by the word that consists of `c` and `cs`: an operator if the word is
reserved, and otherwise the name spelled just so. -/
def ofWord (c : Char) (cs : List Char) : Token :=
  (reserved? (c :: cs)).getD (.name (.ofChars c cs))

theorem reserved?_ne_name (word : List Char) (n : Name) : reserved? word ≠ some (.name n) := by
  unfold reserved?
  split <;> simp

/-- A word is a name exactly when it is not reserved. -/
theorem ofWord_eq_name_iff {c : Char} {cs : List Char} {n : Name} :
    ofWord c cs = .name n ↔ reserved? (c :: cs) = none ∧ n = .ofChars c cs := by
  unfold ofWord
  cases h : reserved? (c :: cs) with
  | none => simp [eq_comm]
  | some t =>
      simp only [Option.getD_some, reduceCtorEq, false_and, iff_false]
      rintro rfl
      exact reserved?_ne_name _ _ h

end Token

/-- A token and the byte at which its spelling starts. -/
structure Lexeme where
  /-- What was read. -/
  token : Token
  /-- The number of bytes before it. -/
  offset : Nat
deriving DecidableEq

end BoolLut
