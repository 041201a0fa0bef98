/-
**Names of variables.**

A name is a text with at least one character.  Nothing else is asked of it here: that a formula
*written as text* can only use words of letters, digits and underscores is a matter of
`BoolLut/Token/Lexer.lean`, while a formula built by hand may use any name at all.

Main definitions:

* `BoolLut.Name` — a non-empty text;
* `BoolLut.Name.ofText` — the name with a given text, or the rule that the text breaks;
* `BoolLut.Name.ofChars` — the name spelled by a first character and the rest.
-/

import BoolLut.Misuse

set_option relaxedAutoImplicit false
set_option autoImplicit false

namespace BoolLut

/-- The name of a variable: a text with at least one character. -/
@[ext] structure Name where
  /-- The characters of the name. -/
  text : String
  /-- A name has a character. -/
  text_ne_empty : text ≠ ""
deriving DecidableEq

namespace Name

/-- The name with text `text`. -/
def ofText (text : String) : Except Misuse Name :=
  if h : text = "" then .error .emptyName else .ok ⟨text, h⟩

@[simp] theorem ofText_text (n : Name) : ofText n.text = .ok n := by
  simp [ofText, n.text_ne_empty]

/-- The name spelled by the character `c` and the characters `cs` after it. -/
def ofChars (c : Char) (cs : List Char) : Name where
  text := String.ofList (c :: cs)
  text_ne_empty h := by
    have := congrArg String.toList h
    simp at this

@[simp] theorem toList_ofChars (c : Char) (cs : List Char) :
    (ofChars c cs).text.toList = c :: cs := by
  simp [ofChars]

end Name

end BoolLut
