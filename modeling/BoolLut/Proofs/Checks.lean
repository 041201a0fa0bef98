/-
**Steps that need a condition.**

Some steps of a run can be taken only under a condition: a name needs a character, a number that is
zero cannot be lowered, an entry of a list must be there to be changed, and a word of 32 bits has 32
places and a largest value.  A *checked* function asks for the condition before every such step and
gives up where it fails, so that one that never gives up takes no step without its condition.

Main definitions:

* `BoolLut.Checked.Breach` — the conditions that may fail;
* `BoolLut.Checked.require` — asking for a condition;
* `BoolLut.Checked.Step` — a result, or a refusal of the text, or a condition that failed.
-/

import BoolLut.ParseError

set_option relaxedAutoImplicit false
set_option autoImplicit false

namespace BoolLut

namespace Checked

/-- The condition of a step that failed. -/
inductive Breach where
  /-- A name has a character. -/
  | emptyName
  /-- Fewer signs are closed than opened. -/
  | depthBelowZero
  /-- No more signs are open than may be. -/
  | depthAboveLimit
  /-- Signs are not opened one inside the other more often than is provided for. -/
  | nestingAboveLimit
  /-- Each round of a loop takes a token. -/
  | noProgress
  /-- An entry that is to be changed is there. -/
  | noEntry
  /-- A word is shifted by less than its length. -/
  | shiftTooFar
  /-- A code is less than the largest word. -/
  | codeTooLarge
  /-- No more codes were taken than there are. -/
  | countBelowZero
deriving DecidableEq, Repr

/-- Asks for a condition. -/
def require (p : Prop) [Decidable p] (breach : Breach) : Except Breach Unit :=
  if p then .ok () else .error breach

theorem require_eq_ok {p : Prop} [Decidable p] (h : p) (breach : Breach) :
    require p breach = .ok () := if_pos h

/-- A result of reading a text: a value, or the refusal of the text, unless a condition fails. -/
abbrev Step (α : Type) := ExceptT ParseError (Except Breach) α

/-- A condition that failed. -/
def giveUp {α : Type} (breach : Breach) : Step α := ExceptT.mk (.error breach)

/-- Asks for a condition while a text is read. -/
def demand (p : Prop) [Decidable p] (breach : Breach) : Step Unit := ExceptT.lift (require p breach)

theorem demand_eq_pure {p : Prop} [Decidable p] (h : p) (breach : Breach) :
    demand p breach = pure () := by
  rw [demand, require_eq_ok h]
  rfl

theorem throw_bind {α β : Type} (e : ParseError) (f : α → Step β) :
    (throw e : Step α) >>= f = throw e := rfl

end Checked

end BoolLut
