/-
**How a formula is written out.**

There are two forms.  With *symbols*, every connective stands between its two sides inside
parentheses and `!` stands directly before its operand, so the text shows the whole tree.  With
*placeholders*, the word `op` stands for every operator, whichever it is.

Main definitions:

* `BoolLut.TreeStyle` — the two forms;
* `BoolLut.Formula.symbols`, `BoolLut.Formula.placeholders` — a formula in each of them;
* `BoolLut.Formula.render` — a formula in the chosen form.
-/

import BoolLut.Formula.Basic

set_option relaxedAutoImplicit false
set_option autoImplicit false

namespace BoolLut

/-- How a tree is written on one line. -/
inductive TreeStyle where
  /-- The word `op` stands for every operator. -/
  | placeholders
  /-- Every operator is written with its own symbol. -/
  | symbols
deriving DecidableEq, Repr

/-- Trees are written with placeholders unless symbols are asked for. -/
def TreeStyle.default : TreeStyle := placeholders

instance : Inhabited TreeStyle := ⟨.default⟩

namespace Formula

/-- A formula with its operators written as symbols. -/
def symbols : Formula → String
  | var name => name.text
  | not operand => notSymbol ++ operand.symbols
  | binary op lhs rhs => "(" ++ lhs.symbols ++ " " ++ op.symbol ++ " " ++ rhs.symbols ++ ")"

@[simp] theorem symbols_var (name : Name) : (var name).symbols = name.text := rfl

@[simp] theorem symbols_not (operand : Formula) :
    (not operand).symbols = notSymbol ++ operand.symbols := rfl

@[simp] theorem symbols_binary (op : Connective) (lhs rhs : Formula) :
    (binary op lhs rhs).symbols =
      "(" ++ lhs.symbols ++ " " ++ op.symbol ++ " " ++ rhs.symbols ++ ")" := rfl

/-- A formula with the word `op` for every operator. -/
def placeholders : Formula → String
  | var name => name.text
  | not operand => "op " ++ operand.placeholders
  | binary _ lhs rhs => "(" ++ lhs.placeholders ++ " op " ++ rhs.placeholders ++ ")"

@[simp] theorem placeholders_var (name : Name) : (var name).placeholders = name.text := rfl

@[simp] theorem placeholders_not (operand : Formula) :
    (not operand).placeholders = "op " ++ operand.placeholders := rfl

@[simp] theorem placeholders_binary (op : Connective) (lhs rhs : Formula) :
    (binary op lhs rhs).placeholders =
      "(" ++ lhs.placeholders ++ " op " ++ rhs.placeholders ++ ")" := rfl

/-- A formula in the chosen form. -/
def render (style : TreeStyle) (f : Formula) : String :=
  match style with
  | .placeholders => f.placeholders
  | .symbols => f.symbols

@[simp] theorem render_placeholders (f : Formula) : f.render .placeholders = f.placeholders := rfl

@[simp] theorem render_symbols (f : Formula) : f.render .symbols = f.symbols := rfl

end Formula

end BoolLut
