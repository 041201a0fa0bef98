/-
**The value of a formula.**

A valuation gives every text a truth value, and with it every formula has one: a variable has the
value of its name, `!` turns a value round, and a connective joins two.  Only the names at the
leaves of a formula are ever looked up.

What it means that a formula is true is another matter.  It is said in the words of logic, without
any truth table of a connective, and a formula has the value true exactly when it is true.

Main definitions:

* `BoolLut.Formula.eval` — the value of a formula under a valuation;
* `BoolLut.Connective.Joins` — the statement that a connective makes of two statements;
* `BoolLut.Formula.Holds` — a formula is true under a valuation.

Main results:

* `BoolLut.Formula.eval_congr` — two valuations that agree on the names of a formula give it the
  same value;
* `BoolLut.Formula.eval_eq_true_iff` — **values tell the truth**: a formula has the value true
  exactly when it is true.
-/

import BoolLut.Formula.Basic

set_option relaxedAutoImplicit false
set_option autoImplicit false

namespace BoolLut

namespace Formula

/-- The value of a formula when each name has the value that `value` gives its text. -/
def eval (value : String → Bool) : Formula → Bool
  | var name => value name.text
  | not operand => !operand.eval value
  | binary op lhs rhs => op.apply (lhs.eval value) (rhs.eval value)

@[simp] theorem eval_var (value : String → Bool) (name : Name) :
    (var name).eval value = value name.text := rfl

@[simp] theorem eval_not (value : String → Bool) (operand : Formula) :
    (not operand).eval value = !operand.eval value := rfl

@[simp] theorem eval_binary (value : String → Bool) (op : Connective) (lhs rhs : Formula) :
    (binary op lhs rhs).eval value = op.apply (lhs.eval value) (rhs.eval value) := rfl

/-- Only the names at the leaves matter. -/
theorem eval_congr {f : Formula} {u v : String → Bool}
    (h : ∀ name ∈ f.leaves, u name.text = v name.text) : f.eval u = f.eval v := by
  induction f with
  | var name => exact h name (by simp)
  | not operand ih => simp only [eval_not, ih h]
  | binary op lhs rhs ihl ihr =>
      simp only [eval_binary]
      rw [ihl fun name hn => h name (by simp [hn]), ihr fun name hn => h name (by simp [hn])]

end Formula

/-! ### Truth -/

namespace Connective

/-- The statement that a connective makes of two statements. -/
def Joins : Connective → Prop → Prop → Prop
  | iff, p, q => p ↔ q
  | xor, p, q => ¬ (p ↔ q)
  | and, p, q => p ∧ q
  | or, p, q => p ∨ q

instance decidableJoins (op : Connective) (p q : Prop) [Decidable p] [Decidable q] :
    Decidable (op.Joins p q) :=
  match op with
  | iff => inferInstanceAs (Decidable (p ↔ q))
  | xor => inferInstanceAs (Decidable (¬ (p ↔ q)))
  | and => inferInstanceAs (Decidable (p ∧ q))
  | or => inferInstanceAs (Decidable (p ∨ q))

/-- The value of a connective between two values is true when its statement about them is. -/
theorem apply_eq_true_iff (op : Connective) (x y : Bool) :
    op.apply x y = true ↔ op.Joins (x = true) (y = true) := by
  cases op with
  | iff =>
      rw [apply_iff, beq_iff_eq]
      exact Bool.eq_iff_iff
  | xor =>
      rw [apply_xor, bne_iff_ne, ne_eq, Bool.eq_iff_iff]
      exact Iff.rfl
  | and => exact Bool.and_eq_true_iff
  | or => exact Bool.or_eq_true_iff

end Connective

namespace Formula

/-- A formula is true when each name has the value that `value` gives its text. -/
def Holds (value : String → Bool) : Formula → Prop
  | var name => value name.text = true
  | not operand => ¬ operand.Holds value
  | binary op lhs rhs => op.Joins (lhs.Holds value) (rhs.Holds value)

instance decidableHolds (value : String → Bool) : (f : Formula) → Decidable (f.Holds value)
  | var name => inferInstanceAs (Decidable (value name.text = true))
  | not operand =>
      have := decidableHolds value operand
      inferInstanceAs (Decidable (¬ operand.Holds value))
  | binary op lhs rhs =>
      have := decidableHolds value lhs
      have := decidableHolds value rhs
      inferInstanceAs (Decidable (op.Joins (lhs.Holds value) (rhs.Holds value)))

/-- A formula has the value true exactly when it is true. -/
theorem eval_eq_true_iff {f : Formula} {value : String → Bool} :
    f.eval value = true ↔ f.Holds value := by
  induction f with
  | var name => exact Iff.rfl
  | not operand ih => rw [eval_not, Bool.not_eq_true', ← Bool.not_eq_true, ih, Holds]
  | binary op lhs rhs ihl ihr => rw [eval_binary, op.apply_eq_true_iff, ihl, ihr, Holds]

end Formula

end BoolLut
