/-
**Boolean formulas.**

A formula is a tree: variables at the leaves, `!` over one formula, and one of four connectives
between two.  The same name may stand at many leaves; each leaf is then an *occurrence* of the one
variable, and the occurrences of a formula are numbered from left to right.

Main definitions:

* `BoolLut.Connective` — `==`, `!=`, `&&` and `||`, with `BoolLut.Connective.symbol` and
  `BoolLut.Connective.apply`;
* `BoolLut.Formula` — the trees;
* `BoolLut.Formula.depth`, `BoolLut.Formula.size` — the longest way down, and the number of nodes;
* `BoolLut.Formula.leaves` — the names at the leaves, from left to right;
* `BoolLut.Formula.occurrences` — the same leaves with their numbers.

Main results:

* `BoolLut.Formula.depth_lt_size` — a formula is less deep than it is large.
-/

import BoolLut.Name

set_option relaxedAutoImplicit false
set_option autoImplicit false

namespace BoolLut

/-! ### Connectives -/

/-- What joins two formulas. -/
inductive Connective where
  /-- Both sides have the same value. -/
  | iff
  /-- The sides have different values. -/
  | xor
  /-- Both sides hold. -/
  | and
  /-- At least one side holds. -/
  | or
deriving DecidableEq, Repr

namespace Connective

/-- How a connective is written. -/
def symbol : Connective → String
  | iff => "=="
  | xor => "!="
  | and => "&&"
  | or => "||"

/-- The value of a connective between two values. -/
def apply : Connective → Bool → Bool → Bool
  | iff, x, y => x == y
  | xor, x, y => x != y
  | and, x, y => x && y
  | or, x, y => x || y

@[simp] theorem apply_iff (x y : Bool) : iff.apply x y = (x == y) := rfl

@[simp] theorem apply_xor (x y : Bool) : xor.apply x y = (x != y) := rfl

@[simp] theorem apply_and (x y : Bool) : and.apply x y = (x && y) := rfl

@[simp] theorem apply_or (x y : Bool) : or.apply x y = (x || y) := rfl

/-- Every connective may have its sides exchanged. -/
theorem apply_comm (op : Connective) (x y : Bool) : op.apply x y = op.apply y x := by
  cases op <;> cases x <;> cases y <;> rfl

end Connective

/-! ### Formulas -/

/-- A Boolean formula. -/
inductive Formula where
  /-- A variable. -/
  | var (name : Name)
  /-- The opposite of a formula. -/
  | not (operand : Formula)
  /-- Two formulas joined by a connective. -/
  | binary (op : Connective) (lhs rhs : Formula)
deriving DecidableEq

namespace Formula

/-- How negation is written. -/
def notSymbol : String := "!"

/-- The number of steps from the root to the farthest leaf. -/
def depth : Formula → Nat
  | var _ => 0
  | not operand => 1 + operand.depth
  | binary _ lhs rhs => 1 + max lhs.depth rhs.depth

@[simp] theorem depth_var (name : Name) : (var name).depth = 0 := rfl

@[simp] theorem depth_not (operand : Formula) : (not operand).depth = 1 + operand.depth := rfl

@[simp] theorem depth_binary (op : Connective) (lhs rhs : Formula) :
    (binary op lhs rhs).depth = 1 + max lhs.depth rhs.depth := rfl

/-- The number of nodes. -/
def size : Formula → Nat
  | var _ => 1
  | not operand => 1 + operand.size
  | binary _ lhs rhs => 1 + lhs.size + rhs.size

@[simp] theorem size_var (name : Name) : (var name).size = 1 := rfl

@[simp] theorem size_not (operand : Formula) : (not operand).size = 1 + operand.size := rfl

@[simp] theorem size_binary (op : Connective) (lhs rhs : Formula) :
    (binary op lhs rhs).size = 1 + lhs.size + rhs.size := rfl

/-- A formula is less deep than it is large. -/
theorem depth_lt_size (f : Formula) : f.depth < f.size := by
  induction f with
  | var name => simp
  | not operand ih => simp only [depth_not, size_not]; omega
  | binary op lhs rhs ihl ihr => simp only [depth_binary, size_binary]; omega

/-! ### Leaves and occurrences -/

/-- The names at the leaves, from left to right. -/
def leaves : Formula → List Name
  | var name => [name]
  | not operand => operand.leaves
  | binary _ lhs rhs => lhs.leaves ++ rhs.leaves

@[simp] theorem leaves_var (name : Name) : (var name).leaves = [name] := rfl

@[simp] theorem leaves_not (operand : Formula) : (not operand).leaves = operand.leaves := rfl

@[simp] theorem leaves_binary (op : Connective) (lhs rhs : Formula) :
    (binary op lhs rhs).leaves = lhs.leaves ++ rhs.leaves := rfl

end Formula

/-- One leaf of a formula: the name that stands there and the number of the leaf. -/
structure Occurrence where
  /-- The name at the leaf. -/
  name : Name
  /-- How many leaves stand to the left of this one. -/
  site : Nat
deriving DecidableEq

namespace Formula

/-- The leaves of a formula with their numbers, from left to right. -/
def occurrences (f : Formula) : List Occurrence :=
  f.leaves.mapIdx fun site name => ⟨name, site⟩

@[simp] theorem length_occurrences (f : Formula) :
    f.occurrences.length = f.leaves.length := by
  simp [occurrences]

@[simp] theorem map_name_occurrences (f : Formula) :
    f.occurrences.map Occurrence.name = f.leaves := by
  refine List.ext_getElem (by simp) ?_
  intro i h₁ h₂
  simp [occurrences]

end Formula

end BoolLut
