/-
**Formulas with one truth table.**

A truth table has finitely many rows, while there are infinitely many bindings: they may leave out
names of the formula, which then count as false, and give values to texts that are no names of it.
Over a table with all names of a formula this makes no difference, since every binding agrees on
those names with the code that has its values as bits, and that code has a row.  So two formulas
have the same truth table exactly if no binding tells them apart, and the truth table can stand for
the function that a formula describes.

Main results:

* `BoolLut.TruthTable.row?_codeOf_bindings` — the row in which the value of a formula under any
  bindings is found;
* `BoolLut.TruthTable.build_eq_build_iff` — **the truth table is a canonical form**.
-/

import BoolLut.Proofs.Rows

set_option relaxedAutoImplicit false
set_option autoImplicit false

namespace BoolLut

namespace TruthTable

variable {t : NameTable} {policy : WidthPolicy} {tt : TruthTable} {f g : Formula}

/-- If the table has all names of a formula, its value under any bindings is the row of their
code. -/
theorem row?_codeOf_bindings (h : build t f policy = .ok tt) (hf : ∀ n ∈ f.leaves, n ∈ t.names)
    (b : Bindings) : tt.row? (codeOf b.value t.names) = some (f.eval b.value) :=
  row?_codeOf h fun n hn hnot => absurd (hf n hn) hnot

/-- **The truth table is a canonical form.**  Over a table with at most four names, among them all
names of two formulas, the formulas have the same truth table exactly if they have the same value
under all bindings. -/
theorem build_eq_build_iff (hsize : t.size ≤ 4) (hf : ∀ n ∈ f.leaves, n ∈ t.names)
    (hg : ∀ n ∈ g.leaves, n ∈ t.names) (policy : WidthPolicy) :
    build t f policy = build t g policy ↔ ∀ b : Bindings, f.eval b.value = g.eval b.value := by
  constructor
  · intro heq b
    obtain ⟨tt, htt⟩ := exists_build hsize f policy
    have hrow := row?_codeOf_bindings htt hf b
    rw [row?_codeOf_bindings (heq ▸ htt) hg b, Option.some.injEq] at hrow
    exact hrow.symm
  · intro heval
    exact build_congr rfl (fun code => heval (t.bind code)) policy

/-- Over the names `b` and `a` the formulas `!(a && b)` and `!a || !b` have the same truth table,
and so they have the same value under all bindings, also under those that leave out `b` or bind
`c`. -/
theorem build_eq_build_de_morgan :
    let a := Name.ofChars 'a' []
    let b := Name.ofChars 'b' []
    let t := NameTable.ofList [⟨b, 0⟩, ⟨a, 1⟩, ⟨b, 2⟩]
    let f := Formula.not (.binary .and (.var a) (.var b))
    let g := Formula.binary .or (.not (.var a)) (.not (.var b))
    build t f .snapped = build t g .snapped ∧
      ∀ bindings : Bindings, f.eval bindings.value = g.eval bindings.value := by
  intro a b t f g
  have htables : build t f .snapped = build t g .snapped := by decide
  exact ⟨htables, (build_eq_build_iff (by decide) (by decide) (by decide) .snapped).1 htables⟩

end TruthTable

end BoolLut
