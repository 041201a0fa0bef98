/-
**The truth table of a compound formula.**

The truth table of a compound formula can be computed from those of its parts, although each of
them has its own names in its own order, and its own width.  The names of the left side come first
and keep their places; behind them come those names of the right side that are new.  A code of the
whole is *restricted* to the names of a part by taking the bits of these names, in the order in
which the part has them.  The value of the part is the row of the restricted code, and the row of
the whole is the connective between the two values.  For the left side restricting is cutting off
the bits behind its names.  A negation has the names of its operand and every row turned round.

Main definitions:

* `BoolLut.NameTable.restrict` — the code over the names of a part that comes from a code over
  those of the whole;
* `BoolLut.NameTable.Gathers` — what the bits of such a code are.

Main results:

* `BoolLut.Formula.names_nameTable_binary` — the names of a compound formula;
* `BoolLut.NameTable.gathers_restrict`, `BoolLut.NameTable.Gathers.unique`,
  `BoolLut.NameTable.restrict_eq_mod` — the bits of a restricted code, which are all there is to
  it;
* `BoolLut.TruthTable.row?_restrict` — the row of a restricted code is the value of the part;
* `BoolLut.TruthTable.build_of_parts` — **the truth table is computed from those of the parts**.
-/

import Mathlib.Data.List.Perm.Subperm
import BoolLut.Proofs.Multimap
import BoolLut.Proofs.Rows

set_option relaxedAutoImplicit false
set_option autoImplicit false

namespace BoolLut

/-! ### The names of a compound formula -/

private theorem eraseDups_filter (p : Name → Bool) (names : List Name) :
    (names.filter p).eraseDups = names.eraseDups.filter p := by
  induction names using List.reverseRecOn with
  | nil => rfl
  | append_singleton names n ih =>
      rw [List.filter_append, eraseDups_concat]
      by_cases hn : p n = true
      · rw [List.filter_cons_of_pos hn, List.filter_nil, eraseDups_concat, ih]
        by_cases hmem : n ∈ names
        · rw [if_pos hmem, if_pos (List.mem_filter.2 ⟨hmem, hn⟩)]
        · rw [if_neg hmem, if_neg fun h => hmem (List.mem_filter.1 h).1, List.filter_append,
            List.filter_cons_of_pos hn, List.filter_nil]
      · rw [List.filter_cons_of_neg hn, List.filter_nil, List.append_nil, ih]
        split
        · rfl
        · rw [List.filter_append, List.filter_cons_of_neg hn, List.filter_nil, List.append_nil]

namespace Formula

/-- The names of the left side come first, and then those of the right side that are new. -/
theorem names_nameTable_binary (op : Connective) (l r : Formula) :
    (binary op l r).nameTable.names =
      l.nameTable.names ++ r.nameTable.names.filter fun n => n ∉ l.nameTable.names := by
  rw [names_nameTable, names_nameTable, names_nameTable, leaves_binary, List.eraseDups_append,
    ← eraseDups_filter]
  congr 2
  refine List.filter_congr fun n _ => ?_
  simp

theorem nameTable_not (f : Formula) : (not f).nameTable = f.nameTable := rfl

theorem size_nameTable_lhs_le (op : Connective) (l r : Formula) :
    l.nameTable.size ≤ (binary op l r).nameTable.size := by
  rw [← NameTable.length_names, ← NameTable.length_names, names_nameTable_binary,
    List.length_append]
  exact Nat.le_add_right _ _

theorem names_rhs_subset (op : Connective) (l r : Formula) :
    r.nameTable.names ⊆ (binary op l r).nameTable.names := by
  intro n hn
  rw [mem_names_nameTable] at hn ⊢
  exact List.mem_append_right _ hn

theorem size_nameTable_rhs_le (op : Connective) (l r : Formula) :
    r.nameTable.size ≤ (binary op l r).nameTable.size := by
  rw [← NameTable.length_names, ← NameTable.length_names]
  exact (List.subperm_of_subset r.nameTable.names_nodup (names_rhs_subset op l r)).length_le

end Formula

/-! ### Codes of a part -/

namespace NameTable

/-- The code that gives the names of `u` the values that `code` gives them as names of `t`. -/
def restrict (t u : NameTable) (code : Nat) : Nat := codeOf (t.bind code).value u.names

theorem restrict_lt (t u : NameTable) (code : Nat) : t.restrict u code < 2 ^ u.size := by
  rw [← length_names]
  exact codeOf_lt _ _

/-- `gathered` has the bits of `code`, which belong to the places of names in `t`, at the places
of these names in `u`, and no others. -/
structure Gathers (t u : NameTable) (code gathered : Nat) : Prop where
  lt : gathered < 2 ^ u.size
  /-- The bit of a name goes with the name. -/
  bit : ∀ i n, u.names[i]? = some n →
    ∃ j, t.position? n.text = some j ∧ gathered.testBit i = code.testBit j

/-- The bit of a name is taken from the place that the name has in the whole. -/
theorem testBit_restrict {t u : NameTable} {i j : Nat} {n : Name} (hi : u.names[i]? = some n)
    (hj : t.names[j]? = some n) (code : Nat) :
    (t.restrict u code).testBit i = code.testBit j := by
  rw [restrict, testBit_codeOf hi, value_bind hj]

/-- A restricted code has the bits of the names of the part. -/
theorem gathers_restrict {t u : NameTable} (h : u.names ⊆ t.names) (code : Nat) :
    t.Gathers u code (t.restrict u code) := by
  refine ⟨t.restrict_lt u code, fun i n hi => ?_⟩
  obtain ⟨j, hj⟩ := List.mem_iff_getElem?.1 (h (List.mem_of_getElem? hi))
  exact ⟨j, position?_eq_some_iff.2 ⟨n, hj, rfl⟩, testBit_restrict hi hj code⟩

/-- There is only one such code. -/
theorem Gathers.unique {t u : NameTable} {code gathered gathered' : Nat}
    (h : t.Gathers u code gathered) (h' : t.Gathers u code gathered') : gathered = gathered' := by
  refine Nat.eq_of_testBit_eq fun i => ?_
  rcases Nat.lt_or_ge i u.names.length with hi | hi
  · obtain ⟨j, hj, hbit⟩ := h.bit i _ (List.getElem?_eq_getElem hi)
    obtain ⟨j', hj', hbit'⟩ := h'.bit i _ (List.getElem?_eq_getElem hi)
    rw [hj, Option.some.injEq] at hj'
    rw [hbit, hbit', hj']
  · rw [length_names] at hi
    have hle : 2 ^ u.size ≤ 2 ^ i := Nat.pow_le_pow_right (by decide) hi
    rw [Nat.testBit_lt_two_pow (h.lt.trans_le hle), Nat.testBit_lt_two_pow (h'.lt.trans_le hle)]

/-- If the names of the part come first, their bits are those in front. -/
theorem gathers_mod {t u : NameTable} (h : u.names <+: t.names) (code : Nat) :
    t.Gathers u code (code % 2 ^ u.size) := by
  refine ⟨Nat.mod_lt code (Nat.two_pow_pos u.size), fun i n hi => ⟨i, ?_, ?_⟩⟩
  · obtain ⟨more, hmore⟩ := h
    refine position?_eq_some_iff.2 ⟨n, ?_, rfl⟩
    rw [← hmore, List.getElem?_append_left (List.getElem?_eq_some_iff.1 hi).1, hi]
  · have hlt : i < u.size := u.length_names ▸ (List.getElem?_eq_some_iff.1 hi).1
    rw [Nat.testBit_mod_two_pow, decide_eq_true hlt, Bool.true_and]

/-- So restricting a code to the names in front cuts off the bits behind them. -/
theorem restrict_eq_mod {t u : NameTable} (h : u.names <+: t.names) (code : Nat) :
    t.restrict u code = code % 2 ^ u.size :=
  (gathers_restrict h.subset code).unique (gathers_mod h code)

end NameTable

/-! ### Rows -/

namespace TruthTable

variable {f : Formula} {policy : WidthPolicy} {x : TruthTable}

/-- The row of a restricted code is the value that the code gives to the part. -/
theorem row?_restrict (hx : build f.nameTable f policy = .ok x) (t : NameTable) (code : Nat) :
    x.row? (t.restrict f.nameTable code) = some (f.eval (t.bind code).value) :=
  row?_codeOf hx fun _ hn hnot => absurd (Formula.mem_names_nameTable.2 hn) hnot

/-- The truth table of a negation has every row turned round. -/
theorem exists_build_not (h : f.nameTable.size ≤ maxNames) (policy : WidthPolicy) :
    ∃ x y, build f.nameTable f policy = .ok x ∧
      build (Formula.not f).nameTable (.not f) policy = .ok y ∧ y.width = x.width ∧
      y.rows = x.rows.map (! ·) := by
  rw [Formula.nameTable_not]
  obtain ⟨x, hx⟩ := exists_build h f policy
  obtain ⟨y, hy⟩ := exists_build h (.not f) policy
  have hwidth : y.width = x.width := width_eq_of_build rfl hy hx
  refine ⟨x, y, hx, hy, hwidth, ?_⟩
  rw [rows_of_build hx, rows_of_build hy, hwidth, List.map_map]
  rfl

/-- **The truth table is computed from those of the parts.**  The names of a connective between two
formulas are those of the left side and then those of the right side that are new.  If there are at
most four, the row of a code is the connective between the row of the left side for the code without
the bits behind its names, and the row of the right side for the code that has, at the place of each
of its names there, the bit of this name.  A negation has the width of its operand, and every row of
it turned round. -/
theorem build_of_parts :
    (∀ (op : Connective) (l r : Formula), (Formula.binary op l r).nameTable.names =
      l.nameTable.names ++ r.nameTable.names.filter fun n => n ∉ l.nameTable.names) ∧
    (∀ (op : Connective) (l r : Formula) (policy : WidthPolicy),
      (Formula.binary op l r).leaves.eraseDups.length ≤ 4 → ∃ x y z,
        build l.nameTable l policy = .ok x ∧ build r.nameTable r policy = .ok y ∧
        build (Formula.binary op l r).nameTable (.binary op l r) policy = .ok z ∧
        ∀ code, code < 2 ^ z.width.bits → ∃ gathered u v,
          (Formula.binary op l r).nameTable.Gathers r.nameTable code gathered ∧
          x.row? (code % 2 ^ l.nameTable.size) = some u ∧ y.row? gathered = some v ∧
          z.row? code = some (op.apply u v)) ∧
    ∀ (f : Formula) (policy : WidthPolicy), f.leaves.eraseDups.length ≤ 4 → ∃ x y,
      build f.nameTable f policy = .ok x ∧
      build (Formula.not f).nameTable (.not f) policy = .ok y ∧ y.width = x.width ∧
      y.rows = x.rows.map (! ·) := by
  refine ⟨Formula.names_nameTable_binary, ?_, ?_⟩
  · intro op l r policy hnames
    set t := (Formula.binary op l r).nameTable with ht
    rw [← Formula.size_nameTable, ← ht] at hnames
    obtain ⟨x, hx⟩ := exists_build ((Formula.size_nameTable_lhs_le op l r).trans hnames) l policy
    obtain ⟨y, hy⟩ := exists_build ((Formula.size_nameTable_rhs_le op l r).trans hnames) r policy
    obtain ⟨z, hz⟩ := exists_build hnames (.binary op l r) policy
    refine ⟨x, y, z, hx, hy, hz, fun code hcode => ?_⟩
    have hprefix : l.nameTable.names <+: t.names :=
      ⟨_, (Formula.names_nameTable_binary op l r).symm⟩
    have hgathers := NameTable.gathers_restrict (Formula.names_rhs_subset op l r) code
    refine ⟨_, _, _, hgathers, ?_, row?_restrict hy t code, row?_of_build hz hcode⟩
    rw [← NameTable.restrict_eq_mod hprefix]
    exact row?_restrict hx t code
  · intro f policy hnames
    rw [← Formula.size_nameTable] at hnames
    exact exists_build_not hnames policy

/-- In `(a && !b) && (c != b)` the names of the right side are `c` and `b`, at the places two and
one of the whole, so code five is code one for either side. -/
theorem build_of_parts_shared_name :
    let a := Name.ofChars 'a' []
    let b := Name.ofChars 'b' []
    let c := Name.ofChars 'c' []
    let l := Formula.binary .and (.var a) (.not (.var b))
    let r := Formula.binary .xor (.var c) (.var b)
    let f := Formula.binary .and l r
    f.nameTable.names = [a, b, c] ∧
    (∃ x y z, build l.nameTable l .snapped = .ok x ∧ build r.nameTable r .snapped = .ok y ∧
      build f.nameTable f .snapped = .ok z ∧ x.row? 1 = some true ∧ y.row? 1 = some true ∧
      z.row? 5 = some true) ∧
    ∃ x y, build r.nameTable r .exact = .ok x ∧
      build (Formula.not r).nameTable (.not r) .exact = .ok y ∧ y.rows = x.rows.map (! ·) := by
  intro a b c l r f
  obtain ⟨hnames, hparts, hnot⟩ := build_of_parts
  refine ⟨(hnames .and l r).trans (by decide), ?_, ?_⟩
  · obtain ⟨x, y, z, hx, hy, hz, hrows⟩ := hparts .and l r .snapped (by decide)
    have hbits : z.width.bits = 4 := BitWidth.bits_of_ofCount (width_of_build hz)
    obtain ⟨gathered, u, v, hgathers, hu, hv, hrow⟩ := hrows 5 (by rw [hbits]; decide)
    have hsubset := Formula.names_rhs_subset .and l r
    have hrestrict : f.nameTable.restrict r.nameTable 5 = 1 := by decide
    obtain rfl : gathered = 1 :=
      (hgathers.unique (NameTable.gathers_restrict hsubset 5)).trans hrestrict
    have hcut : 5 % 2 ^ l.nameTable.size = 1 := by decide
    have hleft : x.row? 1 = some true := by
      rw [← hcut, ← NameTable.restrict_eq_mod ⟨_, (hnames .and l r).symm⟩, row?_restrict hx]
      decide
    have hright : y.row? 1 = some true := by
      rw [← hrestrict, row?_restrict hy]
      decide
    rw [hcut, hleft, Option.some.injEq] at hu
    rw [hright, Option.some.injEq] at hv
    rw [← hu, ← hv] at hrow
    exact ⟨x, y, z, hx, hy, hz, hleft, hright, hrow⟩
  · obtain ⟨x, y, hx, hy, -, hrows⟩ := hnot r .exact (by decide)
    exact ⟨x, y, hx, hy, hrows⟩

end TruthTable

end BoolLut
