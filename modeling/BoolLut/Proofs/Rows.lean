/-
**The rows of a truth table.**

A truth table is built over a table of names, which need not be the names of the formula.  A code
*encodes* a valuation if its bits are the values of the names and every other text is false.  Then
the row of the code is true exactly when the formula is; so each row tells the truth under some
valuation, and each valuation that is false beyond the names is met with in some row.

Main definitions:

* `BoolLut.NameTable.Encodes` — a code has the values of the names as its bits.

Main results:

* `BoolLut.TruthTable.rows_of_build`, `BoolLut.TruthTable.exists_build`,
  `BoolLut.TruthTable.build_eq_error_iff` — what a truth table is, and when there is one;
* `BoolLut.TruthTable.row?_of_encodes` — the row of a code is the value of the formula under the
  valuation that it encodes;
* `BoolLut.TruthTable.row?_codeOf` — the same for the code of a valuation;
* `BoolLut.TruthTable.build_faithful` — **a truth table is complete and faithful**, whatever names
  it is built over.
-/

import BoolLut.Proofs.Codes
import BoolLut.TruthTable

set_option relaxedAutoImplicit false
set_option autoImplicit false

namespace BoolLut

/-! ### Codes and valuations -/

/-- The bits of the code are the values of the names, and every text that is no name is false. -/
structure NameTable.Encodes (t : NameTable) (value : String → Bool) (code : Nat) : Prop where
  bits : ∀ j (h : j < t.names.length), code.testBit j = value t.names[j].text
  other : ∀ text, text ∉ t.names.map Name.text → value text = false

namespace NameTable

variable {t : NameTable} {value : String → Bool} {code : Nat}

/-- What a code gives to the names is a valuation that it encodes. -/
theorem encodes_bind (t : NameTable) (code : Nat) : t.Encodes (t.bind code).value code := by
  constructor
  · intro j hj
    exact (value_bind (List.getElem?_eq_getElem hj)).symm
  · intro text htext
    exact value_bind_of_text_not_mem htext

/-- A valuation that is false beyond the names is encoded by its code. -/
theorem encodes_codeOf (h : ∀ text, text ∉ t.names.map Name.text → value text = false) :
    t.Encodes value (codeOf value t.names) := by
  constructor
  · intro j hj
    exact testBit_codeOf (List.getElem?_eq_getElem hj)
  · exact h

/-- A formula has the same value under a valuation and under what its code gives to the names. -/
theorem Encodes.eval_eq (h : t.Encodes value code) (f : Formula) :
    f.eval (t.bind code).value = f.eval value := by
  refine eval_bind ?_ ?_
  · intro j n hn
    obtain ⟨hj, rfl⟩ := List.getElem?_eq_some_iff.1 hn
    exact h.bits j hj
  · intro n _ hn
    refine h.other n.text ?_
    rw [List.mem_map]
    rintro ⟨m, hm, htext⟩
    exact hn (Name.ext htext ▸ hm)

end NameTable

/-! ### Rows -/

namespace TruthTable

variable {t : NameTable} {root : Formula} {policy : WidthPolicy} {tt : TruthTable}

theorem width_of_build (h : build t root policy = .ok tt) :
    BitWidth.ofCount t.size policy = .ok tt.width := by
  unfold build at h
  split at h
  · simp at h
  · next width hwidth =>
      rw [Except.ok.injEq] at h
      rw [hwidth, ← h]

/-- The width depends on the number of names alone. -/
theorem width_eq_of_build {u : NameTable} {other : Formula} {tt' : TruthTable}
    (hsize : t.size = u.size) (h : build t root policy = .ok tt)
    (h' : build u other policy = .ok tt') : tt.width = tt'.width := by
  have hwidths := width_of_build h
  rw [hsize, width_of_build h', Except.ok.injEq] at hwidths
  exact hwidths.symm

/-- A truth table has the value of the formula for every code, in increasing order. -/
theorem rows_of_build (h : build t root policy = .ok tt) :
    tt.rows = (List.range tt.width.rows).map fun code => root.eval (t.bind code).value := by
  unfold build at h
  split at h
  · simp at h
  · next width hwidth =>
      rw [Except.ok.injEq] at h
      rw [← h]
      simp only [NameTable.assignments, List.map_map]
      rfl

theorem exists_build (h : t.size ≤ maxNames) (root : Formula) (policy : WidthPolicy) :
    ∃ tt, build t root policy = .ok tt := by
  have hwidth : BitWidth.ofCount t.size policy = .ok ⟨_, WidthPolicy.bits_le h⟩ := dif_pos h
  exact ⟨_, by rw [build, hwidth]⟩

/-- Two formulas over tables of names of one size have the same truth table if every code gives them
the same value. -/
theorem build_congr {u : NameTable} {other : Formula} (hsize : t.size = u.size)
    (h : ∀ code, root.eval (t.bind code).value = other.eval (u.bind code).value)
    (policy : WidthPolicy) : build t root policy = build u other policy := by
  unfold build
  rw [hsize]
  cases BitWidth.ofCount u.size policy with
  | error e => rfl
  | ok width =>
      simp only [NameTable.assignments, List.map_map, Except.ok.injEq, TruthTable.mk.injEq,
        true_and]
      exact List.map_congr_left fun code _ => h code

theorem row?_of_build (h : build t root policy = .ok tt) {code : Nat}
    (hcode : code < tt.width.rows) : tt.row? code = some (root.eval (t.bind code).value) := by
  rw [row?, rows_of_build h, List.getElem?_map, List.getElem?_range hcode, Option.map_some]

/-- There is no truth table exactly when there are too many names. -/
theorem build_eq_error_iff {e : TooManyNames} :
    build t root policy = .error e ↔ maxNames < t.size ∧ e = ⟨t.size, maxNames⟩ := by
  rw [← BitWidth.ofCount_eq_error_iff, build]
  cases BitWidth.ofCount t.size policy with
  | error e' => simp
  | ok width => simp

/-- The row of a code is the value of the formula under the valuation that the code encodes. -/
theorem row?_of_encodes (h : build t root policy = .ok tt) {value : String → Bool} {code : Nat}
    (hcode : code < tt.width.rows) (hvalue : t.Encodes value code) :
    tt.row? code = some (root.eval value) := by
  rw [row?_of_build h hcode, hvalue.eval_eq]

theorem codeOf_lt_rows (h : build t root policy = .ok tt) (value : String → Bool) :
    codeOf value t.names < tt.width.rows := by
  have hlength : t.names.length ≤ tt.width.bits := by
    rw [NameTable.length_names]
    exact BitWidth.le_of_ofCount (width_of_build h)
  exact Nat.lt_of_lt_of_le (codeOf_lt value t.names) (Nat.pow_le_pow_right (by decide) hlength)

/-- The row of a valuation is the value of the formula under it, if the names that are not in the
table are false. -/
theorem row?_codeOf (h : build t root policy = .ok tt) {value : String → Bool}
    (hother : ∀ n ∈ root.leaves, n ∉ t.names → value n.text = false) :
    tt.row? (codeOf value t.names) = some (root.eval value) := by
  rw [row?_of_build h (codeOf_lt_rows h value),
    NameTable.eval_bind (fun j n hn => testBit_codeOf hn) hother]

/-- **A truth table is complete and faithful.**  There is none exactly when there are more than four
names.  Otherwise it has a row for every code of its width, the row of a code is true exactly when
the formula is true under the valuations that the code encodes, every code encodes a valuation, and
every valuation that is false beyond the names is encoded by some code. -/
theorem build_faithful (t : NameTable) (root : Formula) (policy : WidthPolicy) :
    (∀ e, build t root policy = .error e ↔
      4 < t.names.eraseDups.length ∧ e = ⟨t.size, 4⟩) ∧
    (t.names.eraseDups.length ≤ 4 → ∃ tt, build t root policy = .ok tt ∧
      BitWidth.ofCount t.size policy = .ok tt.width ∧ tt.rows.length = 2 ^ tt.width.bits ∧
      (∀ value code, t.Encodes value code → code < 2 ^ tt.width.bits →
        ∃ row, tt.row? code = some row ∧ (row = true ↔ root.Holds value)) ∧
      (∀ code, ∃ value, t.Encodes value code) ∧
      ∀ value : String → Bool, (∀ text, text ∉ t.names.map Name.text → value text = false) →
        ∃ code, code < 2 ^ tt.width.bits ∧ t.Encodes value code) := by
  rw [t.eraseDups_names, t.length_names]
  refine ⟨fun e => build_eq_error_iff, fun hsize => ?_⟩
  obtain ⟨tt, htt⟩ := exists_build hsize root policy
  refine ⟨tt, htt, width_of_build htt, tt.length_rows, ?_, ?_, ?_⟩
  · intro value code hvalue hcode
    exact ⟨_, row?_of_encodes htt hcode hvalue, Formula.eval_eq_true_iff⟩
  · intro code
    exact ⟨_, t.encodes_bind code⟩
  · intro value hother
    exact ⟨_, codeOf_lt_rows htt value, NameTable.encodes_codeOf hother⟩

/-- Over the names `c` and `a`, of which `c` was met twice, the row of `a || b` for code two is
true, since bit one belongs to `a`, and the row for code one is false, since `b` is no name. -/
theorem build_faithful_absent_name :
    let a := Name.ofChars 'a' []
    let b := Name.ofChars 'b' []
    let c := Name.ofChars 'c' []
    let t := NameTable.ofList [⟨c, 0⟩, ⟨a, 1⟩, ⟨c, 2⟩]
    t.names = [c, a] ∧ ∃ tt, build t (.binary .or (.var a) (.var b)) .snapped = .ok tt ∧
      tt.rows.length = 2 ^ tt.width.bits ∧ tt.row? 2 = some true ∧ tt.row? 1 = some false := by
  intro a b c t
  have hnames : t.names = [c, a] := by decide
  obtain ⟨-, hbuild⟩ := build_faithful t (.binary .or (.var a) (.var b)) .snapped
  obtain ⟨tt, htt, hwidth, hlength, hrow, -⟩ := hbuild (by decide)
  have hbits : tt.width.bits = 2 := BitWidth.bits_of_ofCount hwidth
  have hother : ∀ name ∈ t.names.map Name.text, ∀ text, text ∉ t.names.map Name.text →
      (text == name) = false := by
    intro name hname text htext
    rw [beq_eq_false_iff_ne]
    rintro rfl
    exact htext hname
  have htwo : t.Encodes (fun text => text == "a") 2 := ⟨by decide, hother "a" (by decide)⟩
  have hone : t.Encodes (fun text => text == "c") 1 := ⟨by decide, hother "c" (by decide)⟩
  have hrows : 2 ^ tt.width.bits = 4 := by rw [hbits]; rfl
  obtain ⟨second, hsecond, htrue⟩ := hrow _ 2 htwo (by omega)
  obtain ⟨first, hfirst, hfalse⟩ := hrow _ 1 hone (by omega)
  obtain rfl : second = true := htrue.2 (by decide)
  obtain rfl : first = false := by
    rw [← Bool.not_eq_true, hfalse]
    decide
  exact ⟨hnames, tt, htt, hlength, hsecond, hfirst⟩

end TruthTable

end BoolLut
