/-
**Bits that do not matter.**

A row depends only on those bits of its code that belong to names of the formula.  So a bit beyond
the last name may be flipped, and so may the bit of a name that the formula does not use.  Widths
that are snapped differ from exact ones in bits beyond the last name only, and a table of snapped
width is therefore the one of exact width over and over again.

Main results:

* `BoolLut.NameTable.eval_bind_congr` — codes that agree on the bits of the names of a formula give
  it the same value;
* `BoolLut.TruthTable.row?_xor` — a bit that belongs to no name of the formula may be flipped;
* `BoolLut.TruthTable.row?_snapped`, `BoolLut.TruthTable.rows_snapped` — the rows of a table of
  snapped width are those of the table of exact width;
* `BoolLut.TruthTable.snapped_repeats_exact` — **both policies describe the same function**.
-/

import BoolLut.Proofs.Rows

set_option relaxedAutoImplicit false
set_option autoImplicit false

namespace BoolLut

variable {t : NameTable} {root : Formula}

/-! ### Which bits a row depends on -/

/-- Codes that agree on the bits of the names of a formula give it the same value. -/
theorem NameTable.eval_bind_congr {code code' : Nat}
    (h : ∀ j n, t.names[j]? = some n → n ∈ root.leaves → code.testBit j = code'.testBit j) :
    root.eval (t.bind code).value = root.eval (t.bind code').value := by
  refine Formula.eval_congr ?_
  intro n hn
  by_cases hmem : n ∈ t.names
  · obtain ⟨j, hj⟩ := List.mem_iff_getElem?.1 hmem
    rw [value_bind hj, value_bind hj, h j n hj hn]
  · rw [value_bind_of_not_mem hmem, value_bind_of_not_mem hmem]

/-- Bit `j` of a code belongs to no name of the formula: it lies beyond the last name of the table,
or its name is not used. -/
def NameTable.Idle (t : NameTable) (root : Formula) (j : Nat) : Prop :=
  t.size ≤ j ∨ ∃ n, t.names[j]? = some n ∧ n ∉ root.leaves

theorem NameTable.Idle.not_mem {j : Nat} {n : Name} (h : t.Idle root j)
    (hn : t.names[j]? = some n) : n ∉ root.leaves := by
  rcases h with hsize | ⟨m, hm, hleaves⟩
  · obtain ⟨hj, -⟩ := List.getElem?_eq_some_iff.1 hn
    rw [length_names] at hj
    omega
  · rw [hn, Option.some.injEq] at hm
    exact hm ▸ hleaves

namespace TruthTable

variable {policy : WidthPolicy} {tt s x : TruthTable}

/-- An idle bit may be flipped. -/
theorem row?_xor (h : build t root policy = .ok tt) {code j : Nat} (hcode : code < tt.width.rows)
    (hj : j < tt.width.bits) (hidle : t.Idle root j) :
    tt.row? (code ^^^ 2 ^ j) = tt.row? code := by
  have hflip : code ^^^ 2 ^ j < tt.width.rows :=
    Nat.xor_lt_two_pow hcode (Nat.pow_lt_pow_right (by decide) hj)
  rw [row?_of_build h hcode, row?_of_build h hflip]
  congr 1
  refine NameTable.eval_bind_congr ?_
  intro i n hn hleaves
  have hne : j ≠ i := by
    rintro rfl
    exact hidle.not_mem hn hleaves
  rw [Nat.testBit_xor, Nat.testBit_two_pow_of_ne hne, Bool.xor_false]

/-! ### The two policies -/

/-- Both policies refuse the same tables, and with the same refusal. -/
theorem build_eq_error_iff_of_policy {e : TooManyNames} (policy policy' : WidthPolicy) :
    build t root policy = .error e ↔ build t root policy' = .error e := by
  rw [build_eq_error_iff, build_eq_error_iff]

theorem bits_of_exact (hx : build t root .exact = .ok x) : x.width.bits = t.size :=
  BitWidth.bits_of_ofCount (width_of_build hx)

theorem rows_of_exact (hx : build t root .exact = .ok x) : x.width.rows = 2 ^ t.size := by
  rw [← bits_of_exact hx]
  rfl

/-- The bits beyond the last name may be cut off. -/
theorem eval_bind_mod (t : NameTable) (root : Formula) (code : Nat) :
    root.eval (t.bind code).value = root.eval (t.bind (code % 2 ^ t.size)).value := by
  refine NameTable.eval_bind_congr ?_
  intro j n hn _
  obtain ⟨hj, -⟩ := List.getElem?_eq_some_iff.1 hn
  rw [NameTable.length_names] at hj
  rw [Nat.testBit_mod_two_pow, decide_eq_true hj, Bool.true_and]

/-- A row of snapped width is the row of exact width without the bits beyond the last name. -/
theorem row?_snapped (hs : build t root .snapped = .ok s) (hx : build t root .exact = .ok x)
    {code : Nat} (hcode : code < s.width.rows) :
    s.row? code = x.row? (code % 2 ^ t.size) := by
  have hmod : code % 2 ^ t.size < x.width.rows := by
    rw [rows_of_exact hx]
    exact Nat.mod_lt code (Nat.two_pow_pos t.size)
  rw [row?_of_build hs hcode, row?_of_build hx hmod, eval_bind_mod]

private theorem map_range_mul {f : Nat → Bool} {period : Nat}
    (hf : ∀ code, f code = f (code % period)) (times : Nat) :
    (List.range (times * period)).map f =
      (List.replicate times ((List.range period).map f)).flatten := by
  induction times with
  | zero => simp
  | succ times ih =>
      have hshift : (List.range period).map (fun i => f (times * period + i)) =
          (List.range period).map f := by
        refine List.map_congr_left fun i _ => ?_
        rw [hf, Nat.mul_add_mod_self_right, ← hf]
      rw [Nat.succ_mul, List.range_add, List.map_append, ih, List.map_map, List.replicate_succ',
        List.flatten_append]
      simpa using hshift

/-- The rows of snapped width are those of exact width over and over again. -/
theorem rows_snapped (hs : build t root .snapped = .ok s) (hx : build t root .exact = .ok x) :
    s.rows = (List.replicate (2 ^ (s.width.bits - t.size)) x.rows).flatten := by
  have hbits : t.size ≤ s.width.bits := BitWidth.le_of_ofCount (width_of_build hs)
  have hrows : s.width.rows = 2 ^ (s.width.bits - t.size) * 2 ^ t.size :=
    (Nat.pow_sub_mul_pow 2 hbits).symm
  rw [rows_of_build hs, rows_of_build hx, hrows, rows_of_exact hx]
  exact map_range_mul (eval_bind_mod t root) _

/-- **Both policies describe the same function, and idle bits do not matter.**  They refuse the same
tables with the same refusal.  A table of snapped width has for each code the row that the table of
exact width has for the code without the bits beyond the last name, so it is that table repeated.
Under either policy a bit may be flipped if it belongs to no name of the formula. -/
theorem snapped_repeats_exact (t : NameTable) (root : Formula) :
    (∀ e, build t root .snapped = .error e ↔ build t root .exact = .error e) ∧
    (∀ s x, build t root .snapped = .ok s → build t root .exact = .ok x →
      (∀ code, code < 2 ^ s.width.bits → s.row? code = x.row? (code % 2 ^ t.size)) ∧
      t.size ≤ s.width.bits ∧
      s.rows = (List.replicate (2 ^ (s.width.bits - t.size)) x.rows).flatten) ∧
    ∀ policy tt, build t root policy = .ok tt → ∀ code j, code < 2 ^ tt.width.bits →
      j < tt.width.bits → (t.size ≤ j ∨ ∃ n, t.names[j]? = some n ∧ n ∉ root.leaves) →
        tt.row? (code ^^^ 2 ^ j) = tt.row? code := by
  refine ⟨fun e => build_eq_error_iff_of_policy _ _, ?_, ?_⟩
  · intro s x hs hx
    refine ⟨fun code hcode => row?_snapped hs hx hcode, ?_, rows_snapped hs hx⟩
    exact BitWidth.le_of_ofCount (width_of_build hs)
  · intro policy tt htt code j hcode hj hidle
    exact row?_xor htt hcode hj hidle

/-- Over three names of which `a && c` uses two, the table of width four is that of width three
twice, and the bit of `b` does not matter. -/
theorem snapped_repeats_exact_three_names :
    let a := Name.ofChars 'a' []
    let b := Name.ofChars 'b' []
    let c := Name.ofChars 'c' []
    let t := NameTable.ofList [⟨a, 0⟩, ⟨b, 1⟩, ⟨c, 2⟩]
    ∃ s x, build t (.binary .and (.var a) (.var c)) .snapped = .ok s ∧
      build t (.binary .and (.var a) (.var c)) .exact = .ok x ∧
      s.row? 13 = x.row? 5 ∧ s.rows = x.rows ++ x.rows ∧ s.row? 7 = s.row? 5 := by
  intro a b c t
  have hsize : t.size = 3 := by decide
  have hlimit : t.size ≤ maxNames := by decide
  obtain ⟨s, hs⟩ := exists_build hlimit (.binary .and (.var a) (.var c)) .snapped
  obtain ⟨x, hx⟩ := exists_build hlimit (.binary .and (.var a) (.var c)) .exact
  obtain ⟨-, hrepeats, hidle⟩ := snapped_repeats_exact t (.binary .and (.var a) (.var c))
  obtain ⟨hrow, -, hrows⟩ := hrepeats s x hs hx
  have hbits : s.width.bits = 4 := BitWidth.bits_of_ofCount (width_of_build hs)
  rw [hbits, hsize] at hrow hrows
  have hunused : ∃ n, t.names[1]? = some n ∧ n ∉ (Formula.binary .and (.var a) (.var c)).leaves :=
    ⟨b, by decide, by decide⟩
  refine ⟨s, x, hs, hx, hrow 13 (by decide), ?_, ?_⟩
  · simpa using hrows
  · exact hidle .snapped s hs 5 1 (by rw [hbits]; decide) (by rw [hbits]; decide) (.inr hunused)

end TruthTable

end BoolLut
