/-
**Names in another order.**

Two tables of the same names may list them in different orders, and then give the same formula
truth tables with different rows.  The bit of a name stands at the place of the name, so a code of
the one table becomes the code of the other that means the same by moving each bit to the other
place of its name; the bits beyond the names mean nothing and stay.  This turns the codes of a
width into each other, and the row of a code goes along with it.  The two sides of a connective may
be exchanged for this reason: the value is the same, and only the order of the names is another
one.

Main definitions:

* `BoolLut.NameTable.Moves` — a code comes from another one by moving the bits of the names;
* `BoolLut.NameTable.recode` — the code that comes from a given one in this way;
* `BoolLut.TruthTable.Reorders` — a truth table has the rows of another one at the codes to which
  the bits are moved.

Main results:

* `BoolLut.NameTable.moves_recode`, `BoolLut.NameTable.Moves.unique` — there is exactly one such
  code;
* `BoolLut.NameTable.recode_recode` — moving the bits there and back changes nothing;
* `BoolLut.TruthTable.Reorders.rows_perm` — **the rows are the same in another order**;
* `BoolLut.TruthTable.reorders_of_same_names` — **the order of the names only permutes the rows**.
-/

import Mathlib.Data.Set.Function
import BoolLut.Proofs.Rows

set_option relaxedAutoImplicit false
set_option autoImplicit false

namespace BoolLut

namespace NameTable

variable {t u : NameTable} {code code' : Nat}

/-! ### Moving bits -/

/-- `code'` is `code` with its bits moved from the places of the names in `t` to their places in
`u`. -/
structure Moves (t u : NameTable) (code code' : Nat) : Prop where
  /-- The bit of a name goes with the name. -/
  name : ∀ n i j, t.names[i]? = some n → u.names[j]? = some n → code'.testBit j = code.testBit i
  /-- The bits beyond the names stay. -/
  beyond : ∀ j, t.size ≤ j → code'.testBit j = code.testBit j

/-- Tables of the same names have the same size. -/
theorem size_eq_of_same_names (h : ∀ n, n ∈ t.names ↔ n ∈ u.names) : t.size = u.size := by
  have hperm := (List.perm_ext_iff_of_nodup t.names_nodup u.names_nodup).2 h
  rw [← length_names, ← length_names]
  exact hperm.length_eq

/-- A place is that of a name, or it is beyond the names. -/
theorem exists_name_or_le (t : NameTable) (j : Nat) :
    (∃ n, t.names[j]? = some n) ∨ t.size ≤ j := by
  rcases Nat.lt_or_ge j t.names.length with hj | hj
  · exact .inl ⟨_, List.getElem?_eq_getElem hj⟩
  · exact .inr (t.length_names ▸ hj)

section moves

variable (hsame : ∀ n, n ∈ t.names ↔ n ∈ u.names)
include hsame

theorem Moves.symm (h : t.Moves u code code') : u.Moves t code' code where
  name n i j hi hj := (h.name n j i hj hi).symm
  beyond j hj := (h.beyond j (size_eq_of_same_names hsame ▸ hj)).symm

/-- Every bit of the code is determined. -/
theorem Moves.unique {code'' : Nat} (h : t.Moves u code code') (h' : t.Moves u code code'') :
    code' = code'' := by
  refine Nat.eq_of_testBit_eq fun j => ?_
  rcases u.exists_name_or_le j with ⟨n, hj⟩ | hj
  · obtain ⟨i, hi⟩ := List.mem_iff_getElem?.1 ((hsame n).2 (List.mem_of_getElem? hj))
    rw [h.name n i j hi hj, h'.name n i j hi hj]
  · rw [← size_eq_of_same_names hsame] at hj
    rw [h.beyond j hj, h'.beyond j hj]

/-- The moved bits give every name the value that it had. -/
theorem Moves.encodes (h : t.Moves u code code') : u.Encodes (t.bind code).value code' := by
  constructor
  · intro j hj
    obtain ⟨i, hi⟩ := List.mem_iff_getElem?.1 ((hsame _).2 (List.getElem_mem hj))
    rw [h.name _ i j hi (List.getElem?_eq_getElem hj), value_bind hi]
  · intro text htext
    refine value_bind_of_text_not_mem ?_
    rw [List.mem_map] at htext ⊢
    rintro ⟨n, hn, rfl⟩
    exact htext ⟨n, (hsame n).1 hn, rfl⟩

end moves

/-- A code stays within its width, if that has a bit for each name. -/
theorem Moves.lt_two_pow (h : t.Moves u code code') {w : Nat} (hw : t.size ≤ w)
    (hcode : code < 2 ^ w) : code' < 2 ^ w := by
  refine Nat.lt_pow_two_of_testBit code' fun j hj => ?_
  rw [h.beyond j (hw.trans hj)]
  exact Nat.testBit_lt_two_pow (hcode.trans_le (Nat.pow_le_pow_right (by decide) hj))

/-- The code with the bit of each name at the place of the name in `u`, if it has them at the
places in `t`; the bits beyond the names stay. -/
def recode (t u : NameTable) (code : Nat) : Nat :=
  2 ^ u.size * (code / 2 ^ u.size) + codeOf (t.bind code).value u.names

theorem testBit_recode (t u : NameTable) (code j : Nat) :
    (t.recode u code).testBit j =
      if j < u.size then (codeOf (t.bind code).value u.names).testBit j else code.testBit j := by
  have hlt := codeOf_lt (t.bind code).value u.names
  rw [length_names] at hlt
  rw [recode, Nat.testBit_two_pow_mul_add _ hlt]
  split
  · rfl
  · next hj => rw [Nat.testBit_div_two_pow, Nat.sub_add_cancel (Nat.le_of_not_lt hj)]

/-- There is a code with the bits moved. -/
theorem moves_recode (hsame : ∀ n, n ∈ t.names ↔ n ∈ u.names) (code : Nat) :
    t.Moves u code (t.recode u code) := by
  constructor
  · intro n i j hi hj
    have hlt : j < u.size := by
      rw [← length_names]
      exact (List.getElem?_eq_some_iff.1 hj).1
    rw [testBit_recode, if_pos hlt, testBit_codeOf hj, value_bind hi]
  · intro j hj
    rw [size_eq_of_same_names hsame] at hj
    rw [testBit_recode, if_neg (Nat.not_lt.2 hj)]

/-- Moving the bits there and back changes nothing. -/
theorem recode_recode (hsame : ∀ n, n ∈ t.names ↔ n ∈ u.names) (code : Nat) :
    u.recode t (t.recode u code) = code :=
  (moves_recode (fun n => (hsame n).symm) _).unique (fun n => (hsame n).symm)
    ((moves_recode hsame code).symm hsame)

/-- The codes of a width are turned into each other. -/
theorem bijOn_recode (hsame : ∀ n, n ∈ t.names ↔ n ∈ u.names) {w : Nat} (hw : t.size ≤ w) :
    Set.BijOn (t.recode u) {code | code < 2 ^ w} {code | code < 2 ^ w} := by
  have hsame' : ∀ n, n ∈ u.names ↔ n ∈ t.names := fun n => (hsame n).symm
  have hw' : u.size ≤ w := size_eq_of_same_names hsame ▸ hw
  have hinv : Set.InvOn (u.recode t) (t.recode u) {code | code < 2 ^ w} {code | code < 2 ^ w} :=
    ⟨fun code _ => recode_recode hsame code, fun code _ => recode_recode hsame' code⟩
  exact hinv.bijOn (fun code hcode => (moves_recode hsame code).lt_two_pow hw hcode)
    fun code hcode => (moves_recode hsame' code).lt_two_pow hw' hcode

end NameTable

namespace TruthTable

/-! ### Moving rows -/

/-- `x` and `y` have codes of the same width, and `y` has the rows of `x` at the codes to which the
bits of the names are moved. -/
structure Reorders (t u : NameTable) (x y : TruthTable) : Prop where
  width_eq : y.width = x.width
  /-- The code of a row is changed by moving the bits of the names. -/
  moves : ∀ code, t.Moves u code (t.recode u code)
  /-- No row is lost, and none is put in the place of another one. -/
  bijOn : Set.BijOn (t.recode u) {code | code < 2 ^ x.width.bits} {code | code < 2 ^ x.width.bits}
  /-- The row goes with its code. -/
  row?_eq : ∀ code < 2 ^ x.width.bits, y.row? (t.recode u code) = x.row? code

theorem map_some_rows (tt : TruthTable) :
    tt.rows.map some = (List.range (2 ^ tt.width.bits)).map tt.row? := by
  have hlength : tt.rows.length = 2 ^ tt.width.bits := tt.length_rows
  refine List.ext_getElem (by simp [hlength]) ?_
  intro code h₁ h₂
  rw [List.length_map] at h₁
  rw [List.getElem_map, List.getElem_map, List.getElem_range, row?, List.getElem?_eq_getElem h₁]

private theorem map_range_perm {π : Nat → Nat} {m : Nat}
    (h : Set.BijOn π {code | code < m} {code | code < m}) :
    ((List.range m).map π).Perm (List.range m) := by
  have hinj : ∀ c ∈ List.range m, ∀ d ∈ List.range m, π c = π d → c = d :=
    fun c hc d hd heq => h.injOn (List.mem_range.1 hc) (List.mem_range.1 hd) heq
  rw [List.perm_ext_iff_of_nodup (List.nodup_range.map_on hinj) List.nodup_range]
  intro code
  rw [List.mem_map, List.mem_range]
  constructor
  · rintro ⟨c, hc, rfl⟩
    exact h.mapsTo (List.mem_range.1 hc)
  · intro hcode
    obtain ⟨c, hc, heq⟩ := h.surjOn hcode
    exact ⟨c, List.mem_range.2 hc, heq⟩

section reorders

variable {t u : NameTable} {x y : TruthTable}

/-- The rows are the same in another order. -/
theorem Reorders.rows_perm (h : Reorders t u x y) : y.rows.Perm x.rows := by
  have hrows : (List.range (2 ^ x.width.bits)).map x.row? =
      ((List.range (2 ^ x.width.bits)).map (t.recode u)).map y.row? := by
    rw [List.map_map]
    exact List.map_congr_left fun code hcode => (h.row?_eq code (List.mem_range.1 hcode)).symm
  have hperm := (map_range_perm h.bijOn).map y.row?
  rw [← hrows, ← map_some_rows, ← h.width_eq, ← map_some_rows] at hperm
  exact ((List.map_perm_map_iff (Option.some_injective Bool)).1 hperm).symm

/-- As many rows are true as before. -/
theorem Reorders.countOnes_eq (h : Reorders t u x y) : y.countOnes = x.countOnes :=
  h.rows_perm.count_eq true

/-- A formula has the same rows over tables of the same names, at the codes to which the bits are
moved. -/
theorem exists_reorders (hsame : ∀ n, n ∈ t.names ↔ n ∈ u.names) (hsize : t.size ≤ maxNames)
    (root : Formula) (policy : WidthPolicy) :
    ∃ x y, build t root policy = .ok x ∧ build u root policy = .ok y ∧ Reorders t u x y := by
  have hsizes := NameTable.size_eq_of_same_names hsame
  obtain ⟨x, hx⟩ := exists_build hsize root policy
  obtain ⟨y, hy⟩ := exists_build (t := u) (hsizes ▸ hsize) root policy
  have hwidth : y.width = x.width := width_eq_of_build hsizes.symm hy hx
  have hbits : t.size ≤ x.width.bits := BitWidth.le_of_ofCount (width_of_build hx)
  refine ⟨x, y, hx, hy, hwidth, NameTable.moves_recode hsame,
    NameTable.bijOn_recode hsame hbits, fun code hcode => ?_⟩
  have hmoves := NameTable.moves_recode hsame code
  have hmoved : t.recode u code < y.width.rows := by
    rw [hwidth]
    exact hmoves.lt_two_pow hbits hcode
  rw [row?_of_encodes hy hmoved (hmoves.encodes hsame), row?_of_build hx hcode]

end reorders

/-- **The order of the names only permutes the rows.**  Over two tables of the same names, at most
four, a formula has truth tables of the same width, and the row of a code in the one is the row of
the code with the bits moved in the other.  In the same way the truth table of a connective between
two formulas, over its own names, is changed when its sides are exchanged.  In both cases as many
rows are true as before. -/
theorem reorders_of_same_names :
    (∀ (t u : NameTable) (root : Formula) (policy : WidthPolicy),
      (∀ n, n ∈ t.names ↔ n ∈ u.names) → t.size ≤ 4 →
        ∃ x y, build t root policy = .ok x ∧ build u root policy = .ok y ∧
          Reorders t u x y ∧ y.countOnes = x.countOnes) ∧
    ∀ (op : Connective) (l r : Formula) (policy : WidthPolicy),
      (Formula.binary op l r).leaves.eraseDups.length ≤ 4 →
        ∃ x y, build (Formula.binary op l r).nameTable (.binary op l r) policy = .ok x ∧
          build (Formula.binary op r l).nameTable (.binary op r l) policy = .ok y ∧
          Reorders (Formula.binary op l r).nameTable (Formula.binary op r l).nameTable x y ∧
          y.countOnes = x.countOnes := by
  constructor
  · intro t u root policy hsame hsize
    obtain ⟨x, y, hx, hy, hreorders⟩ := exists_reorders hsame hsize root policy
    exact ⟨x, y, hx, hy, hreorders, hreorders.countOnes_eq⟩
  · intro op l r policy hnames
    have hsame : ∀ n, n ∈ (Formula.binary op l r).nameTable.names ↔
        n ∈ (Formula.binary op r l).nameTable.names := by
      intro n
      rw [Formula.mem_names_nameTable, Formula.mem_names_nameTable, Formula.leaves_binary,
        Formula.leaves_binary, List.mem_append, List.mem_append, or_comm]
    have hsize : (Formula.binary op l r).nameTable.size ≤ 4 := by
      rw [Formula.size_nameTable]
      exact hnames
    have hvalue : ∀ value, (Formula.binary op l r).eval value =
        (Formula.binary op r l).eval value :=
      fun value => op.apply_comm (l.eval value) (r.eval value)
    obtain ⟨x, y, hx, hy, hreorders⟩ := exists_reorders hsame hsize (.binary op l r) policy
    rw [build_congr rfl (fun code => hvalue _)] at hy
    exact ⟨x, y, hx, hy, hreorders, hreorders.countOnes_eq⟩

/-- Over `b` and `a` the formula `a && !b` is true for code two, over `a` and `b` for code one; and
`(a && !b) || c` has as many true rows as `c || (a && !b)`. -/
theorem reorders_of_same_names_two_orders :
    let a := Name.ofChars 'a' []
    let b := Name.ofChars 'b' []
    let c := Name.ofChars 'c' []
    let t := NameTable.ofList [⟨b, 0⟩, ⟨a, 1⟩, ⟨b, 2⟩]
    let u := NameTable.ofList [⟨a, 0⟩, ⟨b, 1⟩]
    let l := Formula.binary .and (.var a) (.not (.var b))
    (∃ x y, build t l .snapped = .ok x ∧ build u l .snapped = .ok y ∧
        x.row? 2 = some true ∧ y.row? 1 = some true ∧ y.countOnes = x.countOnes) ∧
      ∃ x y,
        build (Formula.binary .or l (.var c)).nameTable (.binary .or l (.var c)) .exact = .ok x ∧
        build (Formula.binary .or (.var c) l).nameTable (.binary .or (.var c) l) .exact = .ok y ∧
        y.countOnes = x.countOnes := by
  intro a b c t u l
  have hsame : ∀ n, n ∈ t.names ↔ n ∈ u.names := by
    have ht : t.names = [b, a] := by decide
    have hu : u.names = [a, b] := by decide
    intro n
    rw [ht, hu, List.mem_pair, List.mem_pair, or_comm]
  obtain ⟨htables, hsides⟩ := reorders_of_same_names
  constructor
  · obtain ⟨x, y, hx, hy, hreorders, hcount⟩ := htables t u l .snapped hsame (by decide)
    have hcode : 2 < 2 ^ x.width.bits :=
      Nat.lt_of_lt_of_le (by decide : 2 < 2 ^ t.size)
        (Nat.pow_le_pow_right (by decide) (BitWidth.le_of_ofCount (width_of_build hx)))
    have hrow : x.row? 2 = some true := (row?_of_build hx hcode).trans (by decide)
    have hrecode : t.recode u 2 = 1 := by decide
    have hmoved := hreorders.row?_eq 2 hcode
    rw [hrecode, hrow] at hmoved
    exact ⟨x, y, hx, hy, hrow, hmoved, hcount⟩
  · obtain ⟨x, y, hx, hy, -, hcount⟩ := hsides .or l (.var c) .exact (by decide)
    exact ⟨x, y, hx, hy, hcount⟩

end TruthTable

end BoolLut
