/-
**Counting the models of a formula.**

A model of a formula is a choice of values for its names under which it is true.  If a code has
exactly one bit for each name, the codes below the number of all choices stand for the choices, each
for one, and so the true rows are the models.  With more bits than names the rows repeat, and each
model is met as often as there are values for the idle bits.

From counting rows come the laws that one expects: a negation is true where the formula is not, and
over one table of names the rows of `||` and `&&` together are as many as those of the two sides, and
those of `==` and `!=` together are all there are.

Main definitions:

* `BoolLut.Formula.Interpretation` — values for the names of a formula;
* `BoolLut.Formula.models` — those under which the formula is true;
* `BoolLut.NameTable.trueCodes` — the codes below a number under which a formula is true.

Main results:

* `BoolLut.Formula.card_models` — there are as many models as codes under which the formula is true;
* `BoolLut.NameTable.card_trueCodes_mul` — codes with idle bits come over and over again;
* `BoolLut.TruthTable.countOnes_eq_card` — the codes of the true rows;
* `BoolLut.TruthTable.countOnes_or_add_and`, `BoolLut.TruthTable.countOnes_add_of_eval_not` — the
  counts of connectives, and of opposites, over one table of names;
* `BoolLut.TruthTable.countOnes_counts_models` — **the true rows count the models**.
-/

import Mathlib.Data.Fintype.Pi
import Mathlib.Data.Nat.Count
import BoolLut.Proofs.Compounds
import BoolLut.Proofs.Widths

set_option relaxedAutoImplicit false
set_option autoImplicit false

namespace BoolLut

/-! ### Codes under which a formula is true -/

namespace NameTable

variable {t : NameTable} {f : Formula}

/-- The codes below `bound` under which `f` is true. -/
def trueCodes (t : NameTable) (f : Formula) (bound : Nat) : Finset Nat :=
  (Finset.range bound).filter fun code => f.eval (t.bind code).value = true

theorem mem_trueCodes {bound code : Nat} :
    code ∈ t.trueCodes f bound ↔ code < bound ∧ f.eval (t.bind code).value = true := by
  rw [trueCodes, Finset.mem_filter, Finset.mem_range]

theorem card_trueCodes (t : NameTable) (f : Formula) (bound : Nat) :
    (t.trueCodes f bound).card = Nat.count (fun code => f.eval (t.bind code).value = true) bound :=
  (Nat.count_eq_card_filter_range _ bound).symm

/-- Codes with idle bits come over and over again. -/
theorem card_trueCodes_mul (t : NameTable) (f : Formula) (times : Nat) :
    (t.trueCodes f (times * 2 ^ t.size)).card = times * (t.trueCodes f (2 ^ t.size)).card := by
  induction times with
  | zero => simp [trueCodes]
  | succ times ih =>
      have hshift : ∀ code, f.eval (t.bind (times * 2 ^ t.size + code)).value =
          f.eval (t.bind code).value := by
        intro code
        rw [TruthTable.eval_bind_mod, Nat.mul_add_mod_self_right, ← TruthTable.eval_bind_mod]
      rw [card_trueCodes, card_trueCodes] at ih
      rw [card_trueCodes, card_trueCodes, Nat.succ_mul, Nat.count_add, ih, Nat.succ_mul]
      simp only [hshift]

end NameTable

/-! ### Models -/

namespace Formula

/-- Values for the names of a formula. -/
abbrev Interpretation (f : Formula) : Type := {n : Name // n ∈ f.leaves} → Bool

/-- The valuation with the values of an interpretation, and false for every other text. -/
def Interpretation.value {f : Formula} (I : f.Interpretation) (text : String) : Bool :=
  f.leaves.attach.any fun n => I n && n.1.text == text

/-- The interpretations under which a formula is true. -/
def models (f : Formula) : Finset f.Interpretation :=
  Finset.univ.filter fun I => f.Holds (Interpretation.value I)

variable {f : Formula}

theorem mem_models {I : f.Interpretation} :
    I ∈ f.models ↔ f.eval (Interpretation.value I) = true := by
  rw [models, Finset.mem_filter, eval_eq_true_iff]
  exact and_iff_right (Finset.mem_univ I)

/-- A name has the value that was chosen for it. -/
theorem Interpretation.value_text (I : f.Interpretation) (n : {n : Name // n ∈ f.leaves}) :
    Interpretation.value I n.1.text = I n := by
  rw [Bool.eq_iff_iff, value, List.any_eq_true]
  constructor
  · rintro ⟨m, -, hm⟩
    rw [Bool.and_eq_true, beq_iff_eq] at hm
    have hname : m = n := Subtype.ext (Name.ext hm.2)
    exact hname ▸ hm.1
  · intro hn
    exact ⟨n, List.mem_attach _ n, by simp [hn]⟩

/-- The values that a code gives to the names of a formula. -/
def interpretationOf (f : Formula) (code : Nat) : f.Interpretation :=
  fun n => (f.nameTable.bind code).value n.1.text

theorem value_interpretationOf (code : Nat) {n : Name} (hn : n ∈ f.leaves) :
    Interpretation.value (f.interpretationOf code) n.text = (f.nameTable.bind code).value n.text :=
  Interpretation.value_text _ ⟨n, hn⟩

theorem eval_interpretationOf (f : Formula) (code : Nat) :
    f.eval (Interpretation.value (f.interpretationOf code)) =
      f.eval (f.nameTable.bind code).value :=
  eval_congr fun _ hn => value_interpretationOf code hn

theorem eval_bind_codeOf (I : f.Interpretation) :
    f.eval (f.nameTable.bind (codeOf (Interpretation.value I) f.nameTable.names)).value =
      f.eval (Interpretation.value I) :=
  NameTable.eval_bind (fun _ _ hj => testBit_codeOf hj)
    fun _ hn hnot => absurd (mem_names_nameTable.2 hn) hnot

/-- A code without idle bits comes back from the values that it gives. -/
theorem codeOf_interpretationOf {code : Nat} (h : code < 2 ^ f.nameTable.size) :
    codeOf (Interpretation.value (f.interpretationOf code)) f.nameTable.names = code := by
  have hvalues : codeOf (Interpretation.value (f.interpretationOf code)) f.nameTable.names =
      f.nameTable.restrict f.nameTable code :=
    codeOf_congr fun n hn => value_interpretationOf code (mem_names_nameTable.1 hn)
  rw [hvalues, NameTable.restrict_eq_mod (List.prefix_refl _), Nat.mod_eq_of_lt h]

/-- And an interpretation comes back from its code. -/
theorem interpretationOf_codeOf (I : f.Interpretation) :
    f.interpretationOf (codeOf (Interpretation.value I) f.nameTable.names) = I := by
  funext n
  obtain ⟨j, hj⟩ := List.mem_iff_getElem?.1 (mem_names_nameTable.2 n.2)
  rw [interpretationOf, NameTable.value_bind hj, testBit_codeOf hj, Interpretation.value_text]

/-- There are as many models as codes under which the formula is true. -/
theorem card_models (f : Formula) :
    f.models.card = (f.nameTable.trueCodes f (2 ^ f.nameTable.size)).card := by
  refine Finset.card_nbij' (fun I => codeOf (Interpretation.value I) f.nameTable.names)
    f.interpretationOf ?_ ?_ ?_ ?_
  · intro I hI
    rw [Finset.mem_coe, mem_models] at hI
    have hlt := codeOf_lt (Interpretation.value I) f.nameTable.names
    rw [NameTable.length_names] at hlt
    rw [Finset.mem_coe, NameTable.mem_trueCodes, eval_bind_codeOf]
    exact ⟨hlt, hI⟩
  · intro code hcode
    rw [Finset.mem_coe, NameTable.mem_trueCodes] at hcode
    rw [Finset.mem_coe, mem_models, eval_interpretationOf]
    exact hcode.2
  · intro I _
    exact interpretationOf_codeOf I
  · intro code hcode
    rw [Finset.mem_coe, NameTable.mem_trueCodes] at hcode
    exact codeOf_interpretationOf hcode.1

end Formula

/-! ### True rows -/

namespace TruthTable

variable {t : NameTable} {f l r : Formula} {policy : WidthPolicy} {tt x y u v : TruthTable}

/-- The true rows are those of the codes under which the formula is true. -/
theorem countOnes_eq_card (h : build t f policy = .ok tt) :
    tt.countOnes = (t.trueCodes f tt.width.rows).card := by
  rw [countOnes, rows_of_build h, NameTable.card_trueCodes, Nat.count, List.count_eq_countP,
    List.countP_map]
  refine List.countP_congr fun code _ => ?_
  simp

/-- Over its own names, a formula has a true row for each model and each value of the idle bits. -/
theorem countOnes_eq_card_models (h : build f.nameTable f policy = .ok tt) :
    tt.countOnes = 2 ^ (tt.width.bits - f.nameTable.size) * f.models.card := by
  have hbits : f.nameTable.size ≤ tt.width.bits := BitWidth.le_of_ofCount (width_of_build h)
  have hrows : tt.width.rows = 2 ^ (tt.width.bits - f.nameTable.size) * 2 ^ f.nameTable.size :=
    (Nat.pow_sub_mul_pow 2 hbits).symm
  rw [countOnes_eq_card h, hrows, NameTable.card_trueCodes_mul, Formula.card_models]

/-- Of two formulas, as many rows are true in all as are true of at least one and of both. -/
theorem countOnes_or_add_and (hx : build t l policy = .ok x) (hy : build t r policy = .ok y)
    (hu : build t (.binary .or l r) policy = .ok u)
    (hv : build t (.binary .and l r) policy = .ok v) :
    u.countOnes + v.countOnes = x.countOnes + y.countOnes := by
  have hor : t.trueCodes (.binary .or l r) y.width.rows =
      t.trueCodes l y.width.rows ∪ t.trueCodes r y.width.rows := by
    rw [NameTable.trueCodes, NameTable.trueCodes, NameTable.trueCodes, ← Finset.filter_or]
    simp
  have hand : t.trueCodes (.binary .and l r) y.width.rows =
      t.trueCodes l y.width.rows ∩ t.trueCodes r y.width.rows := by
    rw [NameTable.trueCodes, NameTable.trueCodes, NameTable.trueCodes, ← Finset.filter_and]
    simp
  rw [countOnes_eq_card hx, countOnes_eq_card hy, countOnes_eq_card hu, countOnes_eq_card hv,
    width_eq_of_build rfl hx hy, width_eq_of_build rfl hu hy, width_eq_of_build rfl hv hy, hor,
    hand, Finset.card_union_add_card_inter]

/-- If of two formulas always exactly one is true, every row is true of one of them. -/
theorem countOnes_add_of_eval_not (hx : build t l policy = .ok x) (hy : build t r policy = .ok y)
    (h : ∀ value, r.eval value = !l.eval value) : x.countOnes + y.countOnes = x.size := by
  have hnot : t.trueCodes r x.width.rows = (Finset.range x.width.rows).filter fun code =>
      ¬ l.eval (t.bind code).value = true := by
    simp [NameTable.trueCodes, h]
  rw [countOnes_eq_card hx, countOnes_eq_card hy, width_eq_of_build rfl hy hx, hnot,
    NameTable.trueCodes, Finset.card_filter_add_card_filter_not, Finset.card_range, size_eq]

/-- **The true rows count the models.**  A formula with at most four names has, under either policy,
as many true rows as models for each value of the bits beyond the names.  A negation is true in the
rows in which its operand is not.  Over the names of a connective between two formulas, whichever it
is, the rows of `||` and `&&` are together as many as those of the two sides, and the rows of `==`
and `!=` are together all rows. -/
theorem countOnes_counts_models :
    (∀ (f : Formula) (policy : WidthPolicy), f.leaves.eraseDups.length ≤ 4 → ∃ x y,
      build f.nameTable f policy = .ok x ∧ build (Formula.not f).nameTable (.not f) policy = .ok y ∧
      f.leaves.eraseDups.length ≤ x.width.bits ∧
      x.countOnes = 2 ^ (x.width.bits - f.leaves.eraseDups.length) * f.models.card ∧
      x.countOnes ≤ x.size ∧ y.countOnes = x.size - x.countOnes) ∧
    ∀ (op : Connective) (l r : Formula) (policy : WidthPolicy),
      (Formula.binary op l r).leaves.eraseDups.length ≤ 4 → ∃ table : Formula → TruthTable,
        (∀ g, build (Formula.binary op l r).nameTable g policy = .ok (table g)) ∧
        (table (.binary .or l r)).countOnes + (table (.binary .and l r)).countOnes =
          (table l).countOnes + (table r).countOnes ∧
        (table (.binary .iff l r)).countOnes + (table (.binary .xor l r)).countOnes =
          (table (.binary op l r)).size := by
  constructor
  · intro f policy hnames
    rw [← Formula.size_nameTable] at hnames ⊢
    obtain ⟨x, hx⟩ := exists_build hnames f policy
    obtain ⟨y, hy⟩ := exists_build hnames (.not f) policy
    have hsum : x.countOnes + y.countOnes = x.size := countOnes_add_of_eval_not hx hy fun _ => rfl
    refine ⟨x, y, hx, hy, BitWidth.le_of_ofCount (width_of_build hx),
      countOnes_eq_card_models hx, ?_, ?_⟩
    · omega
    · omega
  · intro op l r policy hnames
    rw [← Formula.size_nameTable] at hnames
    choose table htable using fun g => exists_build hnames g policy
    refine ⟨table, htable, ?_, ?_⟩
    · exact countOnes_or_add_and (htable _) (htable _) (htable _) (htable _)
    · have hopposite : ∀ value, (Formula.binary .xor l r).eval value =
          !(Formula.binary .iff l r).eval value := fun _ => rfl
      rw [countOnes_add_of_eval_not (htable _) (htable _) hopposite, size_eq, size_eq,
        width_eq_of_build rfl (htable _) (htable _)]

/-- The formula `a || (b && !c)` has five models, which make ten true rows of snapped width and leave
six to its negation. -/
theorem countOnes_counts_models_idle_bit :
    let a := Name.ofChars 'a' []
    let b := Name.ofChars 'b' []
    let c := Name.ofChars 'c' []
    let f := Formula.binary .or (.var a) (.binary .and (.var b) (.not (.var c)))
    f.models.card = 5 ∧ ∃ x y, build f.nameTable f .snapped = .ok x ∧
      build (Formula.not f).nameTable (.not f) .snapped = .ok y ∧
      x.countOnes = 10 ∧ y.countOnes = 6 := by
  intro a b c f
  have hnames : f.leaves.eraseDups.length = 3 := by decide
  obtain ⟨x, y, hx, hy, -, hmodels, -, hnot⟩ :=
    countOnes_counts_models.1 f .snapped (by rw [hnames]; decide)
  have hbits : x.width.bits = 4 := BitWidth.bits_of_ofCount (width_of_build hx)
  have hones : x.countOnes = 10 := by
    rw [countOnes_eq_card hx, BitWidth.rows, hbits]
    decide
  rw [hones, hbits, hnames] at hmodels
  refine ⟨by omega, x, y, hx, hy, hones, ?_⟩
  rw [hnot, hones, size_eq, BitWidth.rows, hbits]

end TruthTable

end BoolLut
