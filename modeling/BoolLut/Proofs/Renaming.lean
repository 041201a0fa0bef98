/-
**Formulas with other names.**

Nothing that is computed from a formula depends on how its names are spelled, only on which leaves
have the same name.  If every name of a formula is replaced by another one, and different names by
different ones, the table of names lists the new names where it listed the old ones, with the same
leaves, and every code gives a new name the value that it gave the old one.  So the truth table
stays the same.  In particular no order among names, such as that of the alphabet, decides which
bit of a code belongs to which name.

Main definitions:

* `BoolLut.Formula.rename`, `BoolLut.Occurrence.rename` — a formula and an occurrence with other
  names;
* `BoolLut.NameTable.Renames` — a table with other names, and with the same leaves at the same
  places.

Main results:

* `BoolLut.NameTable.Renames.insert`, `BoolLut.NameTable.renames_ofList` — one more occurrence keeps
  two tables alike, and so does a list of occurrences;
* `BoolLut.NameTable.Renames.build_eq` — alike tables of names give the same truth table;
* `BoolLut.Formula.nameTable_rename` — **only the leaves that share a name matter**.
-/

import BoolLut.Proofs.Multimap
import BoolLut.Proofs.Rows

set_option relaxedAutoImplicit false
set_option autoImplicit false

namespace BoolLut

variable {g : Name → Name}

/-! ### Formulas -/

namespace Formula

/-- The formula with the name `g n` at every leaf that has the name `n`. -/
def rename (g : Name → Name) : Formula → Formula
  | var n => var (g n)
  | not f => not (f.rename g)
  | binary op l r => binary op (l.rename g) (r.rename g)

@[simp] theorem rename_var (g : Name → Name) (n : Name) : (var n).rename g = var (g n) := rfl

@[simp] theorem rename_not (g : Name → Name) (f : Formula) :
    (not f).rename g = not (f.rename g) := rfl

@[simp] theorem rename_binary (g : Name → Name) (op : Connective) (l r : Formula) :
    (binary op l r).rename g = binary op (l.rename g) (r.rename g) := rfl

@[simp] theorem leaves_rename (g : Name → Name) (f : Formula) :
    (f.rename g).leaves = f.leaves.map g := by
  induction f with
  | var n => rfl
  | not f ih => simpa using ih
  | binary op l r ihl ihr => simp [ihl, ihr]

@[simp] theorem depth_rename (g : Name → Name) (f : Formula) : (f.rename g).depth = f.depth := by
  induction f with
  | var n => rfl
  | not f ih => simp [ih]
  | binary op l r ihl ihr => simp [ihl, ihr]

@[simp] theorem size_rename (g : Name → Name) (f : Formula) : (f.rename g).size = f.size := by
  induction f with
  | var n => rfl
  | not f ih => simp [ih]
  | binary op l r ihl ihr => simp [ihl, ihr]

/-- A renamed formula has the value that the formula has when each name has the value of its new
name. -/
theorem eval_rename {f : Formula} {u v : String → Bool}
    (h : ∀ n ∈ f.leaves, u (g n).text = v n.text) : (f.rename g).eval u = f.eval v := by
  induction f with
  | var n => exact h n (by simp)
  | not f ih => simp only [rename_not, eval_not, ih h]
  | binary op l r ihl ihr =>
      simp only [rename_binary, eval_binary]
      rw [ihl fun n hn => h n (by simp [hn]), ihr fun n hn => h n (by simp [hn])]

end Formula

/-- The occurrence with the name `g n` in the place of `n`. -/
def Occurrence.rename (g : Name → Name) (o : Occurrence) : Occurrence := ⟨g o.name, o.site⟩

@[simp] theorem Occurrence.name_rename (g : Name → Name) (o : Occurrence) :
    (o.rename g).name = g o.name := rfl

@[simp] theorem Occurrence.site_rename (g : Name → Name) (o : Occurrence) :
    (o.rename g).site = o.site := rfl

theorem Formula.occurrences_rename (g : Name → Name) (f : Formula) :
    (f.rename g).occurrences = f.occurrences.map (.rename g) := by
  rw [occurrences, occurrences, leaves_rename]
  refine List.ext_getElem (by simp) ?_
  intro i h₁ h₂
  simp [Occurrence.rename]

/-! ### Tables of names -/

namespace NameTable

/-- `u` is `t` with other names: at every place it has the name `g n` where `t` has `n`, with the
same leaves. -/
structure Renames (g : Name → Name) (t u : NameTable) : Prop where
  pairs_eq : u.pairs = t.pairs.map fun p => (g p.1, p.2)

variable {t u : NameTable}

theorem Renames.names_eq (h : Renames g t u) : u.names = t.names.map g := by
  rw [← map_fst_pairs, ← map_fst_pairs, h.pairs_eq, List.map_map, List.map_map]
  rfl

theorem Renames.size_eq (h : Renames g t u) : u.size = t.size := by
  rw [← length_names, ← length_names, h.names_eq, List.length_map]

theorem Renames.counts_eq (h : Renames g t u) :
    u.counts = t.counts.map fun p => (g p.1, p.2) := by
  rw [counts_eq_map_pairs, counts_eq_map_pairs, h.pairs_eq, List.map_map, List.map_map]
  rfl

/-- One more occurrence keeps two tables alike, unless its name becomes the same as that of another
name. -/
theorem Renames.insert (h : Renames g t u) {o : Occurrence}
    (hinj : ∀ n ∈ t.names, g o.name = g n → o.name = n) :
    Renames g (t.insert o) (u.insert (o.rename g)) := by
  constructor
  have hmem : g o.name ∈ u.names ↔ o.name ∈ t.names := by
    rw [h.names_eq, List.mem_map]
    constructor
    · rintro ⟨n, hn, heq⟩
      exact hinj n hn heq.symm ▸ hn
    · intro hn
      exact ⟨o.name, hn, rfl⟩
  rw [pairs_insert, pairs_insert, Occurrence.name_rename, h.pairs_eq]
  by_cases hold : o.name ∈ t.names
  · rw [if_pos hold, if_pos (hmem.2 hold), List.map_map, List.map_map]
    refine List.map_congr_left fun p hp => ?_
    have hname : p.1 ∈ t.names := by
      rw [← map_fst_pairs]
      exact List.mem_map_of_mem hp
    have hiff : g o.name = g p.1 ↔ o.name = p.1 := ⟨hinj p.1 hname, congrArg g⟩
    simp [extend, sitesOf_singleton, hiff]
  · rw [if_neg hold, if_neg fun hnew => hold (hmem.1 hnew), List.map_append]
    rfl

/-- Filing renamed occurrences makes a renamed table, if different names stay different. -/
theorem renames_ofList {os : List Occurrence}
    (hinj : ∀ m ∈ os.map Occurrence.name, ∀ n ∈ os.map Occurrence.name, g m = g n → m = n) :
    Renames g (ofList os) (ofList (os.map (.rename g))) := by
  induction os using List.reverseRecOn with
  | nil => exact ⟨rfl⟩
  | append_singleton os o ih =>
      rw [List.map_append, List.map_singleton, ofList_concat, ofList_concat]
      rw [List.map_append, List.map_singleton] at hinj
      refine Renames.insert (ih ?_) ?_
      · intro m hm n hn
        exact hinj m (by simp [hm]) n (by simp [hn])
      · intro n hn
        rw [names_ofList, List.mem_eraseDups] at hn
        exact hinj o.name (by simp) n (by simp [hn])

/-! ### Values and rows -/

/-- A code gives a new name the value that it gives the old one. -/
theorem Renames.value_bind (h : Renames g t u) {n : Name} (hn : n ∈ t.names) (code : Nat) :
    (u.bind code).value (g n).text = (t.bind code).value n.text := by
  obtain ⟨j, hj⟩ := List.mem_iff_getElem?.1 hn
  have hj' : u.names[j]? = some (g n) := by
    rw [h.names_eq, List.getElem?_map, hj, Option.map_some]
  rw [NameTable.value_bind hj, NameTable.value_bind hj']

/-- Alike tables of names give a formula and the renamed formula the same truth table, if they have
all names of it. -/
theorem Renames.build_eq (h : Renames g t u) {f : Formula} (hf : ∀ n ∈ f.leaves, n ∈ t.names)
    (policy : WidthPolicy) :
    TruthTable.build u (f.rename g) policy = TruthTable.build t f policy := by
  refine TruthTable.build_congr h.size_eq (fun code => ?_) policy
  exact Formula.eval_rename fun n hn => h.value_bind (hf n hn) code

end NameTable

/-- The table of a renamed formula is the renamed table of the formula. -/
theorem Formula.renames_nameTable {f : Formula}
    (hinj : ∀ m ∈ f.leaves, ∀ n ∈ f.leaves, g m = g n → m = n) :
    NameTable.Renames g f.nameTable (f.rename g).nameTable := by
  rw [nameTable, nameTable, occurrences_rename]
  refine NameTable.renames_ofList ?_
  rw [map_name_occurrences]
  exact hinj

/-- **Only the leaves that share a name matter.**  If the names of a formula are replaced, different
ones by different ones, its table of names has the new names in the places of the old ones, with
the same leaves and the same counts, depth and size stay the same, and under either policy so does
the truth table, or the refusal of too many names. -/
theorem Formula.nameTable_rename {f : Formula} {g : Name → Name}
    (hinj : ∀ m ∈ f.leaves, ∀ n ∈ f.leaves, g m = g n → m = n) :
    (f.rename g).nameTable.names = f.nameTable.names.map g ∧
    (f.rename g).nameTable.pairs = f.nameTable.pairs.map (fun p => (g p.1, p.2)) ∧
    (f.rename g).nameTable.counts = f.nameTable.counts.map (fun p => (g p.1, p.2)) ∧
    (f.rename g).size = f.size ∧ (f.rename g).depth = f.depth ∧
    ∀ policy, TruthTable.build (f.rename g).nameTable (f.rename g) policy =
      TruthTable.build f.nameTable f policy := by
  have hrenames := renames_nameTable hinj
  have hown : ∀ n ∈ f.leaves, n ∈ f.nameTable.names := fun n hn => mem_names_nameTable.2 hn
  exact ⟨hrenames.names_eq, hrenames.pairs_eq, hrenames.counts_eq, f.size_rename g,
    f.depth_rename g, hrenames.build_eq hown⟩

/-- In `b == (a && b)` the name `b` may become `a` and `a` at the same time `é`, which is a name but
no word. -/
theorem Formula.nameTable_rename_swapped :
    let a := Name.ofChars 'a' []
    let b := Name.ofChars 'b' []
    let e := Name.ofChars 'é' []
    let f := Formula.binary .iff (.var b) (.binary .and (.var a) (.var b))
    let g := fun n => if n = b then a else e
    (f.rename g).nameTable.names = [a, e] ∧
      (f.rename g).nameTable.counts = [(a, 2), (e, 1)] ∧
      TruthTable.build (f.rename g).nameTable (f.rename g) .snapped =
        TruthTable.build f.nameTable f .snapped := by
  intro a b e f g
  obtain ⟨hnames, -, hcounts, -, -, hbuild⟩ := nameTable_rename (f := f) (g := g) (by decide)
  exact ⟨hnames.trans (by decide), hcounts.trans (by decide), hbuild .snapped⟩

end BoolLut
