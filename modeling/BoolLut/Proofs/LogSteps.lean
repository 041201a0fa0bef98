/-
**A log that is left step by step.**

The records of a run are left while it works: one is left when the walk through the tree meets a
name for the first time, and one when the value of the formula for a code has been found and before
the next code is taken.  This module writes these two loops as they go, with the record of a step in
the step, and shows that they leave the same records as the steps of a run, which get them from
their finished results.

Main definitions:

* `BoolLut.Formula.fileLeavesLogged`, `BoolLut.Formula.walkLogged` — the walk that files the leaves
  of a tree, with a record of each new name;
* `BoolLut.Cursor.rowsLogged`, `BoolLut.TruthTable.walkLogged` — the walk through the codes, with a
  record of each row;
* `BoolLut.executeStepwise` — a run that walks.

Main results:

* `BoolLut.NameTable.records_insertAllLogged_append` — records of one list of occurrences come
  before those of the next;
* `BoolLut.Formula.walkLogged_eq`, `BoolLut.TruthTable.walkLogged_eq` — the walks leave the records
  of the steps of a run;
* `BoolLut.executeStepwise_eq` — **a run leaves its records step by step**.
-/

import BoolLut.Proofs.Leaves
import BoolLut.Proofs.Rows
import BoolLut.Run

set_option relaxedAutoImplicit false
set_option autoImplicit false

namespace BoolLut

/-- A value with records is known by the value and the records. -/
theorem Logged.eq_of {α : Type} {x y : Logged α} (hvalue : x.value = y.value)
    (hrecords : x.records = y.records) : x = y := by
  cases x
  cases y
  simp only at hvalue hrecords
  rw [hvalue, hrecords]

/-! ### Names -/

/-- The records of one list of occurrences come before those of the next. -/
theorem NameTable.records_insertAllLogged_append (t : NameTable) (os more : List Occurrence) :
    (t.insertAllLogged (os ++ more)).records =
      (t.insertAllLogged os).records ++ ((os.foldl insert t).insertAllLogged more).records := by
  induction os generalizing t with
  | nil => rfl
  | cons o os ih =>
      simp only [List.cons_append, insertAllLogged, Logged.records_bind, value_insertLogged,
        List.foldl_cons, ih, List.append_assoc]

namespace Formula

/-- Files the leaves of a formula in a table, numbered from the given number on, with a record of
each new name, and gives the number after the last. -/
def fileLeavesLogged : Formula → NameTable × Nat → Logged (NameTable × Nat)
  | var name, (t, next) => do
      let t ← t.insertLogged ⟨name, next⟩
      pure (t, next + 1)
  | not f, s => f.fileLeavesLogged s
  | binary _ f g, s => do
      let s ← f.fileLeavesLogged s
      g.fileLeavesLogged s

/-- The walk leaves the records of its leaves in the order of their numbers, whatever the table held
before. -/
theorem fileLeavesLogged_eq (f : Formula) (t : NameTable) (next : Nat) :
    f.fileLeavesLogged (t, next) =
      ⟨f.fileLeaves (t, next), (t.insertAllLogged (numbered next f.leaves)).records⟩ := by
  induction f generalizing t next with
  | var name =>
      refine Logged.eq_of rfl ?_
      simp [fileLeavesLogged, numbered, NameTable.insertAllLogged]
  | not f ih => exact ih t next
  | binary op f g ihf ihg =>
      refine Logged.eq_of ?_ ?_
      · rw [fileLeavesLogged, ihf, Logged.value_bind, fileLeaves, fileLeaves_eq f, ihg]
      · rw [fileLeavesLogged, ihf, Logged.records_bind, fileLeaves_eq f, ihg, leaves_binary,
          numbered_append, NameTable.records_insertAllLogged_append]

/-- The table of names of a formula, found by a walk through its tree. -/
def walkLogged (f : Formula) : Logged NameTable := do
  let (t, _) ← f.fileLeavesLogged (.empty, 0)
  Logged.emit (.collected t.size)
  pure t

/-- The walk through a tree leaves the records of its table of names. -/
theorem walkLogged_eq (f : Formula) : f.walkLogged = f.nameTableLogged := by
  have hnumbered : numbered 0 f.leaves = f.occurrences := by
    simp only [numbered, Nat.zero_add]
    rfl
  refine Logged.eq_of ?_ ?_
  · rw [walkLogged, fileLeavesLogged_eq, value_nameTableLogged, nameTable_eq_fileLeaves]
    rfl
  · rw [walkLogged, fileLeavesLogged_eq, nameTableLogged, hnumbered, fileLeaves_eq, hnumbered]
    simp

end Formula

/-! ### Rows -/

/-- The values of a formula for all codes that are left, with a record of each of them. -/
def Cursor.rowsLogged (root : Formula) (c : Cursor) :
    Logged { rows : List Bool // rows.length = c.remaining } :=
  match h : c.next with
  | (none, _) => pure ⟨[], by
      have hnone : ¬ c.next.1.isSome := by simp [h]
      rw [isSome_next_iff] at hnone
      exact (Nat.eq_zero_of_not_pos hnone).symm⟩
  | (some a, after) => do
      have hsome : 0 < c.remaining := (isSome_next_iff c).1 (by simp [h])
      have hafter : after.remaining = c.remaining - 1 := by rw [← remaining_next, h]
      let value := root.eval a.bindings.value
      Logged.emit (.row a.code value)
      let rows ← after.rowsLogged root
      pure ⟨value :: rows.1, by rw [List.length_cons, rows.2, hafter]; omega⟩
termination_by c.remaining
decreasing_by omega

theorem Cursor.rowsLogged_of_le {c : Cursor} (h : c.stop ≤ c.code) (root : Formula) :
    (c.rowsLogged root).value.1 = [] ∧ (c.rowsLogged root).records = [] := by
  rw [rowsLogged]
  split
  · exact ⟨rfl, rfl⟩
  · next heq => rw [next_of_le h] at heq; simp at heq

/-- The row of the next code comes before those of the codes after it, and so does its record. -/
theorem Cursor.rowsLogged_of_lt {c : Cursor} (h : c.code < c.stop) (root : Formula) :
    (c.rowsLogged root).value.1 = root.eval (c.table.bind c.code).value ::
      (rowsLogged root ⟨c.table, c.code + 1, c.stop, h⟩).value.1 ∧
    (c.rowsLogged root).records = .row c.code (root.eval (c.table.bind c.code).value) ::
      (rowsLogged root ⟨c.table, c.code + 1, c.stop, h⟩).records := by
  rw [rowsLogged]
  split
  · next heq => rw [next_of_lt h] at heq; simp at heq
  · next heq =>
      rw [next_of_lt h] at heq
      cases heq
      refine ⟨rfl, ?_⟩
      simp [NameTable.assignment]

/-- From every place on, the walk finds the values for the codes that are left, in order, and
records each with its code. -/
theorem Cursor.rowsLogged_spec (root : Formula) {left : Nat} {c : Cursor}
    (h : c.remaining = left) :
    (c.rowsLogged root).value.1 =
      (List.range' c.code left).map (fun code => root.eval (c.table.bind code).value) ∧
    (c.rowsLogged root).records =
      (List.range' c.code left).map fun code =>
        .row code (root.eval (c.table.bind code).value) := by
  induction left generalizing c with
  | zero => exact rowsLogged_of_le (Nat.le_of_sub_eq_zero h) root
  | succ left ih =>
      have hlt : c.code < c.stop := by
        simp only [remaining] at h
        omega
      have hafter : remaining ⟨c.table, c.code + 1, c.stop, hlt⟩ = left := by
        simp only [remaining] at h ⊢
        omega
      obtain ⟨hvalue, hrecords⟩ := rowsLogged_of_lt hlt root
      obtain ⟨ihvalue, ihrecords⟩ := ih hafter
      rw [hvalue, hrecords, ihvalue, ihrecords]
      exact ⟨rfl, rfl⟩

namespace TruthTable

/-- The truth table of a formula, found by a walk through the codes. -/
def walkLogged (t : NameTable) (root : Formula) (policy : WidthPolicy) :
    Logged (Except TooManyNames TruthTable) :=
  match BitWidth.ofCount t.size policy with
  | .error e => pure (.error e)
  | .ok width => do
      Logged.emit (.tabulating t.size policy width)
      let rows ← (Cursor.start t width).rowsLogged root
      pure (.ok ⟨width, rows.1, rows.2⟩)

theorem mapIdx_row_range (value : Nat → Bool) (n : Nat) :
    ((List.range n).map value).mapIdx Record.row =
      (List.range n).map fun code => .row code (value code) := by
  refine List.ext_getElem (by simp) ?_
  intro i h₁ h₂
  simp

/-- The walk through the codes leaves the records of the truth table. -/
theorem walkLogged_eq (t : NameTable) (root : Formula) (policy : WidthPolicy) :
    walkLogged t root policy = buildLogged t root policy := by
  unfold walkLogged buildLogged
  cases hwidth : BitWidth.ofCount t.size policy with
  | error e =>
      have hbuild : build t root policy = .error e := by rw [build, hwidth]
      rw [hbuild]
      rfl
  | ok width =>
      obtain ⟨tt, htt⟩ : ∃ tt, build t root policy = .ok tt := ⟨_, by rw [build, hwidth]⟩
      obtain rfl : width = tt.width := by
        rw [width_of_build htt, Except.ok.injEq] at hwidth
        exact hwidth.symm
      obtain ⟨hrows, hrecords⟩ := Cursor.rowsLogged_spec root (Cursor.remaining_start t tt.width)
      have hcode : (Cursor.start t tt.width).code = 0 := rfl
      have htable : (Cursor.start t tt.width).table = t := rfl
      rw [hcode, htable, ← List.range_eq_range'] at hrows hrecords
      rw [htt]
      refine Logged.eq_of ?_ ?_
      · simp only [Logged.value_bind, Logged.value_pure]
        exact congrArg Except.ok (TruthTable.ext rfl (hrows.trans (rows_of_build htt).symm))
      · simp only [Logged.records_bind, Logged.records_emit, Logged.records_pure, hrecords,
          rows_of_build htt, mapIdx_row_range, List.append_nil, List.singleton_append]

end TruthTable

/-! ### Runs -/

/-- A run over a text that walks through the tree and through the codes. -/
def executeStepwise (text : String) (style : TreeStyle) (policy : WidthPolicy) :
    Logged Outcome :=
  match Formula.parse text with
  | .error e => pure (.ofParseError e)
  | .ok root => do
      Logged.emit (.parsed root.size root.depth)
      let names ← root.walkLogged
      let table ← TruthTable.walkLogged names root policy
      pure (.ofReport ⟨root, names, table, style⟩)

/-- **A run leaves its records step by step**: it is the run that walks, with the same outcome and
the same records. -/
theorem executeStepwise_eq (text : String) (style : TreeStyle) (policy : WidthPolicy) :
    executeStepwise text style policy = execute text style policy := by
  unfold executeStepwise execute
  cases Formula.parse text with
  | error e => rfl
  | ok root => simp only [Formula.walkLogged_eq, TruthTable.walkLogged_eq]

end BoolLut
