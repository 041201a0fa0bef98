/-
**A table of names with an index.**

A table of names finds the entry of a name by going through its entries.  A table with an *index*
keeps the place of each name beside the entries and looks there instead, so that an occurrence of a
known name is filed at the place that the index gives; it must then be certain that there is an
entry at that place.  This module files occurrences in this way, with the step checked, and shows
that the entries are those of the table without an index and that the index gives their places.

Main definitions:

* `BoolLut.IndexedTable`, `BoolLut.IndexedTable.insert`, `BoolLut.IndexedTable.insertAll` — entries
  with an index, one more occurrence, and all of a list;
* `BoolLut.IndexedTable.Represents` — the entries and places are those of a table of names.

Main results:

* `BoolLut.NameTable.position?_insert` — where the names of a table stand after one more occurrence;
* `BoolLut.IndexedTable.insert_eq_ok` — **the index never points beyond the entries**, and filing an
  occurrence keeps entries and index in step;
* `BoolLut.IndexedTable.insertAll_eq_ok` — the same for a list of occurrences.
-/

import BoolLut.NameTable
import BoolLut.Proofs.Checks

set_option relaxedAutoImplicit false
set_option autoImplicit false

namespace BoolLut

/-! ### Places in a table of names -/

namespace NameTable

/-- The place of a name depends on the names alone. -/
theorem position?_eq (t : NameTable) (text : String) :
    t.position? text = t.names.findIdx? fun n => n.text == text := by
  rw [position?, names, List.findIdx?_map]
  rfl

/-- A text has no place exactly when it is no name's. -/
theorem position?_eq_none_iff {t : NameTable} {n : Name} :
    t.position? n.text = none ↔ n ∉ t.names := by
  rw [position?_eq, List.findIdx?_eq_none_iff]
  constructor
  · intro h hn
    simpa using h n hn
  · intro h m hm
    rw [beq_eq_false_iff_ne]
    intro htext
    exact h (Name.ext htext ▸ hm)

/-- Names keep their places, and a new one comes last. -/
theorem position?_insert (t : NameTable) (o : Occurrence) (text : String) :
    (t.insert o).position? text =
      if o.name ∈ t.names then t.position? text
      else (t.position? text).or (if o.name.text = text then some t.size else none) := by
  rw [position?_eq, names_insert]
  split
  · rw [position?_eq]
  · rw [List.findIdx?_append, ← position?_eq, length_names]
    congr 1
    by_cases h : o.name.text = text
    · simp [h]
    · simp [h]

/-- What an entry holds. -/
def Entry.pair (e : Entry) : Name × List Nat := (e.name, e.sites)

theorem file_of_position {o : Occurrence} {es : List Entry} {i : Nat}
    (h : es.findIdx? (fun e => e.name.text == o.name.text) = some i) :
    i < es.length ∧ (file o es).map Entry.pair =
      (es.map Entry.pair).modify i fun p => (p.1, p.2 ++ [o.site]) := by
  induction es generalizing i with
  | nil => simp at h
  | cons e es ih =>
      rw [List.findIdx?_cons] at h
      by_cases hname : e.name = o.name
      · have hzero : i = 0 := by simpa [hname] using h.symm
        rw [hzero, file_cons, if_pos hname]
        exact ⟨Nat.succ_pos _, rfl⟩
      · have htext : (e.name.text == o.name.text) = false := by
          rw [beq_eq_false_iff_ne]
          exact fun htext => hname (Name.ext htext)
        simp only [htext, Bool.false_eq_true, if_false, Option.map_eq_some_iff] at h
        obtain ⟨j, hj, rfl⟩ := h
        obtain ⟨hlt, hfile⟩ := ih hj
        rw [file_cons, if_neg hname, List.map_cons, hfile]
        exact ⟨Nat.succ_lt_succ hlt, rfl⟩

theorem file_of_not_mem {o : Occurrence} {es : List Entry} (h : o.name ∉ es.map Entry.name) :
    file o es = es ++ [.first o] := by
  induction es with
  | nil => rfl
  | cons e es ih =>
      rw [List.map_cons, List.mem_cons, not_or] at h
      rw [file_cons, if_neg fun heq => h.1 heq.symm, ih h.2, List.cons_append]

end NameTable

/-! ### Entries with an index -/

/-- Names with the leaves at which they occur, and the place of each name among them. -/
structure IndexedTable where
  /-- The names with their leaves, in order. -/
  entries : List (Name × List Nat)
  /-- The place of each name. -/
  index : List (String × Nat)

namespace IndexedTable

open Checked

/-- The table before anything was met. -/
def empty : IndexedTable := ⟨[], []⟩

/-- Files an occurrence where the index says, or in a new entry if the index does not know it. -/
def insert (x : IndexedTable) (o : Occurrence) : Except Breach IndexedTable :=
  match x.index.lookup o.name.text with
  | some i => do
      require (i < x.entries.length) .noEntry
      return { x with entries := x.entries.modify i fun p => (p.1, p.2 ++ [o.site]) }
  | none =>
      return ⟨x.entries ++ [(o.name, [o.site])], (o.name.text, x.entries.length) :: x.index⟩

/-- Files all occurrences of a list in order. -/
def insertAll (x : IndexedTable) : List Occurrence → Except Breach IndexedTable
  | [] => return x
  | o :: os => do
      let x ← x.insert o
      x.insertAll os

/-- The entries are those of a table of names, and the index gives their places. -/
structure Represents (x : IndexedTable) (t : NameTable) : Prop where
  entries_eq : x.entries = t.entries.map NameTable.Entry.pair
  lookup_eq : ∀ text, x.index.lookup text = t.position? text

theorem represents_empty : empty.Represents .empty := ⟨rfl, fun _ => rfl⟩

variable {x : IndexedTable} {t : NameTable}

theorem Represents.length_entries (h : x.Represents t) : x.entries.length = t.size := by
  rw [h.entries_eq, List.length_map]
  rfl

/-- There is an entry at the place that the index gives, and filing an occurrence keeps entries and
index in step. -/
theorem insert_eq_ok (h : x.Represents t) (o : Occurrence) :
    ∃ y, x.insert o = .ok y ∧ y.Represents (t.insert o) := by
  unfold insert
  rw [h.lookup_eq]
  cases hplace : t.position? o.name.text with
  | some i =>
      obtain ⟨hlt, hfile⟩ := NameTable.file_of_position hplace
      have hmem : o.name ∈ t.names := by
        refine Decidable.byContradiction fun hnot => ?_
        rw [NameTable.position?_eq_none_iff.2 hnot] at hplace
        simp at hplace
      have hentry : i < x.entries.length := by
        rw [h.length_entries]
        exact hlt
      simp only
      rw [require_eq_ok hentry]
      refine ⟨_, rfl, ?_, fun text => ?_⟩
      · exact (congrArg (List.modify · i _) h.entries_eq).trans hfile.symm
      · rw [NameTable.position?_insert, if_pos hmem]
        exact h.lookup_eq text
  | none =>
      have hnot := NameTable.position?_eq_none_iff.1 hplace
      refine ⟨_, rfl, ?_, fun text => ?_⟩
      · rw [h.entries_eq]
        change _ = (NameTable.file o t.entries).map _
        rw [NameTable.file_of_not_mem hnot, List.map_append]
        rfl
      · rw [NameTable.position?_insert, if_neg hnot, List.lookup_cons, h.length_entries]
        by_cases htext : o.name.text = text
        · rw [← htext, hplace]
          simp
        · have hne : (text == o.name.text) = false := by
            rw [beq_eq_false_iff_ne]
            exact fun heq => htext heq.symm
          simp [hne, htext, h.lookup_eq]

/-- Filing the occurrences of a list never fails. -/
theorem insertAll_eq_ok (h : x.Represents t) (os : List Occurrence) :
    ∃ y, x.insertAll os = .ok y ∧ y.Represents (os.foldl NameTable.insert t) := by
  induction os generalizing x t with
  | nil => exact ⟨x, rfl, h⟩
  | cons o os ih =>
      obtain ⟨y, hy, hrepresents⟩ := insert_eq_ok h o
      obtain ⟨z, hz, hz'⟩ := ih hrepresents
      exact ⟨z, by rw [insertAll, hy]; exact hz, hz'⟩

end IndexedTable

end BoolLut
