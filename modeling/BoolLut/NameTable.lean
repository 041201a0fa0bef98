/-
**The names of a formula and where they occur.**

A table of names is filled one occurrence at a time.  A name gets its place when it is first met,
and keeps it; every occurrence is listed under its name, in the order in which it came.  The place
of a name is what later decides which bit of a code gives its value, so the order of a table is
part of its meaning.

Main definitions:

* `BoolLut.NameTable.Entry` — a name and the numbers of the leaves at which it occurs;
* `BoolLut.NameTable` — entries with pairwise different names;
* `BoolLut.NameTable.insert`, `BoolLut.NameTable.ofList` — one more occurrence, and all of a list;
* `BoolLut.NameTable.position?`, `BoolLut.NameTable.contains`, `BoolLut.NameTable.sites?` — looking
  a text up;
* `BoolLut.Formula.nameTable` — the table of a formula.

Main results:

* `BoolLut.NameTable.names_insert` — a name that is known keeps the list of names as it is, and a
  new one comes last.
-/

import BoolLut.Formula.Basic

set_option relaxedAutoImplicit false
set_option autoImplicit false

namespace BoolLut

namespace NameTable

/-! ### Entries -/

/-- A name and the leaves at which it occurs, in the order in which they were met. -/
structure Entry where
  /-- The name. -/
  name : Name
  /-- The numbers of the leaves. -/
  sites : List Nat
  /-- A name is listed because it occurs. -/
  sites_ne_nil : sites ≠ []
deriving DecidableEq

/-- The entry of a name that is met for the first time. -/
def Entry.first (o : Occurrence) : Entry := ⟨o.name, [o.site], by simp⟩

/-- One more leaf with the same name. -/
def Entry.again (e : Entry) (site : Nat) : Entry := ⟨e.name, e.sites ++ [site], by simp⟩

@[simp] theorem Entry.name_first (o : Occurrence) : (Entry.first o).name = o.name := rfl

@[simp] theorem Entry.sites_first (o : Occurrence) : (Entry.first o).sites = [o.site] := rfl

@[simp] theorem Entry.name_again (e : Entry) (site : Nat) : (e.again site).name = e.name := rfl

@[simp] theorem Entry.sites_again (e : Entry) (site : Nat) :
    (e.again site).sites = e.sites ++ [site] := rfl

/-- Files an occurrence under its name: behind the sites that are there already, or in a new entry
at the end. -/
def file (o : Occurrence) : List Entry → List Entry
  | [] => [.first o]
  | e :: es => if e.name = o.name then e.again o.site :: es else e :: file o es

@[simp] theorem file_nil (o : Occurrence) : file o [] = [.first o] := rfl

theorem file_cons (o : Occurrence) (e : Entry) (es : List Entry) :
    file o (e :: es) = if e.name = o.name then e.again o.site :: es else e :: file o es := rfl

/-- Filing under a known name leaves the names as they are, and a new name comes last. -/
theorem map_name_file (o : Occurrence) (es : List Entry) :
    (file o es).map Entry.name =
      if o.name ∈ es.map Entry.name then es.map Entry.name else es.map Entry.name ++ [o.name] := by
  induction es with
  | nil => simp
  | cons e es ih =>
      by_cases h : e.name = o.name
      · simp [file_cons, h]
      · have h' : ¬ o.name = e.name := fun heq => h heq.symm
        simp only [file_cons, h, if_false, List.map_cons, ih, List.mem_cons, h', false_or]
        split <;> simp

end NameTable

/-! ### Tables -/

/-- The names met so far, in the order of their first occurrences, with all their occurrences. -/
structure NameTable where
  /-- The entries, in order. -/
  entries : List NameTable.Entry
  /-- No name has two entries. -/
  names_nodup : (entries.map NameTable.Entry.name).Nodup
deriving DecidableEq

namespace NameTable

/-- The table before anything was met. -/
def empty : NameTable := ⟨[], by simp⟩

instance : Inhabited NameTable := ⟨empty⟩

/-- The names, in order. -/
def names (t : NameTable) : List Name := t.entries.map Entry.name

/-- The number of names. -/
def size (t : NameTable) : Nat := t.entries.length

/-- Whether there are no names. -/
def isEmpty (t : NameTable) : Bool := t.entries.isEmpty

@[simp] theorem length_names (t : NameTable) : t.names.length = t.size := by
  simp [names, size]

@[simp] theorem names_empty : empty.names = [] := rfl

/-- The table after one more occurrence. -/
def insert (t : NameTable) (o : Occurrence) : NameTable where
  entries := file o t.entries
  names_nodup := by
    rw [map_name_file]
    split
    · exact t.names_nodup
    · next h =>
        rw [List.nodup_append]
        refine ⟨t.names_nodup, by simp, ?_⟩
        rintro a ha b hb rfl
        rw [List.mem_singleton] at hb
        exact h (hb ▸ ha)

/-- A known name leaves the names as they are, and a new one comes last. -/
theorem names_insert (t : NameTable) (o : Occurrence) :
    (t.insert o).names = if o.name ∈ t.names then t.names else t.names ++ [o.name] :=
  map_name_file o t.entries

/-- The table after all occurrences of a list, in order. -/
def ofList (os : List Occurrence) : NameTable := os.foldl insert empty

/-! ### Looking up -/

/-- The place of the name with this text, counted from zero. -/
def position? (t : NameTable) (text : String) : Option Nat :=
  t.entries.findIdx? fun e => e.name.text == text

/-- The entry of the name with this text. -/
def find? (t : NameTable) (text : String) : Option Entry :=
  t.entries.find? fun e => e.name.text == text

/-- Whether there is a name with this text. -/
def contains (t : NameTable) (text : String) : Bool := (t.find? text).isSome

/-- The leaves at which the name with this text occurs. -/
def sites? (t : NameTable) (text : String) : Option (List Nat) := (t.find? text).map Entry.sites

/-- Every name with the number of its occurrences. -/
def counts (t : NameTable) : List (Name × Nat) :=
  t.entries.map fun e => (e.name, e.sites.length)

end NameTable

/-- The table of all leaves of a formula, taken from left to right. -/
def Formula.nameTable (f : Formula) : NameTable := .ofList f.occurrences

end BoolLut
