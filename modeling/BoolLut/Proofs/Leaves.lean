/-
**The leaves of a formula in its table of names.**

The table of a formula is filled by a walk through the tree, left side before right, which files
every leaf that it meets under its name.  A leaf is told apart from every other leaf, also from one
with the same name, by its number, and the number stands for one node: the way down to it from the
root.  The entries of the table divide the leaves among them, so that no leaf is missing, none is
listed twice, and every leaf is listed under its own name.

Main definitions:

* `BoolLut.Turn`, `BoolLut.Formula.subformula?` — ways down a tree, and what stands at their ends;
* `BoolLut.Formula.leafNodes` — the leaves from left to right, each with the way down to it;
* `BoolLut.Formula.fileLeaves` — the walk that files the leaves, from any table on;
* `BoolLut.Formula.binaries` — the number of connectives.

Main results:

* `BoolLut.Formula.mem_leafNodes_iff`, `BoolLut.Formula.nodup_leafNodes` — the numbers of the
  leaves stand for the nodes at which a variable is, each for one;
* `BoolLut.Formula.fileLeaves_eq` — the walk files the leaves in the order of their numbers;
* `BoolLut.NameTable.sites?_ofList` — what a table holds for a name;
* `BoolLut.Formula.nameTable_partitions_leaves` — **the table divides the leaves of the formula
  among the names**.
-/

import BoolLut.Proofs.Multimap

set_option relaxedAutoImplicit false
set_option autoImplicit false

namespace BoolLut

/-! ### Nodes -/

/-- One step down a tree. -/
inductive Turn where
  /-- To the operand of a negation. -/
  | operand
  /-- To the left side of a connective. -/
  | lhs
  /-- To the right side of a connective. -/
  | rhs
deriving DecidableEq

namespace Formula

/-- The formula at the end of a way down, if the way goes down this tree. -/
def subformula? : Formula → List Turn → Option Formula
  | f, [] => some f
  | not f, .operand :: turns => f.subformula? turns
  | binary _ f _, .lhs :: turns => f.subformula? turns
  | binary _ _ g, .rhs :: turns => g.subformula? turns
  | _, _ :: _ => none

/-- The leaves from left to right, each with the way down to it. -/
def leafNodes : Formula → List (List Turn × Name)
  | var name => [([], name)]
  | not f => f.leafNodes.map fun p => (.operand :: p.1, p.2)
  | binary _ f g =>
      (f.leafNodes.map fun p => (.lhs :: p.1, p.2)) ++ g.leafNodes.map fun p => (.rhs :: p.1, p.2)

/-- The nodes at the leaves have the names of the leaves. -/
@[simp] theorem map_snd_leafNodes (f : Formula) : f.leafNodes.map Prod.snd = f.leaves := by
  induction f with
  | var name => rfl
  | not f ih => simpa [leafNodes, Function.comp_def] using ih
  | binary op f g ihf ihg => simp [leafNodes, Function.comp_def, ← ihf, ← ihg]

/-- A leaf is a node at which a variable stands. -/
theorem mem_leafNodes_iff {f : Formula} {turns : List Turn} {name : Name} :
    (turns, name) ∈ f.leafNodes ↔ f.subformula? turns = some (.var name) := by
  induction f generalizing turns with
  | var m =>
      cases turns with
      | nil => simp [leafNodes, subformula?, eq_comm]
      | cons turn turns => simp [leafNodes, subformula?]
  | not f ih =>
      rcases turns with _ | ⟨_ | _ | _, turns⟩ <;> simp [leafNodes, subformula?, ih]
  | binary op f g ihf ihg =>
      rcases turns with _ | ⟨_ | _ | _, turns⟩ <;> simp [leafNodes, subformula?, ihf, ihg]

/-- No two leaves are the same node. -/
theorem nodup_leafNodes (f : Formula) : (f.leafNodes.map Prod.fst).Nodup := by
  induction f with
  | var name => simp [leafNodes]
  | not f ih =>
      have hoperand := ih.map (List.cons_injective (a := Turn.operand))
      simpa [leafNodes, Function.comp_def] using hoperand
  | binary op f g ihf ihg =>
      have hlhs := ihf.map (List.cons_injective (a := Turn.lhs))
      have hrhs := ihg.map (List.cons_injective (a := Turn.rhs))
      rw [List.map_map] at hlhs hrhs
      simp only [leafNodes, List.map_append, List.map_map]
      refine List.nodup_append.2 ⟨hlhs, hrhs, ?_⟩
      intro turns hturns turns' hturns'
      obtain ⟨p, -, rfl⟩ := List.mem_map.1 hturns
      obtain ⟨q, -, rfl⟩ := List.mem_map.1 hturns'
      simp

/-- The number of connectives. -/
def binaries : Formula → Nat
  | var _ => 0
  | not f => f.binaries
  | binary _ f g => 1 + f.binaries + g.binaries

/-- There is one leaf more than there are connectives. -/
theorem length_leaves (f : Formula) : f.leaves.length = f.binaries + 1 := by
  induction f with
  | var name => rfl
  | not f ih => exact ih
  | binary op f g ihf ihg =>
      simp only [leaves_binary, List.length_append, binaries]
      omega

/-! ### The walk -/

/-- Files the leaves of a formula in a table, numbered from the given number on, and gives the
number after the last. -/
def fileLeaves : Formula → NameTable × Nat → NameTable × Nat
  | var name, (t, next) => (t.insert ⟨name, next⟩, next + 1)
  | not f, s => f.fileLeaves s
  | binary _ f g, s => g.fileLeaves (f.fileLeaves s)

/-- Names numbered from `next` on, as occurrences. -/
def numbered (next : Nat) (names : List Name) : List Occurrence :=
  names.mapIdx fun i name => ⟨name, next + i⟩

theorem numbered_append (next : Nat) (names more : List Name) :
    numbered next (names ++ more) = numbered next names ++ numbered (next + names.length) more := by
  simp [numbered, List.mapIdx_append, Nat.add_assoc, Nat.add_comm names.length]

/-- The walk files the leaves in the order of their numbers, whatever the table held before. -/
theorem fileLeaves_eq (f : Formula) (t : NameTable) (next : Nat) :
    f.fileLeaves (t, next) =
      ((numbered next f.leaves).foldl NameTable.insert t, next + f.leaves.length) := by
  induction f generalizing t next with
  | var name => rfl
  | not f ih => exact ih t next
  | binary op f g ihf ihg =>
      rw [fileLeaves, ihf, ihg, leaves_binary, numbered_append, List.foldl_append,
        List.length_append, Nat.add_assoc]

/-- The table of a formula is what the walk makes of the table without names. -/
theorem nameTable_eq_fileLeaves (f : Formula) : f.nameTable = (f.fileLeaves (.empty, 0)).1 := by
  rw [fileLeaves_eq]
  simp only [numbered, Nat.zero_add]
  rfl

/-! ### The leaves of a name -/

theorem map_site_occurrences (f : Formula) :
    f.occurrences.map Occurrence.site = List.range f.leaves.length := by
  refine List.ext_getElem (by simp) ?_
  intro i h₁ h₂
  simp [occurrences]

theorem mem_occurrences_iff {f : Formula} {o : Occurrence} :
    o ∈ f.occurrences ↔ f.leaves[o.site]? = some o.name := by
  rw [occurrences, List.mem_mapIdx]
  constructor
  · rintro ⟨i, hi, rfl⟩
    exact List.getElem?_eq_getElem hi
  · intro h
    obtain ⟨hi, hname⟩ := List.getElem?_eq_some_iff.1 h
    exact ⟨o.site, hi, by rw [hname]⟩

/-- The leaves of a name are those leaves at which the name stands. -/
theorem mem_sitesOf_occurrences_iff {f : Formula} {name : Name} {i : Nat} :
    i ∈ sitesOf name f.occurrences ↔ f.leaves[i]? = some name := by
  simp only [sitesOf, List.mem_map, List.mem_filter, decide_eq_true_eq, mem_occurrences_iff]
  constructor
  · rintro ⟨o, ⟨ho, rfl⟩, rfl⟩
    exact ho
  · intro h
    exact ⟨⟨name, i⟩, ⟨h, rfl⟩, rfl⟩

/-- They come from left to right. -/
theorem pairwise_sitesOf_occurrences (f : Formula) (name : Name) :
    (sitesOf name f.occurrences).Pairwise (· < ·) := by
  have hsorted : (f.occurrences.map Occurrence.site).Pairwise (· < ·) := by
    rw [map_site_occurrences]
    exact List.pairwise_lt_range
  exact hsorted.sublist (List.filter_sublist.map Occurrence.site)

end Formula

namespace NameTable

/-- A table that holds the occurrences of a list has all leaves of a name, and no entry for any
other text. -/
theorem sites?_ofList (os : List Occurrence) (text : String) :
    (ofList os).sites? text =
      ((os.map Occurrence.name).eraseDups.find? fun name => name.text == text).map
        fun name => sitesOf name os := by
  rw [sites?_eq, pairs_ofList, gather, List.find?_map, Option.map_map]
  rfl

theorem sites?_eq_none_iff {os : List Occurrence} {text : String} :
    (ofList os).sites? text = none ↔ ∀ name ∈ os.map Occurrence.name, name.text ≠ text := by
  simp [sites?_ofList]

theorem sites?_eq_some {os : List Occurrence} {text : String} {sites : List Nat}
    (h : (ofList os).sites? text = some sites) :
    ∃ name, name.text = text ∧ sites = sitesOf name os := by
  rw [sites?_ofList, Option.map_eq_some_iff] at h
  obtain ⟨name, hname, rfl⟩ := h
  have htext := List.find?_some hname
  exact ⟨name, beq_iff_eq.1 htext, rfl⟩

theorem sites_occurrences (e : Entry) : e.occurrences.map Occurrence.site = e.sites := by
  simp [Entry.occurrences, Function.comp_def]

/-- The entries of a table have the leaves of all occurrences. -/
theorem sites_ofList_perm (os : List Occurrence) :
    ((ofList os).entries.flatMap Entry.sites).Perm (os.map Occurrence.site) := by
  have hperm := (occurrences_ofList_perm os).map Occurrence.site
  rw [List.map_flatMap] at hperm
  simpa only [sites_occurrences] using hperm

/-- The counts of a table add up to the number of all occurrences. -/
theorem sum_counts_ofList (os : List Occurrence) :
    ((ofList os).counts.map Prod.snd).sum = os.length := by
  have hcounts : (ofList os).counts.map Prod.snd =
      (ofList os).entries.map fun e => e.sites.length := by
    rw [counts, List.map_map]
    rfl
  rw [hcounts, ← List.length_flatMap, (sites_ofList_perm os).length_eq, List.length_map]

/-- The place of a text is its place among the texts of the names. -/
theorem position?_eq_idxOf? (t : NameTable) (text : String) :
    t.position? text = (t.names.map Name.text).idxOf? text := by
  rw [position?_eq, List.idxOf?, List.findIdx?_map]
  rfl

end NameTable

/-- **The table of a formula divides its leaves among the names.**  It is what the walk through the
tree makes of the table without names.  The numbers of the leaves stand for the nodes at which a
variable is, each for one.  The names are those at the leaves, in the order of their first
occurrences, and a text has the place that it has among them.  A text has no leaves in the table
exactly if no leaf has it, and otherwise has those leaves at which it stands, from left to right.
All entries together have every leaf once, so that the counts add up to one more than the number of
connectives. -/
theorem Formula.nameTable_partitions_leaves (f : Formula) :
    f.nameTable = (f.fileLeaves (.empty, 0)).1 ∧
    (f.leafNodes.map Prod.fst).Nodup ∧
    (∀ turns name, (turns, name) ∈ f.leafNodes ↔ f.subformula? turns = some (.var name)) ∧
    f.nameTable.names = (f.leafNodes.map Prod.snd).eraseDups ∧
    (∀ text, f.nameTable.position? text = (f.nameTable.names.map Name.text).idxOf? text) ∧
    (∀ text, f.nameTable.sites? text = none ↔ ∀ p ∈ f.leafNodes, p.2.text ≠ text) ∧
    (∀ text sites, f.nameTable.sites? text = some sites → sites.Pairwise (· < ·) ∧
      ∀ i, i ∈ sites ↔ ∃ turns name, f.leafNodes[i]? = some (turns, name) ∧ name.text = text) ∧
    (f.nameTable.entries.flatMap NameTable.Entry.sites).Perm (List.range f.leafNodes.length) ∧
    (f.nameTable.counts.map Prod.snd).sum = f.binaries + 1 := by
  have hleaves := f.map_snd_leafNodes
  have hlength : f.leafNodes.length = f.leaves.length := by rw [← hleaves, List.length_map]
  refine ⟨f.nameTable_eq_fileLeaves, f.nodup_leafNodes, fun _ _ => mem_leafNodes_iff, ?_,
    f.nameTable.position?_eq_idxOf?, ?_, ?_, ?_, ?_⟩
  · rw [hleaves, f.names_nameTable]
  · intro text
    rw [nameTable, NameTable.sites?_eq_none_iff, map_name_occurrences, ← hleaves,
      List.forall_mem_map]
  · intro text sites hsites
    obtain ⟨name, rfl, rfl⟩ := NameTable.sites?_eq_some hsites
    refine ⟨f.pairwise_sitesOf_occurrences name, fun i => ?_⟩
    rw [mem_sitesOf_occurrences_iff, ← hleaves, List.getElem?_map, Option.map_eq_some_iff]
    constructor
    · rintro ⟨⟨turns, m⟩, hnode, rfl⟩
      exact ⟨turns, m, hnode, rfl⟩
    · rintro ⟨turns, m, hnode, htext⟩
      exact ⟨_, hnode, Name.ext htext⟩
  · rw [hlength, ← f.map_site_occurrences]
    exact NameTable.sites_ofList_perm f.occurrences
  · rw [nameTable, NameTable.sum_counts_ofList, f.length_occurrences, f.length_leaves]

end BoolLut
