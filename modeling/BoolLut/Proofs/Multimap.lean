/-
**A table of names is an ordered multimap.**

What a table of names holds after any number of occurrences can be said without the table: each
name that was met, in the order of the first occurrences, with all its leaves in the order in which
they came.  Entries and index are two ways to keep this one list, and every question that can be
asked of a table is a question about the list.

Main definitions:

* `BoolLut.sitesOf`, `BoolLut.gather` — the leaves of one name among some occurrences, and those of
  all names;
* `BoolLut.NameTable.Entry.occurrences` — the occurrences that an entry stands for;
* `BoolLut.Answers` — what a table answers, with `BoolLut.Answers.ofPairs`,
  `BoolLut.NameTable.answers` and `BoolLut.IndexedTable.answers`;
* `BoolLut.IndexedTable.InStep` — entries and index are in step, and hold given occurrences;
* `BoolLut.IndexedTable.Extends` — one table comes from another by one more occurrence.

Main results:

* `BoolLut.NameTable.pairs_insert`, `BoolLut.NameTable.pairs_ofList` — what one more occurrence
  does to a table, and what a table holds after all occurrences of a list;
* `BoolLut.NameTable.occurrences_ofList_perm` — **no occurrence is lost and none is made up**;
* `BoolLut.IndexedTable.multimap_of_insertAll` — **every table that can be reached is in step and
  answers as the ordered multimap of the occurrences**.
-/

import Mathlib.Data.List.Induction
import BoolLut.Proofs.Codes
import BoolLut.Proofs.IndexedTable

set_option relaxedAutoImplicit false
set_option autoImplicit false

namespace BoolLut

/-! ### Occurrences gathered by name -/

/-- The leaves at which a name occurs, in the order in which they come. -/
def sitesOf (name : Name) (os : List Occurrence) : List Nat :=
  (os.filter fun o => o.name = name).map Occurrence.site

@[simp] theorem sitesOf_nil (name : Name) : sitesOf name [] = [] := rfl

@[simp] theorem sitesOf_append (name : Name) (os ps : List Occurrence) :
    sitesOf name (os ++ ps) = sitesOf name os ++ sitesOf name ps := by
  simp [sitesOf]

theorem sitesOf_singleton (name : Name) (o : Occurrence) :
    sitesOf name [o] = if o.name = name then [o.site] else [] := by
  unfold sitesOf
  split
  · next h => simp [h]
  · next h => simp [h]

/-- A name has no leaves exactly when it does not occur. -/
theorem sitesOf_eq_nil_iff {name : Name} {os : List Occurrence} :
    sitesOf name os = [] ↔ name ∉ os.map Occurrence.name := by
  simp [sitesOf, List.filter_eq_nil_iff]

/-- A name has as many leaves as it has occurrences. -/
theorem length_sitesOf (name : Name) (os : List Occurrence) :
    (sitesOf name os).length = (os.map Occurrence.name).count name := by
  rw [sitesOf, List.length_map, ← List.countP_eq_length_filter, List.count, List.countP_map]
  rfl

/-- The names in the order of their first occurrences, each with all its leaves in order. -/
def gather (os : List Occurrence) : List (Name × List Nat) :=
  (os.map Occurrence.name).eraseDups.map fun name => (name, sitesOf name os)

/-- A pair of a name and its leaves, with the leaf of one more occurrence if it has that name. -/
def extend (o : Occurrence) (p : Name × List Nat) : Name × List Nat := (p.1, p.2 ++ sitesOf p.1 [o])

theorem eraseDups_concat (names : List Name) (n : Name) :
    (names ++ [n]).eraseDups = if n ∈ names then names.eraseDups else names.eraseDups ++ [n] := by
  rw [List.eraseDups_append]
  split
  · next h => simp [List.removeAll, h]
  · next h => simp [List.removeAll, h, List.eraseDups_cons]

/-- One more occurrence adds its leaf to those of its name, or comes last with a new name. -/
theorem gather_concat (os : List Occurrence) (o : Occurrence) :
    gather (os ++ [o]) =
      if o.name ∈ os.map Occurrence.name then (gather os).map (extend o)
      else gather os ++ [(o.name, [o.site])] := by
  unfold gather
  rw [List.map_append, List.map_singleton, eraseDups_concat]
  split
  · rw [List.map_map]
    refine List.map_congr_left fun name _ => ?_
    rw [sitesOf_append]
    rfl
  · next h =>
      -- the leaf of a new name is added to no other name
      have hold : ∀ name ∈ (os.map Occurrence.name).eraseDups,
          (name, sitesOf name (os ++ [o])) = (name, sitesOf name os) := by
        intro name hname
        have hne : o.name ≠ name := by
          rintro rfl
          exact h (List.mem_eraseDups.1 hname)
        rw [sitesOf_append, sitesOf_singleton, if_neg hne, List.append_nil]
      have hnew : sitesOf o.name (os ++ [o]) = [o.site] := by
        rw [sitesOf_append, sitesOf_eq_nil_iff.2 h, sitesOf_singleton, if_pos rfl, List.nil_append]
      rw [List.map_append, List.map_congr_left hold, List.map_singleton, hnew]

namespace NameTable

/-- The occurrences that an entry stands for. -/
def Entry.occurrences (e : Entry) : List Occurrence := e.sites.map fun site => ⟨e.name, site⟩

/-- What the entries of a table hold. -/
def pairs (t : NameTable) : List (Name × List Nat) := t.entries.map Entry.pair

@[simp] theorem map_fst_pairs (t : NameTable) : t.pairs.map Prod.fst = t.names := by
  simp [pairs, names, Entry.pair]

/-! ### Tables of names -/

private theorem pairs_file {o : Occurrence} {es : List Entry} (hnodup : (es.map Entry.name).Nodup)
    (h : o.name ∈ es.map Entry.name) :
    (file o es).map Entry.pair = (es.map Entry.pair).map (extend o) := by
  induction es with
  | nil => simp at h
  | cons e es ih =>
      rw [List.map_cons, List.nodup_cons] at hnodup
      rw [file_cons]
      split
      · next hname =>
          -- the name is not among the later entries, so nothing is added there
          have hrest : (es.map Entry.pair).map (extend o) = es.map Entry.pair := by
            rw [List.map_map]
            refine List.map_congr_left fun d hd => ?_
            have hne : o.name ≠ d.name := by
              intro heq
              rw [hname, heq] at hnodup
              exact hnodup.1 (List.mem_map_of_mem hd)
            simp [extend, Entry.pair, sitesOf_singleton, hne]
          rw [List.map_cons, List.map_cons, List.map_cons, hrest]
          simp [extend, Entry.pair, sitesOf_singleton, hname]
      · next hname =>
          have hmem : o.name ∈ es.map Entry.name := by
            rw [List.map_cons, List.mem_cons] at h
            exact h.resolve_left fun heq => hname heq.symm
          have hne : o.name ≠ e.name := fun heq => hname heq.symm
          rw [List.map_cons, List.map_cons, List.map_cons, ih hnodup.2 hmem]
          simp [extend, Entry.pair, sitesOf_singleton, hne]

/-- One more occurrence adds its leaf to the entry of its name, or makes a new entry at the end. -/
theorem pairs_insert (t : NameTable) (o : Occurrence) :
    (t.insert o).pairs =
      if o.name ∈ t.names then t.pairs.map (extend o) else t.pairs ++ [(o.name, [o.site])] := by
  split
  · next h => exact pairs_file t.names_nodup h
  · next h =>
      change (file o t.entries).map Entry.pair = _
      rw [file_of_not_mem h, List.map_append]
      rfl

/-- No entry goes, and none changes but by the leaf of the occurrence, which comes last. -/
theorem getElem?_pairs_insert {t : NameTable} {i : Nat} {n : Name} {sites : List Nat}
    (h : t.pairs[i]? = some (n, sites)) (o : Occurrence) :
    (t.insert o).pairs[i]? = some (n, if o.name = n then sites ++ [o.site] else sites) := by
  rw [pairs_insert]
  split
  · rw [List.getElem?_map, h, Option.map_some, extend, sitesOf_singleton]
    split
    · rfl
    · rw [List.append_nil]
  · next hnew =>
      have hne : o.name ≠ n := by
        rintro rfl
        rw [← map_fst_pairs] at hnew
        exact hnew (List.mem_map_of_mem (List.mem_of_getElem? h))
      rw [if_neg hne, List.getElem?_append_left (List.getElem?_eq_some_iff.1 h).1, h]

/-- A further entry is made only for a new name, and only for that. -/
theorem length_pairs_insert (t : NameTable) (o : Occurrence) :
    (t.insert o).pairs.length =
      if o.name ∈ t.names then t.pairs.length else t.pairs.length + 1 := by
  rw [pairs_insert]
  split
  · rw [List.length_map]
  · rw [List.length_append, List.length_singleton]

theorem ofList_concat (os : List Occurrence) (o : Occurrence) :
    ofList (os ++ [o]) = (ofList os).insert o := List.foldl_concat ..

/-- A table holds the occurrences of a list gathered by name. -/
theorem pairs_ofList (os : List Occurrence) : (ofList os).pairs = gather os := by
  induction os using List.reverseRecOn with
  | nil => rfl
  | append_singleton os o ih =>
      rw [ofList_concat, pairs_insert, gather_concat, ih, names_ofList]
      simp only [List.mem_eraseDups]

/-- A table counts the leaves that its entries hold. -/
theorem counts_eq_map_pairs (t : NameTable) : t.counts = t.pairs.map fun p => (p.1, p.2.length) := by
  rw [pairs, List.map_map]
  rfl

/-- A table counts how often each name occurs. -/
theorem counts_ofList (os : List Occurrence) :
    (ofList os).counts =
      (os.map Occurrence.name).eraseDups.map fun n => (n, (os.map Occurrence.name).count n) := by
  rw [counts_eq_map_pairs, pairs_ofList, gather, List.map_map]
  simp only [Function.comp_def, length_sitesOf]

/-- One more occurrence is added to those that the entries stand for. -/
theorem occurrences_file_perm (o : Occurrence) (es : List Entry) :
    ((file o es).flatMap Entry.occurrences).Perm (es.flatMap Entry.occurrences ++ [o]) := by
  induction es with
  | nil => rfl
  | cons e es ih =>
      rw [file_cons]
      split
      · next hname =>
          have hagain : (e.again o.site).occurrences = e.occurrences ++ [o] := by
            simp [Entry.occurrences, hname]
          rw [List.flatMap_cons, List.flatMap_cons, hagain, List.append_assoc, List.append_assoc]
          exact List.perm_append_comm.append_left _
      · rw [List.flatMap_cons, List.flatMap_cons, List.append_assoc]
        exact ih.append_left _

/-- No occurrence is lost and none is made up. -/
theorem occurrences_ofList_perm (os : List Occurrence) :
    ((ofList os).entries.flatMap Entry.occurrences).Perm os := by
  induction os using List.reverseRecOn with
  | nil => rfl
  | append_singleton os o ih =>
      rw [ofList_concat]
      exact (occurrences_file_perm o _).trans (ih.append_right [o])

/-- The place of a text is the place of the name that it is the text of. -/
theorem position?_eq_some_iff {t : NameTable} {text : String} {i : Nat} :
    t.position? text = some i ↔ ∃ n, t.names[i]? = some n ∧ n.text = text := by
  rw [position?_eq, List.findIdx?_eq_some_iff_getElem]
  constructor
  · rintro ⟨hi, htext, -⟩
    exact ⟨_, List.getElem?_eq_getElem hi, beq_iff_eq.1 htext⟩
  · rintro ⟨n, hn, rfl⟩
    obtain ⟨hi, rfl⟩ := List.getElem?_eq_some_iff.1 hn
    refine ⟨hi, beq_self_eq_true _, fun j hj htext => ?_⟩
    -- two places of one name would be the same place
    have heq := Name.ext (beq_iff_eq.1 htext)
    have := t.names_nodup.getElem_inj_iff.1 heq
    omega

end NameTable

/-! ### Questions -/

open Checked

/-- Everything that can be asked of a table of names. -/
structure Answers where
  /-- How many names there are. -/
  size : Nat
  /-- Whether there are none. -/
  isEmpty : Bool
  /-- Whether a text is the text of a name. -/
  contains : String → Bool
  /-- The place of the name with a text. -/
  position? : String → Option Nat
  /-- The leaves of the name with a text, unless there is no entry where one should be. -/
  sites? : String → Except Breach (Option (List Nat))
  /-- The names, in order. -/
  names : List Name
  /-- The names with the numbers of their leaves. -/
  counts : List (Name × Nat)
  /-- The names with their leaves. -/
  pairs : List (Name × List Nat)

/-- The answers that a list of names with their leaves gives. -/
def Answers.ofPairs (m : List (Name × List Nat)) : Answers where
  size := m.length
  isEmpty := m.isEmpty
  contains text := m.any fun p => p.1.text == text
  position? text := m.findIdx? fun p => p.1.text == text
  sites? text := .ok ((m.find? fun p => p.1.text == text).map Prod.snd)
  names := m.map Prod.fst
  counts := m.map fun p => (p.1, p.2.length)
  pairs := m

/-- The answers of a table of names. -/
def NameTable.answers (t : NameTable) : Answers where
  size := t.size
  isEmpty := t.isEmpty
  contains := t.contains
  position? := t.position?
  sites? text := .ok (t.sites? text)
  names := t.names
  counts := t.counts
  pairs := t.pairs

/-- The leaves of a text are looked up in what the entries hold. -/
theorem NameTable.sites?_eq (t : NameTable) (text : String) :
    t.sites? text = (t.pairs.find? fun p => p.1.text == text).map Prod.snd := by
  rw [sites?, find?, pairs, List.find?_map, Option.map_map]
  rfl

/-- A table of names answers as the list of what its entries hold. -/
theorem NameTable.answers_eq (t : NameTable) : t.answers = .ofPairs t.pairs := by
  simp only [answers, Answers.ofPairs, Answers.mk.injEq]
  refine ⟨by simp [pairs, size], by simp [pairs, isEmpty], ?_, ?_, ?_, by simp, ?_, trivial⟩
  · funext text
    rw [contains, find?, List.isSome_find?, pairs, List.any_map]
    rfl
  · funext text
    rw [pairs, List.findIdx?_map]
    rfl
  · funext text
    rw [sites?_eq]
  · exact t.counts_eq_map_pairs

/-- Another text keeps its leaves when an occurrence is filed. -/
theorem NameTable.sites?_insert_of_ne {o : Occurrence} {text : String} (h : text ≠ o.name.text)
    (t : NameTable) : (t.insert o).sites? text = t.sites? text := by
  rw [sites?_eq, sites?_eq, pairs_insert]
  split
  · -- the pair that is found has another name, so nothing is added to it
    rw [List.find?_map, Option.map_map]
    refine Option.map_congr fun p hp => ?_
    have htext := List.find?_some hp
    have hne : o.name ≠ p.1 := by
      intro heq
      exact h (by rw [heq]; exact (beq_iff_eq.1 htext).symm)
    simp [extend, sitesOf_singleton, hne]
  · rw [List.find?_append]
    simp [Ne.symm h]

namespace IndexedTable

/-- The leaves of the name with a text, looked up at the place that the index gives; there must be
an entry at that place. -/
def sites? (x : IndexedTable) (text : String) : Except Breach (Option (List Nat)) :=
  match x.index.lookup text with
  | none => return none
  | some i => do
      require (i < x.entries.length) .noEntry
      return x.entries[i]?.map Prod.snd

/-- The answers of a table with an index.  Whether a text is a name's, and its place, are read off
the index. -/
def answers (x : IndexedTable) : Answers where
  size := x.entries.length
  isEmpty := x.entries.isEmpty
  contains text := (x.index.lookup text).isSome
  position? text := x.index.lookup text
  sites? := x.sites?
  names := x.entries.map Prod.fst
  counts := x.entries.map fun p => (p.1, p.2.length)
  pairs := x.entries

variable {x : IndexedTable} {t : NameTable}

/-- A table with an index answers as the list of its entries. -/
theorem Represents.answers_eq (h : x.Represents t) : x.answers = .ofPairs x.entries := by
  have hpairs : x.entries = t.pairs := h.entries_eq
  have hplace : ∀ text, x.index.lookup text =
      x.entries.findIdx? fun p => p.1.text == text := by
    intro text
    rw [h.lookup_eq, hpairs]
    exact congrFun (congrArg Answers.position? t.answers_eq) text
  simp only [answers, Answers.ofPairs, Answers.mk.injEq, true_and, and_true]
  refine ⟨?_, funext hplace, ?_⟩
  · funext text
    rw [hplace, List.findIdx?_isSome]
  · funext text
    unfold sites?
    rw [hplace, List.find?_eq_bind_findIdx?_getElem?]
    cases hfind : x.entries.findIdx? fun p => p.1.text == text with
    | none => rfl
    | some i =>
        have hentry : i < x.entries.length := (List.findIdx?_eq_some_iff_getElem.1 hfind).1
        simp only
        rw [require_eq_ok hentry]
        rfl

theorem Represents.sites?_eq (h : x.Represents t) (text : String) :
    x.sites? text = .ok (t.sites? text) := by
  have hpairs : x.entries = t.pairs := h.entries_eq
  have hanswers : x.answers = t.answers := by rw [h.answers_eq, hpairs, t.answers_eq]
  exact congrFun (congrArg Answers.sites? hanswers) text

/-! ### Reachable tables -/

/-- The index of a table knows exactly the places of its entries, and the entries hold exactly the
occurrences of a list. -/
structure InStep (x : IndexedTable) (os : List Occurrence) : Prop where
  /-- The index gives a place exactly if the entry there carries the text. -/
  lookup_eq_some_iff : ∀ text i, x.index.lookup text = some i ↔
    ∃ n sites, x.entries[i]? = some (n, sites) ∧ n.text = text
  /-- The names of the entries are pairwise different. -/
  names_nodup : (x.entries.map Prod.fst).Nodup
  /-- Every entry has a leaf, and its leaves are those of its name in the order of the list. -/
  sites_eq : ∀ n sites, (n, sites) ∈ x.entries → sites ≠ [] ∧ sites = sitesOf n os
  /-- All entries together hold every occurrence of the list once. -/
  perm : (x.entries.flatMap fun p => p.2.map fun site => Occurrence.mk p.1 site).Perm os

/-- `y` is `x` with one more occurrence. -/
structure Extends (x y : IndexedTable) (o : Occurrence) : Prop where
  /-- No name changes its place. -/
  lookup_eq : ∀ text i, x.index.lookup text = some i → y.index.lookup text = some i
  /-- No entry goes, and none changes but by the leaf of the occurrence, which comes last. -/
  entry_eq : ∀ (i : Nat) n sites, x.entries[i]? = some (n, sites) →
    y.entries[i]? = some (n, if o.name = n then sites ++ [o.site] else sites)
  /-- A further entry is made only for a new name, and only for that. -/
  length_eq : y.entries.length =
    if o.name ∈ x.entries.map Prod.fst then x.entries.length else x.entries.length + 1
  /-- Nothing that is asked about another text is answered differently. -/
  other : ∀ text, text ≠ o.name.text →
    y.index.lookup text = x.index.lookup text ∧ y.sites? text = x.sites? text

/-- A table with an index that holds the occurrences of a list is in step. -/
theorem inStep_of_represents {os : List Occurrence} (h : x.Represents (.ofList os)) :
    x.InStep os := by
  have hpairs : x.entries = (NameTable.ofList os).pairs := h.entries_eq
  have hgather : x.entries = gather os := hpairs.trans (NameTable.pairs_ofList os)
  constructor
  · intro text i
    rw [h.lookup_eq, NameTable.position?_eq_some_iff, ← NameTable.map_fst_pairs, ← hpairs,
      List.getElem?_map]
    constructor
    · rintro ⟨n, hn, htext⟩
      obtain ⟨p, hp, rfl⟩ := Option.map_eq_some_iff.1 hn
      exact ⟨p.1, p.2, hp, htext⟩
    · rintro ⟨n, sites, hentry, htext⟩
      exact ⟨n, by rw [hentry]; rfl, htext⟩
  · rw [hpairs, NameTable.map_fst_pairs]
    exact (NameTable.ofList os).names_nodup
  · intro n sites hmem
    rw [hgather, gather, List.mem_map] at hmem
    obtain ⟨m, hm, hpair⟩ := hmem
    obtain ⟨rfl, rfl⟩ := Prod.mk.inj hpair
    refine ⟨fun hnil => ?_, rfl⟩
    exact sitesOf_eq_nil_iff.1 hnil (List.mem_eraseDups.1 hm)
  · have hperm := NameTable.occurrences_ofList_perm os
    rw [hpairs, NameTable.pairs, List.flatMap_map]
    exact hperm

/-- Filing an occurrence in a table with an index extends it. -/
theorem exists_extends (h : x.Represents t) (o : Occurrence) :
    ∃ y, x.insert o = .ok y ∧ x.Extends y o := by
  obtain ⟨y, hy, hrepresents⟩ := insert_eq_ok h o
  have hx : x.entries = t.pairs := h.entries_eq
  have hinsert : y.entries = (t.insert o).pairs := hrepresents.entries_eq
  refine ⟨y, hy, ?_, ?_, ?_, ?_⟩
  · intro text i hi
    rw [h.lookup_eq] at hi
    rw [hrepresents.lookup_eq, NameTable.position?_insert, hi]
    exact ite_self _
  · intro i n sites hentry
    rw [hx] at hentry
    rw [hinsert, NameTable.getElem?_pairs_insert hentry]
  · rw [hinsert, hx, NameTable.length_pairs_insert, NameTable.map_fst_pairs]
  · intro text htext
    constructor
    · rw [hrepresents.lookup_eq, h.lookup_eq, NameTable.position?_insert,
        if_neg (Ne.symm htext), Option.or_none, ite_self]
    · rw [hrepresents.sites?_eq, h.sites?_eq, NameTable.sites?_insert_of_ne htext]

/-- Filing the occurrences of a joined list is filing those of the first part before the rest. -/
theorem insertAll_append (x : IndexedTable) (os ps : List Occurrence) :
    x.insertAll (os ++ ps) = x.insertAll os >>= fun y => y.insertAll ps := by
  induction os generalizing x with
  | nil => rfl
  | cons o os ih => simp only [List.cons_append, insertAll, ih, bind_assoc]

/-- **Every table that can be reached is in step and answers as an ordered multimap.**  Filing the
occurrences of any list never fails.  The table it leads to is in step, one more occurrence of any
kind extends it, and it answers every question as the occurrences gathered by name do; and so does
the table without an index. -/
theorem multimap_of_insertAll (os : List Occurrence) :
    ∃ x, empty.insertAll os = .ok x ∧ x.InStep os ∧
      (∀ o, ∃ y, x.insert o = .ok y ∧ empty.insertAll (os ++ [o]) = .ok y ∧ x.Extends y o) ∧
      x.answers = .ofPairs (gather os) ∧ (NameTable.ofList os).answers = .ofPairs (gather os) := by
  obtain ⟨x, hx, hrepresents⟩ := insertAll_eq_ok represents_empty os
  have hgather : x.entries = gather os := hrepresents.entries_eq.trans (NameTable.pairs_ofList os)
  refine ⟨x, hx, inStep_of_represents hrepresents, fun o => ?_, ?_, ?_⟩
  · obtain ⟨y, hy, hextends⟩ := exists_extends hrepresents o
    refine ⟨y, hy, ?_, hextends⟩
    rw [insertAll_append, hx]
    change x.insert o >>= pure = _
    rw [bind_pure, hy]
  · rw [hrepresents.answers_eq, hgather]
  · rw [NameTable.answers_eq, NameTable.pairs_ofList]

end IndexedTable

end BoolLut
