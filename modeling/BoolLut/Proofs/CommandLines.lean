/-
**What a command line says.**

A command line says a number of things one after the other: that widths are to be exact, that the
tree is to be written with symbols, which file the formula stands in, which records are to be shown,
and what the formula is.  Behind the sign `--` everything is a formula.  A command line that breaks
no rule says each thing at most once, gives each option a value it can have, and does not give both
a formula and a file.  These are the rules by which a command line is declared; how it is read is
not mentioned in them.

Main definitions:

* `BoolLut.Command.Item` — a thing that can be said, and `BoolLut.Command.Item.Said`, the arguments
  that say it;
* `BoolLut.Command.Says`, `BoolLut.Command.Reads` — what a list of arguments says;
* `BoolLut.Command.Consistent`, `BoolLut.Command.Asks` — the rules, and what is asked for by a
  command line that keeps them;
* `BoolLut.Command.CallsHelp` — the command line calls for help.

Main results:

* `BoolLut.Command.Consistent.append_singleton_iff` — what one more item must be like;
* `BoolLut.Command.Asks.unique` — items ask for one thing only.
-/

import Mathlib.Data.List.Nodup
import BoolLut.Proofs.ArgumentForms

set_option relaxedAutoImplicit false
set_option autoImplicit false

namespace BoolLut

namespace Command

/-! ### Items -/

/-- A thing that a command line can say. -/
inductive Item where
  /-- Widths are exact. -/
  | exact
  /-- The tree is written with symbols. -/
  | symbols
  /-- The formula stands in this file. -/
  | file (path : String)
  /-- Records are shown up to the threshold of this word. -/
  | logLevel (word : String)
  /-- The formula is this text. -/
  | formula (text : String)
deriving DecidableEq

namespace Item

/-- What an item is about. -/
inductive Kind where
  | exact
  | symbols
  | file
  | logLevel
  | formula
deriving DecidableEq

/-- What an item is about. -/
def kind : Item → Kind
  | exact => .exact
  | symbols => .symbols
  | file _ => .file
  | logLevel _ => .logLevel
  | formula _ => .formula

/-- The file that is named by an item about files. -/
def path? : Item → Option String
  | file path => some path
  | _ => none

/-- The threshold that is named by an item about records. -/
def threshold? : Item → Option Threshold
  | logLevel word => Threshold.ofText? word
  | _ => none

/-- The formula of an item that has one. -/
def text? : Item → Option String
  | formula text => some text
  | _ => none

/-- The item has a value that it can have: a file has a name, and a threshold is known. -/
def IsPossible : Item → Prop
  | file path => path ≠ ""
  | logLevel word => ∃ threshold, Threshold.ofText? word = some threshold
  | _ => True

/-- The arguments that say an item. -/
inductive Said : Item → List String → Prop
  | exact {word : String} (h : Argument.exact.Spelled word) : Said exact [word]
  | symbols {word : String} (h : Argument.symbols.Spelled word) : Said symbols [word]
  | file {word path : String} (h : (Argument.file (some path)).Spelled word) :
      Said (file path) [word]
  | fileNext {word path : String} (h : (Argument.file none).Spelled word) (hpath : IsValue path) :
      Said (file path) [word, path]
  | logLevel {word level : String} (h : (Argument.logLevel (some level)).Spelled word) :
      Said (logLevel level) [word]
  | logLevelNext {word level : String} (h : (Argument.logLevel none).Spelled word)
      (hlevel : IsValue level) : Said (logLevel level) [word, level]
  | formula {word text : String} (h : (Argument.formula text).Spelled word) :
      Said (formula text) [word]

/-- Nothing is said without an argument. -/
theorem Said.length_pos {i : Item} {words : List String} (h : i.Said words) : 0 < words.length := by
  cases h <;> exact Nat.succ_pos _

end Item

/-- The arguments say the items one after the other. -/
inductive Says : List String → List Item → Prop
  | nil : Says [] []
  | cons {i : Item} {words rest : List String} {items : List Item} (hi : i.Said words)
      (hrest : Says rest items) : Says (words ++ rest) (i :: items)

/-- The command line says the items: those in front of the sign `--`, if it is there, and then
formulas only. -/
inductive Reads : List String → List Item → Prop
  | said {arguments : List String} {items : List Item} (h : Says arguments items) :
      Reads arguments items
  | separated {front : List String} {items : List Item} (h : Says front items)
      (texts : List String) : Reads (front ++ "--" :: texts) (items ++ texts.map .formula)

/-- Nothing is said twice, and every value is one that can be. -/
structure Consistent (items : List Item) : Prop where
  once : (items.map Item.kind).Nodup
  possible : ∀ i ∈ items, i.IsPossible

/-- The items keep all rules, and ask for a truth table with these options. -/
structure Asks (items : List Item) (o : Options) : Prop where
  consistent : Consistent items
  exclusive : ∀ text path, Item.formula text ∈ items → Item.file path ∉ items
  source_formula : ∀ text, Item.formula text ∈ items → o.source = .formula text
  source_file : ∀ path, Item.file path ∈ items → o.source = .file path
  source_stdin : (∀ text, Item.formula text ∉ items) → (∀ path, Item.file path ∉ items) →
    o.source = .stdin
  style_eq : o.style = if Item.symbols ∈ items then .symbols else .placeholders
  policy_eq : o.policy = if Item.exact ∈ items then .exact else .snapped
  threshold_eq : ∀ word, Item.logLevel word ∈ items → Threshold.ofText? word = some o.threshold
  threshold_default : (∀ word, Item.logLevel word ∉ items) → o.threshold = .default

/-- The command line calls for help, and what stands before the call breaks no rule. -/
def CallsHelp (arguments : List String) : Prop :=
  ∃ front items word rest, arguments = front ++ word :: rest ∧ Says front items ∧
    Consistent items ∧ Argument.help.Spelled word

/-! ### Rules -/

namespace Consistent

theorem nil : Consistent [] := ⟨List.nodup_nil, fun _ h => nomatch h⟩

variable {items : List Item}

/-- Items about the same thing are the same. -/
theorem eq_of_kind_eq (h : Consistent items) {i j : Item} (hi : i ∈ items) (hj : j ∈ items)
    (hkind : i.kind = j.kind) : i = j :=
  List.inj_on_of_nodup_map h.once hi hj hkind

/-- One more item keeps the rules if there was none about the same thing, and its value can be. -/
theorem append_singleton_iff {i : Item} :
    Consistent (items ++ [i]) ↔
      Consistent items ∧ i.kind ∉ items.map Item.kind ∧ i.IsPossible := by
  constructor
  · rintro ⟨honce, hpossible⟩
    rw [List.map_append, List.map_singleton, List.nodup_append_comm, List.singleton_append,
      List.nodup_cons] at honce
    rw [List.forall_mem_append, List.forall_mem_singleton] at hpossible
    exact ⟨⟨honce.2, hpossible.1⟩, honce.1, hpossible.2⟩
  · rintro ⟨⟨honce, hpossible⟩, hkind, hi⟩
    constructor
    · rw [List.map_append, List.map_singleton, List.nodup_append_comm, List.singleton_append,
        List.nodup_cons]
      exact ⟨hkind, honce⟩
    · rw [List.forall_mem_append, List.forall_mem_singleton]
      exact ⟨hpossible, hi⟩

theorem of_append {more : List Item} (h : Consistent (items ++ more)) : Consistent items := by
  constructor
  · have honce := h.once
    rw [List.map_append] at honce
    exact honce.of_append_left
  · exact fun i hi => h.possible i (List.mem_append_left _ hi)

/-- A value that items about one thing have is that of the only such item. -/
theorem findSome?_eq_some_iff {β : Type} {value? : Item → Option β} {k : Item.Kind}
    (h : Consistent items) (hkind : ∀ i b, value? i = some b → i.kind = k) {b : β} :
    items.findSome? value? = some b ↔ ∃ i ∈ items, value? i = some b := by
  constructor
  · exact List.exists_of_findSome?_eq_some
  · rintro ⟨i, hi, hib⟩
    cases hfind : items.findSome? value? with
    | none =>
        rw [List.findSome?_eq_none_iff] at hfind
        rw [hfind i hi] at hib
        cases hib
    | some c =>
        obtain ⟨j, hj, hjc⟩ := List.exists_of_findSome?_eq_some hfind
        obtain rfl := h.eq_of_kind_eq hi hj ((hkind i b hib).trans (hkind j c hjc).symm)
        rw [← hjc, hib]

/-- Where each value belongs to one item, it is there if the item is. -/
theorem findSome?_eq_some_iff_mem {β : Type} {value? : Item → Option β} {item : β → Item}
    {k : Item.Kind} (h : Consistent items) (hvalue : ∀ i b, value? i = some b ↔ i = item b)
    (hkind : ∀ b, (item b).kind = k) {b : β} :
    items.findSome? value? = some b ↔ item b ∈ items := by
  have hsome : ∀ i b, value? i = some b → i.kind = k := by
    intro i b hib
    rw [(hvalue i b).1 hib]
    exact hkind b
  rw [h.findSome?_eq_some_iff hsome]
  constructor
  · rintro ⟨i, hi, hib⟩
    exact (hvalue i b).1 hib ▸ hi
  · intro hi
    exact ⟨_, hi, (hvalue _ b).2 rfl⟩

end Consistent

/-- Items ask for one thing only. -/
theorem Asks.unique {items : List Item} {o o' : Options} (h : Asks items o) (h' : Asks items o') :
    o = o' := by
  have hsource : o.source = o'.source := by
    by_cases hformula : ∃ text, Item.formula text ∈ items
    · obtain ⟨text, htext⟩ := hformula
      rw [h.source_formula text htext, h'.source_formula text htext]
    · by_cases hfile : ∃ path, Item.file path ∈ items
      · obtain ⟨path, hpath⟩ := hfile
        rw [h.source_file path hpath, h'.source_file path hpath]
      · rw [not_exists] at hformula hfile
        rw [h.source_stdin hformula hfile, h'.source_stdin hformula hfile]
  have hthreshold : o.threshold = o'.threshold := by
    by_cases hlevel : ∃ word, Item.logLevel word ∈ items
    · obtain ⟨word, hword⟩ := hlevel
      have hsame := (h.threshold_eq word hword).symm.trans (h'.threshold_eq word hword)
      exact Option.some.inj hsame
    · rw [not_exists] at hlevel
      rw [h.threshold_default hlevel, h'.threshold_default hlevel]
  have hstyle : o.style = o'.style := h.style_eq.trans h'.style_eq.symm
  have hpolicy : o.policy = o'.policy := h.policy_eq.trans h'.policy_eq.symm
  cases o
  cases o'
  simp only at hsource hthreshold hstyle hpolicy
  rw [hsource, hthreshold, hstyle, hpolicy]

end Command

end BoolLut
