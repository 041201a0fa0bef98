/-
**Codes and bindings determine each other.**

A code gives a value to each name of a table and to nothing else.  Only the bits of the names count:
two codes give the same bindings exactly if they agree in the bits in front, one for each name.  In
the other direction, whatever values the names have, there is a code that gives them, and only one
among the codes with no further bits.  A word of 32 bits has a bit for each name as long as there
are no more than 32 names, and then no bit is asked for that the word does not have.

Main results:

* `BoolLut.Bindings.isSome_get?_iff`, `BoolLut.Bindings.size_eq_length` — the texts that have a
  value, and their number;
* `BoolLut.NameTable.isSome_get?_bind_iff`, `BoolLut.NameTable.codeOf_bind` — what a code gives
  values to, and the code that comes back from the values;
* `BoolLut.NameTable.same_bind_iff` — which codes give the same;
* `BoolLut.NameTable.same_bind_codeOf` — the code that gives what some bindings give;
* `BoolLut.NameTable.bind_bijective` — **codes and bindings of the names correspond**.
-/

import BoolLut.Proofs.CheckedRun
import BoolLut.Proofs.Compounds

set_option relaxedAutoImplicit false
set_option autoImplicit false

namespace BoolLut

/-! ### The texts of bindings -/

namespace Bindings

variable {a b : Bindings} {text : String}

theorem isSome_get?_iff : (b.get? text).isSome ↔ text ∈ b.pairs.map Prod.fst := by
  rw [Option.isSome_iff_exists, List.mem_map]
  constructor
  · rintro ⟨value, hvalue⟩
    exact ⟨(text, value), get?_eq_some_iff.1 hvalue, rfl⟩
  · rintro ⟨⟨_, value⟩, hmem, rfl⟩
    exact ⟨value, get?_eq_some_iff.2 hmem⟩

/-- There are as many values as texts that have one. -/
theorem size_eq_length {texts : List String} (hnodup : texts.Nodup)
    (h : ∀ text, (b.get? text).isSome ↔ text ∈ texts) : b.size = texts.length := by
  have hperm : (b.pairs.map Prod.fst).Perm texts := by
    rw [List.perm_ext_iff_of_nodup b.texts_nodup hnodup]
    intro text
    rw [← isSome_get?_iff, h text]
  rw [size, ← hperm.length_eq, List.length_map]

/-- The same bindings give the same values. -/
theorem value_eq_of_same (h : a.same b = true) : a.value = b.value := by
  funext text
  rw [value, value, same_iff.1 h text]

/-- A text with a value has it. -/
theorem get?_eq_some_value (h : (b.get? text).isSome) : b.get? text = some (b.value text) := by
  obtain ⟨v, hv⟩ := Option.isSome_iff_exists.1 h
  rw [value, hv, Option.getD_some]

end Bindings

/-! ### What a code gives -/

namespace NameTable

variable {t : NameTable} {b : Bindings} {code code' : Nat}

/-- A text is that of a name, which has a place, or it is none. -/
theorem exists_name_or_not_mem (t : NameTable) (text : String) :
    (∃ (j : Nat) (n : Name), t.names[j]? = some n ∧ n.text = text) ∨
      text ∉ t.names.map Name.text := by
  by_cases h : text ∈ t.names.map Name.text
  · obtain ⟨n, hn, htext⟩ := List.mem_map.1 h
    obtain ⟨j, hj⟩ := List.mem_iff_getElem?.1 hn
    exact .inl ⟨j, n, hj, htext⟩
  · exact .inr h

theorem text_mem_of_getElem? {j : Nat} {n : Name} (h : t.names[j]? = some n) :
    n.text ∈ t.names.map Name.text :=
  List.mem_map_of_mem (List.mem_of_getElem? h)

/-- A code gives a value to each name and to nothing else. -/
theorem isSome_get?_bind_iff {text : String} :
    ((t.bind code).get? text).isSome ↔ text ∈ t.names.map Name.text := by
  rcases t.exists_name_or_not_mem text with ⟨j, n, hj, rfl⟩ | hnot
  · rw [get?_bind hj]
    simpa using text_mem_of_getElem? hj
  · rw [get?_bind_of_text_not_mem hnot]
    simpa using hnot

theorem size_bind (t : NameTable) (code : Nat) : (t.bind code).size = t.size := by
  rw [Bindings.size_eq_length t.nodup_texts fun _ => isSome_get?_bind_iff, List.length_map,
    length_names]

/-- From the values of the names comes back the code without the bits behind them. -/
theorem codeOf_bind (t : NameTable) (code : Nat) :
    codeOf (t.bind code).value t.names = code % 2 ^ t.size :=
  restrict_eq_mod (List.prefix_refl t.names) code

/-- Codes with the same bits for the names give the same. -/
theorem same_bind_of_testBit (h : ∀ j < t.size, code.testBit j = code'.testBit j) :
    (t.bind code).same (t.bind code') = true := by
  rw [Bindings.same_iff]
  intro text
  rcases t.exists_name_or_not_mem text with ⟨j, n, hj, rfl⟩ | hnot
  · have hlt : j < t.size := t.length_names ▸ (List.getElem?_eq_some_iff.1 hj).1
    rw [get?_bind hj, get?_bind hj, h j hlt]
  · rw [get?_bind_of_text_not_mem hnot, get?_bind_of_text_not_mem hnot]

/-- Two codes give the same exactly if they differ only in bits behind those of the names. -/
theorem same_bind_iff :
    (t.bind code).same (t.bind code') = true ↔ code % 2 ^ t.size = code' % 2 ^ t.size := by
  constructor
  · intro hsame
    rw [← codeOf_bind, ← codeOf_bind, Bindings.value_eq_of_same hsame]
  · intro hmod
    refine same_bind_of_testBit fun j hj => ?_
    have hbit := congrArg (Nat.testBit · j) hmod
    simpa [Nat.testBit_mod_two_pow, hj] using hbit

/-- Bindings of the names are given by the code that has the values as bits. -/
theorem same_bind_codeOf (h : ∀ text, (b.get? text).isSome ↔ text ∈ t.names.map Name.text) :
    b.same (t.bind (codeOf b.value t.names)) = true := by
  rw [Bindings.same_iff]
  intro text
  rcases t.exists_name_or_not_mem text with ⟨j, n, hj, rfl⟩ | hnot
  · rw [get?_bind hj, testBit_codeOf hj,
      Bindings.get?_eq_some_value ((h n.text).2 (text_mem_of_getElem? hj))]
  · have hnone : b.get? text = none := by
      rw [← Option.not_isSome_iff_eq_none, h text]
      exact hnot
    rw [get?_bind_of_text_not_mem hnot, hnone]

/-- **Codes and bindings of the names correspond.**  A word has a bit for each of at most 32 names,
so that every code gives bindings.  These give the `j`-th name bit `j` of the code, and they give
nothing else a value.  Two codes give the same bindings exactly if they agree up to multiples of the
number of all combinations of values; and bindings that give values to the names and to nothing else
come from exactly one code below this number. -/
theorem bind_bijective {t : NameTable} (h : t.size ≤ 32) :
    (∀ code, Checked.bindFrom code 0 .empty t.names = .ok (t.bind code) ∧
      (t.bind code).size = t.size ∧
      (∀ text, ((t.bind code).get? text).isSome ↔ text ∈ t.names.map Name.text) ∧
      ∀ j n, t.names[j]? = some n → (t.bind code).get? n.text = some (code.testBit j)) ∧
    (∀ code code', (t.bind code).same (t.bind code') = true ↔
      code % 2 ^ t.size = code' % 2 ^ t.size) ∧
    ∀ b : Bindings, (∀ text, (b.get? text).isSome ↔ text ∈ t.names.map Name.text) →
      ∃! code, code < 2 ^ t.size ∧ b.same (t.bind code) = true := by
  refine ⟨fun code => ⟨Checked.bindFrom_names h code, t.size_bind code,
    fun text => isSome_get?_bind_iff, fun j n hj => get?_bind hj⟩,
    fun code code' => same_bind_iff, fun b hb => ?_⟩
  have hlt : codeOf b.value t.names < 2 ^ t.size := by
    rw [← length_names]
    exact codeOf_lt b.value t.names
  refine ⟨codeOf b.value t.names, ⟨hlt, same_bind_codeOf hb⟩, ?_⟩
  rintro code ⟨hcode, hsame⟩
  rw [Bindings.value_eq_of_same hsame, codeOf_bind, Nat.mod_eq_of_lt hcode]

/-- With 32 names a word has no bit to spare: the name that was met last has the highest bit, the
first code that gives the same as zero is no word any more, and the bindings in which all names are
true come from one word. -/
theorem bind_bijective_full_word :
    let t := NameTable.ofList ((List.range 32).map fun i => ⟨.ofChars (Char.ofNat (192 + i)) [], i⟩)
    let b := Bindings.ofList (t.names.map fun n => (n.text, true))
    t.size ≤ 32 ∧
    Checked.bindFrom (2 ^ 31) 0 .empty t.names = .ok (t.bind (2 ^ 31)) ∧
    (t.bind (2 ^ 31)).get? "ß" = some true ∧ (t.bind (2 ^ 31)).get? "À" = some false ∧
    (t.bind 0).same (t.bind (2 ^ 31)) = false ∧ (t.bind 0).same (t.bind (2 ^ 32)) = true ∧
    ∃! code, code < 2 ^ t.size ∧ b.same (t.bind code) = true := by
  intro t b
  have hsize : t.size = 32 := by decide +kernel
  have hfirst : t.names[0]? = some (.ofChars 'À' []) := by decide +kernel
  have hlast : t.names[31]? = some (.ofChars 'ß' []) := by decide +kernel
  have htexts : b.pairs.map Prod.fst = (t.names.map Name.text).reverse := by decide +kernel
  obtain ⟨hgives, hsame, hunique⟩ := bind_bijective hsize.le
  obtain ⟨hbind, -, -, hbits⟩ := hgives (2 ^ 31)
  refine ⟨hsize.le, hbind, ?_, ?_, ?_, ?_, ?_⟩
  · exact (hbits 31 _ hlast).trans (by decide)
  · exact (hbits 0 _ hfirst).trans (by decide)
  · rw [← Bool.not_eq_true, hsame, hsize]
    decide
  · rw [hsame, hsize, Nat.mod_self, Nat.zero_mod]
  · refine hunique b fun text => ?_
    rw [Bindings.isSome_get?_iff, htexts, List.mem_reverse]

end NameTable

end BoolLut
