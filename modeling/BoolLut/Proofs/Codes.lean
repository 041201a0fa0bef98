/-
**What a code stands for.**

The names of a formula stand in its table in the order in which they first occur, and bit `j` of a
code is the value of the `j`-th of them.  So a valuation has a code, the number with the values of
the names as its bits; and a formula has the same value under the valuation and under what its code
gives to the names.

Main definitions:

* `BoolLut.codeOf` — the code of a valuation.

Main results:

* `BoolLut.NameTable.names_ofList`, `BoolLut.Formula.names_nameTable` — a table lists the names in
  the order of their first occurrences, each once;
* `BoolLut.Bindings.get?_ofList` — of several values for a text the last one counts;
* `BoolLut.NameTable.get?_bind`, `BoolLut.NameTable.value_bind`,
  `BoolLut.NameTable.value_bind_of_not_mem` — the values that a code gives;
* `BoolLut.NameTable.eval_bind` — **a code and a valuation with its bits give a formula the same
  value**;
* `BoolLut.testBit_codeOf`, `BoolLut.codeOf_lt`, `BoolLut.codeOf_eq_sum` — the code of a valuation.
-/

import Mathlib.Algebra.BigOperators.Fin
import BoolLut.Assignment
import BoolLut.Formula.Value

set_option relaxedAutoImplicit false
set_option autoImplicit false

namespace BoolLut

/-! ### The names of a table -/

namespace NameTable

private theorem eraseDups_of_nodup {names : List Name} (h : names.Nodup) :
    names.eraseDups = names := by
  induction names with
  | nil => rfl
  | cons n names ih =>
      obtain ⟨hn, hnames⟩ := List.nodup_cons.1 h
      have hfilter : (names.filter fun m => !m == n) = names := by
        rw [List.filter_eq_self]
        intro m hm
        have hne : m ≠ n := fun heq => hn (heq ▸ hm)
        simpa using hne
      rw [List.eraseDups_cons, hfilter, ih hnames]

/-- The names of a table are counted once each. -/
theorem eraseDups_names (t : NameTable) : t.names.eraseDups = t.names :=
  eraseDups_of_nodup t.names_nodup

private theorem eraseDups_append_cons {names : List Name} {n : Name} (h : n ∈ names)
    (more : List Name) : (names ++ n :: more).eraseDups = (names ++ more).eraseDups := by
  rw [List.eraseDups_append, List.eraseDups_append, List.cons_removeAll, if_neg (by simp [h])]

theorem names_foldl_insert (os : List Occurrence) (t : NameTable) :
    (os.foldl insert t).names = (t.names ++ os.map Occurrence.name).eraseDups := by
  -- the names met so far stay in front, and among the others only the first of each remains
  induction os generalizing t with
  | nil =>
      rw [List.foldl_nil, List.map_nil, List.append_nil, eraseDups_names]
  | cons o os ih =>
      rw [List.foldl_cons, ih, names_insert, List.map_cons]
      split
      · next hmem => rw [eraseDups_append_cons hmem]
      · rw [List.append_assoc, List.singleton_append]

/-- A table lists names in the order in which they were first met. -/
theorem names_ofList (os : List Occurrence) :
    (ofList os).names = (os.map Occurrence.name).eraseDups :=
  names_foldl_insert os empty

/-- Names that are different are different texts. -/
theorem nodup_texts (t : NameTable) : (t.names.map Name.text).Nodup :=
  t.names_nodup.map fun _ _ htext => Name.ext htext

end NameTable

/-- The table of a formula lists its names in the order of their first occurrences. -/
theorem Formula.names_nameTable (f : Formula) : f.nameTable.names = f.leaves.eraseDups := by
  rw [nameTable, NameTable.names_ofList, map_name_occurrences]

/-- The table of a formula has the names of the formula and no others. -/
theorem Formula.mem_names_nameTable {f : Formula} {n : Name} :
    n ∈ f.nameTable.names ↔ n ∈ f.leaves := by
  rw [names_nameTable, List.mem_eraseDups]

theorem Formula.size_nameTable (f : Formula) :
    f.nameTable.size = f.leaves.eraseDups.length := by
  rw [← NameTable.length_names, names_nameTable]

/-! ### The values that a code gives -/

namespace Bindings

theorem get?_foldl_set (pairs : List (String × Bool)) (b : Bindings) (text : String) :
    (pairs.foldl (fun b p => b.set p.1 p.2) b).get? text =
      (pairs.reverse.lookup text).or (b.get? text) := by
  induction pairs generalizing b with
  | nil => rfl
  | cons p pairs ih =>
      obtain ⟨t, v⟩ := p
      rw [List.foldl_cons, ih, get?_set, List.reverse_cons, List.lookup_append, Option.or_assoc]
      congr 1
      by_cases h : text = t
      · simp [h]
      · have hne : (text == t) = false := by simpa using h
        simp [h, List.lookup_cons, hne]

/-- Of several values for a text the last one counts. -/
theorem get?_ofList (pairs : List (String × Bool)) (text : String) :
    (ofList pairs).get? text = pairs.reverse.lookup text := by
  rw [ofList, get?_foldl_set, get?_empty, Option.or_none]

/-- If no text has two values, the one that is listed counts. -/
theorem get?_ofList_of_mem {pairs : List (String × Bool)} {text : String} {value : Bool}
    (hnodup : (pairs.map Prod.fst).Nodup) (h : (text, value) ∈ pairs) :
    (ofList pairs).get? text = some value := by
  -- the pairs in the order in which they are looked up are bindings themselves
  have hreverse : (pairs.reverse.map Prod.fst).Nodup := by
    rw [List.map_reverse, List.nodup_reverse]
    exact hnodup
  have hget : (Bindings.mk pairs.reverse hreverse).get? text = some value :=
    get?_eq_some_iff.2 (List.mem_reverse.2 h)
  rw [get?_ofList]
  exact hget

theorem get?_ofList_of_not_mem {pairs : List (String × Bool)} {text : String}
    (h : text ∉ pairs.map Prod.fst) : (ofList pairs).get? text = none := by
  rw [get?_ofList, List.lookup_eq_none_iff]
  intro p hp
  have hne : text ≠ p.1 := by
    rintro rfl
    exact h (List.mem_map_of_mem (List.mem_reverse.1 hp))
  simpa using hne

end Bindings

namespace NameTable

variable {t : NameTable} {code : Nat} {n : Name}

private theorem map_fst_mapIdx (t : NameTable) (code : Nat) :
    (t.names.mapIdx fun j name => (name.text, code.testBit j)).map Prod.fst =
      t.names.map Name.text := by
  refine List.ext_getElem (by simp) ?_
  intro i h₁ h₂
  simp

/-- The `j`-th name of a table gets bit `j`. -/
theorem get?_bind {j : Nat} (h : t.names[j]? = some n) :
    (t.bind code).get? n.text = some (code.testBit j) := by
  refine Bindings.get?_ofList_of_mem ?_ ?_
  · rw [map_fst_mapIdx]
    exact t.nodup_texts
  · rw [List.mem_mapIdx]
    obtain ⟨hj, hn⟩ := List.getElem?_eq_some_iff.1 h
    exact ⟨j, hj, by rw [hn]⟩

theorem value_bind {j : Nat} (h : t.names[j]? = some n) :
    (t.bind code).value n.text = code.testBit j := by
  rw [Bindings.value, get?_bind h, Option.getD_some]

/-- A text that is not the text of a name gets no value. -/
theorem get?_bind_of_text_not_mem {text : String} (h : text ∉ t.names.map Name.text) :
    (t.bind code).get? text = none := by
  refine Bindings.get?_ofList_of_not_mem ?_
  rw [map_fst_mapIdx]
  exact h

/-- So it counts as false. -/
theorem value_bind_of_text_not_mem {text : String} (h : text ∉ t.names.map Name.text) :
    (t.bind code).value text = false := by
  rw [Bindings.value, get?_bind_of_text_not_mem h, Option.getD_none]

/-- A name that is not in a table counts as false. -/
theorem value_bind_of_not_mem (h : n ∉ t.names) : (t.bind code).value n.text = false := by
  refine value_bind_of_text_not_mem ?_
  rw [List.mem_map]
  rintro ⟨m, hm, htext⟩
  exact h (Name.ext htext ▸ hm)

/-- A code and a valuation with its bits give a formula the same value, if the names that are not
in the table are false. -/
theorem eval_bind {value : String → Bool} {f : Formula}
    (hcode : ∀ j n, t.names[j]? = some n → code.testBit j = value n.text)
    (hother : ∀ n ∈ f.leaves, n ∉ t.names → value n.text = false) :
    f.eval (t.bind code).value = f.eval value := by
  refine Formula.eval_congr ?_
  intro n hn
  by_cases hmem : n ∈ t.names
  · obtain ⟨j, hj⟩ := List.mem_iff_getElem?.1 hmem
    rw [value_bind hj, hcode j n hj]
  · rw [value_bind_of_not_mem hmem, hother n hn hmem]

end NameTable

/-! ### The code of a valuation -/

/-- The number whose bits are the values of the names: bit `j` is the value of the `j`-th name. -/
def codeOf (value : String → Bool) : List Name → Nat
  | [] => 0
  | n :: names => (value n.text).toNat + 2 * codeOf value names

@[simp] theorem codeOf_nil (value : String → Bool) : codeOf value [] = 0 := rfl

@[simp] theorem codeOf_cons (value : String → Bool) (n : Name) (names : List Name) :
    codeOf value (n :: names) = (value n.text).toNat + 2 * codeOf value names := rfl

/-- Only the values of the names matter. -/
theorem codeOf_congr {u v : String → Bool} {names : List Name}
    (h : ∀ n ∈ names, u n.text = v n.text) : codeOf u names = codeOf v names := by
  induction names with
  | nil => rfl
  | cons n names ih =>
      obtain ⟨hn, hnames⟩ := List.forall_mem_cons.1 h
      rw [codeOf_cons, codeOf_cons, hn, ih hnames]

theorem testBit_codeOf {value : String → Bool} {names : List Name} {j : Nat} {n : Name}
    (h : names[j]? = some n) : (codeOf value names).testBit j = value n.text := by
  induction names generalizing j with
  | nil => simp at h
  | cons m names ih =>
      have hbit : (value m.text).toNat ≤ 1 := Bool.toNat_le _
      cases j with
      | zero =>
          rw [List.getElem?_cons_zero, Option.some.injEq] at h
          rw [codeOf_cons, Nat.testBit_zero, Nat.add_mul_mod_self_left, h]
          cases value n.text <;> rfl
      | succ j =>
          have hhalf :
              ((value m.text).toNat + 2 * codeOf value names) / 2 = codeOf value names := by
            omega
          rw [List.getElem?_cons_succ] at h
          rw [codeOf_cons, Nat.testBit_add_one, hhalf, ih h]

theorem codeOf_lt (value : String → Bool) (names : List Name) :
    codeOf value names < 2 ^ names.length := by
  induction names with
  | nil => simp
  | cons n names ih =>
      have hbit : (value n.text).toNat ≤ 1 := Bool.toNat_le _
      rw [codeOf_cons, List.length_cons, pow_succ]
      omega

/-- The code of a valuation is the sum of the weights of the names that are true. -/
theorem codeOf_eq_sum (value : String → Bool) (names : List Name) :
    codeOf value names = ∑ j : Fin names.length, (value names[j].text).toNat * 2 ^ (j : ℕ) := by
  induction names with
  | nil => simp
  | cons n names ih =>
      rw [codeOf_cons, ih, Finset.mul_sum]
      change _ = ∑ j : Fin (names.length + 1), _
      rw [Fin.sum_univ_succ]
      congr 1
      · exact (Nat.mul_one _).symm
      · refine Finset.sum_congr rfl ?_
        intro j _
        change _ = (value names[j].text).toNat * 2 ^ ((j : ℕ) + 1)
        rw [pow_succ, Nat.mul_comm (2 ^ (j : ℕ)), Nat.mul_left_comm]

end BoolLut
