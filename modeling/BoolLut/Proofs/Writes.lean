/-
**Values that were written last.**

Bindings are made from a list of values, and further values are set afterwards.  What they give to a
text is the value that was written for it last, in the list or afterwards, and false if there was
none.  A formula looks up its own names and nothing else, so its value depends on the last values of
its names only.  It does not matter in which order different texts were written, what was written
over again, what was written for other texts, or whether a text was left out or set to false.

Main definitions:

* `BoolLut.Bindings.setAll` — bindings after further values were set;
* `BoolLut.Bindings.lastWritten` — the value that was written last.

Main results:

* `BoolLut.Bindings.lastWritten_concat`, `BoolLut.Bindings.value_set` — what one more write does to
  the last values and to bindings;
* `BoolLut.Bindings.value_ofList_eq_lastWritten`, `BoolLut.Bindings.value_setAll_ofList` — bindings
  give each text the value written last;
* `BoolLut.Bindings.lastWritten_leave_out`, `BoolLut.Bindings.lastWritten_swap` — writes that may be
  left out, or change places;
* `BoolLut.Formula.eval_of_lastWritten` — **only the last values of its names matter to a formula**.
-/

import Mathlib.Data.List.Induction
import BoolLut.Bindings
import BoolLut.Formula.Value

set_option relaxedAutoImplicit false
set_option autoImplicit false

namespace BoolLut

namespace Bindings

/-! ### Histories -/

/-- Gives further values, in order, each in place of the one that the text may have had. -/
def setAll (b : Bindings) (writes : List (String × Bool)) : Bindings :=
  writes.foldl (fun b p => b.set p.1 p.2) b

/-- The value in the last of the writes for `text`; false if there is none. -/
def lastWritten (writes : List (String × Bool)) (text : String) : Bool :=
  ((writes.filter fun p => p.1 = text).getLast?.map Prod.snd).getD false

/-- Values that are set afterwards are like further values in the list. -/
theorem setAll_ofList (pairs writes : List (String × Bool)) :
    (ofList pairs).setAll writes = ofList (pairs ++ writes) := by
  rw [setAll, ofList, ofList, List.foldl_append]

/-- One more write gives its text a new last value, and leaves those of the other texts. -/
theorem lastWritten_concat (writes : List (String × Bool)) (p : String × Bool) (text : String) :
    lastWritten (writes ++ [p]) text = if text = p.1 then p.2 else lastWritten writes text := by
  unfold lastWritten
  rw [List.filter_append]
  by_cases h : text = p.1
  · rw [if_pos h, List.filter_cons_of_pos (by simp [h]), List.filter_nil, List.getLast?_concat]
    rfl
  · rw [if_neg h, List.filter_cons_of_neg (by simp [Ne.symm h]), List.filter_nil, List.append_nil]

/-- And so it is with bindings. -/
theorem value_set (b : Bindings) (p : String × Bool) (text : String) :
    (b.set p.1 p.2).value text = if text = p.1 then p.2 else b.value text := by
  rw [value, get?_set]
  split
  · rfl
  · rfl

/-- Bindings give each text the value that was written for it last. -/
theorem value_ofList_eq_lastWritten (writes : List (String × Bool)) (text : String) :
    (ofList writes).value text = lastWritten writes text := by
  induction writes using List.reverseRecOn with
  | nil => rfl
  | append_singleton writes p ih =>
      have hset : ofList (writes ++ [p]) = (ofList writes).set p.1 p.2 := List.foldl_append
      rw [hset, value_set, lastWritten_concat, ih]

/-- So do bindings to which further values were given. -/
theorem value_setAll_ofList (pairs writes : List (String × Bool)) (text : String) :
    ((ofList pairs).setAll writes).value text = lastWritten (pairs ++ writes) text := by
  rw [setAll_ofList, value_ofList_eq_lastWritten]

/-! ### Writes that do not matter -/

/-- Of two histories the later one counts, for the texts that are written in it. -/
theorem lastWritten_append (before after : List (String × Bool)) (text : String) :
    lastWritten (before ++ after) text =
      if text ∈ after.map Prod.fst then lastWritten after text else lastWritten before text := by
  induction after using List.reverseRecOn with
  | nil => simp
  | append_singleton after p ih =>
      rw [← List.append_assoc, lastWritten_concat, lastWritten_concat, ih, List.map_append,
        List.map_singleton]
      by_cases h : text = p.1
      · simp [h]
      · simp [h]

/-- A write may be left out for every text but its own, and for its own text too if that is written
again or had the same value before. -/
theorem lastWritten_leave_out {before after : List (String × Bool)} {p : String × Bool}
    {text : String}
    (h : text = p.1 → text ∈ after.map Prod.fst ∨ lastWritten before text = p.2) :
    lastWritten (before ++ p :: after) text = lastWritten (before ++ after) text := by
  rw [List.append_cons, lastWritten_append _ after, lastWritten_append _ after,
    lastWritten_concat]
  split
  · rfl
  · next hagain =>
      split
      · next heq => exact ((h heq).resolve_left hagain).symm
      · rfl

/-- Writes for different texts may change places. -/
theorem lastWritten_swap {p q : String × Bool} (h : p.1 ≠ q.1)
    (before after : List (String × Bool)) (text : String) :
    lastWritten (before ++ p :: q :: after) text = lastWritten (before ++ q :: p :: after) text := by
  have hswap : ∀ p q : String × Bool,
      before ++ p :: q :: after = before ++ [p] ++ [q] ++ after := fun p q => by simp
  rw [hswap, hswap, lastWritten_append _ after, lastWritten_append _ after, lastWritten_concat,
    lastWritten_concat, lastWritten_concat, lastWritten_concat]
  by_cases hp : text = p.1
  · simp [hp, h]
  · simp [hp]

/-- A text for which nothing was written counts as false. -/
theorem lastWritten_of_not_mem {writes : List (String × Bool)} {text : String}
    (h : text ∉ writes.map Prod.fst) : lastWritten writes text = false :=
  (lastWritten_append [] writes text).trans (if_neg h)

end Bindings

/-! ### Values of formulas -/

open Bindings

/-- Histories with the same last values for the names of a formula give it the same value. -/
theorem Formula.eval_ofList_congr {f : Formula} {writes writes' : List (String × Bool)}
    (h : ∀ n ∈ f.leaves, lastWritten writes n.text = lastWritten writes' n.text) :
    f.eval (ofList writes).value = f.eval (ofList writes').value := by
  refine eval_congr fun n hn => ?_
  rw [value_ofList_eq_lastWritten, value_ofList_eq_lastWritten, h n hn]

/-- **Only the last values of its names matter to a formula.**  It has the same value under two
bindings, each made from a list and from values that were set afterwards, if each of its names has
the same last value in both, where false stands for none.  So writes for different texts may change
places, and a write may be left out if its text is written again later, if the text is no name of
the formula, or if it is set to false and was not written before. -/
theorem Formula.eval_of_lastWritten (f : Formula) :
    (∀ pairs writes pairs' writes' : List (String × Bool),
      (∀ n ∈ f.leaves,
        lastWritten (pairs ++ writes) n.text = lastWritten (pairs' ++ writes') n.text) →
        f.eval ((ofList pairs).setAll writes).value =
          f.eval ((ofList pairs').setAll writes').value) ∧
    (∀ (before after : List (String × Bool)) (p q : String × Bool), p.1 ≠ q.1 →
      f.eval (ofList (before ++ p :: q :: after)).value =
        f.eval (ofList (before ++ q :: p :: after)).value) ∧
    ∀ (before after : List (String × Bool)) (text : String) (value : Bool),
      (text ∈ after.map Prod.fst ∨ (∀ n ∈ f.leaves, n.text ≠ text) ∨
        value = false ∧ text ∉ before.map Prod.fst) →
        f.eval (ofList (before ++ (text, value) :: after)).value =
          f.eval (ofList (before ++ after)).value := by
  refine ⟨?_, ?_, ?_⟩
  · intro pairs writes pairs' writes' h
    refine eval_congr fun n hn => ?_
    rw [value_setAll_ofList, value_setAll_ofList, h n hn]
  · intro before after p q hne
    exact eval_ofList_congr fun n _ => lastWritten_swap hne before after n.text
  · intro before after text value h
    refine eval_ofList_congr fun n hn => lastWritten_leave_out ?_
    rintro rfl
    rcases h with hagain | hother | ⟨rfl, hnew⟩
    · exact .inl hagain
    · exact absurd rfl (hother n hn)
    · exact .inr (lastWritten_of_not_mem hnew)

/-- `!a != b` has the same value whether `a` was set to false behind a true value and a further text
was set, or `a` was left out and `b` written twice; and it has the same value with the writes for
`a` and `b` in either order, and with and without an explicit false value of `a`. -/
theorem Formula.eval_of_lastWritten_histories :
    let f := Formula.binary .xor (.not (.var (.ofChars 'a' []))) (.var (.ofChars 'b' []))
    f.eval ((ofList [("a", true), ("b", true), ("a", false)]).setAll [("z", true)]).value =
      f.eval ((ofList []).setAll [("b", false), ("b", true)]).value ∧
    f.eval (ofList [("a", true), ("b", true)]).value =
      f.eval (ofList [("b", true), ("a", true)]).value ∧
    f.eval (ofList [("b", true), ("a", false)]).value = f.eval (ofList [("b", true)]).value := by
  intro f
  obtain ⟨hlast, hswap, hleave⟩ := eval_of_lastWritten f
  refine ⟨hlast _ _ _ _ (by decide), hswap [] [] _ _ (by decide), ?_⟩
  exact hleave [("b", true)] [] "a" false (.inr (.inr ⟨rfl, by decide⟩))

end BoolLut
