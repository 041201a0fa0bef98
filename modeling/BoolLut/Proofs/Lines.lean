/-
**The lines of what is printed.**

A report is written line by line, each line with its end.  Read back, a text is cut behind every
line end; characters behind the last one are a line as well.  Cutting what was written gives the
lines again, provided that none of them has a line end inside.

Main definitions:

* `BoolLut.linesOf` — the lines of a text.

Main results:

* `BoolLut.linesOf_unlines_append` — lines that were written are cut apart from what follows them;
* `BoolLut.linesOf_unlines` — **what was written line by line is read line by line**.
-/

import BoolLut.Report

set_option relaxedAutoImplicit false
set_option autoImplicit false

namespace BoolLut

/-- The lines of a text that goes on with the given characters, when those in `current`, the last
one in front, have been read since the last line end. -/
def linesFrom (current : List Char) : List Char → List String
  | [] => if current = [] then [] else [String.ofList current.reverse]
  | c :: cs =>
      if c = '\n' then String.ofList current.reverse :: linesFrom [] cs
      else linesFrom (c :: current) cs

/-- The lines of a text. -/
def linesOf (text : String) : List String := linesFrom [] text.toList

theorem linesFrom_newline (current cs : List Char) :
    linesFrom current ('\n' :: cs) = String.ofList current.reverse :: linesFrom [] cs :=
  if_pos rfl

theorem linesFrom_append_newline (current cs ds : List Char) :
    linesFrom current (cs ++ '\n' :: ds) = linesFrom current (cs ++ ['\n']) ++ linesFrom [] ds := by
  induction cs generalizing current with
  | nil => simp [linesFrom]
  | cons c cs ih =>
      by_cases hc : c = '\n'
      · simp only [hc, List.cons_append, linesFrom_newline, ih]
      · simp only [List.cons_append, linesFrom, hc, if_false, ih]

theorem linesFrom_line {line : List Char} (h : '\n' ∉ line) (current : List Char) :
    linesFrom current (line ++ ['\n']) = [String.ofList (current.reverse ++ line)] := by
  induction line generalizing current with
  | nil => simp [linesFrom]
  | cons c line ih =>
      rw [List.mem_cons, not_or] at h
      have hc : c ≠ '\n' := fun heq => h.1 heq.symm
      simp only [List.cons_append, linesFrom, hc, if_false, ih h.2, List.reverse_cons,
        List.append_assoc, List.nil_append]

/-! ### Lines that were written -/

@[simp] theorem unlines_nil : unlines [] = "" := rfl

@[simp] theorem unlines_cons (line : String) (lines : List String) :
    unlines (line :: lines) = line ++ "\n" ++ unlines lines := by
  simp [unlines]

@[simp] theorem unlines_append (before after : List String) :
    unlines (before ++ after) = unlines before ++ unlines after := by
  induction before with
  | nil => simp
  | cons line before ih => simp [ih, String.append_assoc]

/-- Lines that were written are cut apart from what follows them. -/
theorem linesOf_unlines_append (lines : List String) (text : String) :
    linesOf (unlines lines ++ text) = linesOf (unlines lines) ++ linesOf text := by
  induction lines with
  | nil => simp [linesOf, linesFrom]
  | cons line lines ih =>
      have htext : ∀ more, (unlines (line :: lines) ++ more).toList =
          line.toList ++ '\n' :: (unlines lines ++ more).toList := by
        intro more
        simp
      have hfirst := htext ""
      rw [String.append_empty, String.append_empty] at hfirst
      simp only [linesOf] at ih ⊢
      rw [htext, hfirst, linesFrom_append_newline, ih, linesFrom_append_newline [] line.toList
        (unlines lines).toList, List.append_assoc]

/-- What was written line by line is read line by line. -/
theorem linesOf_unlines {lines : List String} (h : ∀ line ∈ lines, '\n' ∉ line.toList) :
    linesOf (unlines lines) = lines := by
  induction lines with
  | nil => rfl
  | cons line lines ih =>
      obtain ⟨hline, hlines⟩ := List.forall_mem_cons.1 h
      have hfirst : linesOf (unlines [line]) = [line] := by
        have hread := linesFrom_line hline []
        simpa [linesOf] using hread
      have hjoin : unlines (line :: lines) = unlines [line] ++ unlines lines := by simp
      rw [hjoin, linesOf_unlines_append, hfirst, ih hlines, List.singleton_append]

/-- A number is written on one line. -/
theorem newline_not_mem_toString (n : Nat) : '\n' ∉ (toString n).toList := by
  have hdigits : (toString n).toList = Nat.toDigits 10 n := Nat.toList_repr
  rw [hdigits]
  intro hmem
  have hdigit := Nat.isDigit_of_mem_toDigits (by decide) (by decide) hmem
  exact absurd hdigit (by decide)

end BoolLut
