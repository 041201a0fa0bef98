/-
**Each choice has lines of its own.**

The style of the tree and the policy for widths are chosen apart from each other and from the text.
The style shows on the first line of a report and nowhere else.  The policy shows on the last two
lines of a report that has a truth table, and nowhere else; a text that is no formula, or has too
many names, does not let it show at all.  How a run ends, what it complains of and how many lines it
prints is the same for all choices.  Lines can be compared place by place because a tree is written
on one line, whatever its names are.

Main definitions:

* `BoolLut.Outcome.DiffersOnlyAt` — two outcomes are the same but for the lines at certain places.

Main results:

* `BoolLut.exists_conclusion` — what stands behind the lines about a formula, in every style;
* `BoolLut.run_style_differsOnlyAt`, `BoolLut.run_policy_differsOnlyAt` — what may change with the
  style, and what may change with the policy;
* `BoolLut.run_own_lines` — **each choice changes no lines but its own**.
-/

import BoolLut.Proofs.Outcomes

set_option relaxedAutoImplicit false
set_option autoImplicit false

namespace BoolLut

/-- Two outcomes are the same but for the lines at certain places of the result: they end alike,
they complain alike, and they print equally many lines. -/
structure Outcome.DiffersOnlyAt (o o' : Outcome) (place : Nat → Prop) : Prop where
  exitCode_eq : o.exitCode = o'.exitCode
  stderr_eq : o.stderr = o'.stderr
  length_eq : (linesOf o.stdout).length = (linesOf o'.stdout).length
  line_eq : ∀ i, ¬ place i → (linesOf o.stdout)[i]? = (linesOf o'.stdout)[i]?

theorem Outcome.DiffersOnlyAt.refl (o : Outcome) (place : Nat → Prop) :
    o.DiffersOnlyAt o place := ⟨rfl, rfl, rfl, fun _ _ => rfl⟩

section run

variable {text : String} {root : Formula}

/-- Whatever the style, the same lines stand behind those about the formula and its names: those
about the truth table under the policy, if there is one. -/
theorem exists_conclusion (h : Formula.parse text = .ok root) (policy : WidthPolicy) :
    ∃ conclusion,
      (∀ style, (run text style policy).stderr = "" ∧
        (run text style policy).stdout =
          unlines (headLines root style (namesIn text) ++ conclusion) ∧
        linesOf (run text style policy).stdout =
          headLines root style (namesIn text) ++ conclusion) ∧
      ((namesIn text).eraseDups.length ≤ 4 →
        ∃ tt, TruthTable.build root.nameTable root policy = .ok tt ∧
          conclusion = tableLines tt) := by
  rcases Nat.lt_or_ge 4 (namesIn text).eraseDups.length with hmany | hfew
  · refine ⟨[refusalLine (namesIn text).eraseDups.length], fun style => ?_, fun hfew => ?_⟩
    · have hrejects := run_rejects h hmany style policy
      exact ⟨hrejects.stderr_eq, hrejects.stdout_eq, hrejects.lines_eq⟩
    · omega
  · obtain ⟨tt, htt, -⟩ := run_tabulates h hfew .symbols policy
    refine ⟨tableLines tt, fun style => ?_, fun _ => ⟨tt, htt, rfl⟩⟩
    obtain ⟨tt', htt', htabulates⟩ := run_tabulates h hfew style policy
    rw [htt, Except.ok.injEq] at htt'
    subst htt'
    exact ⟨htabulates.stderr_eq, htabulates.stdout_eq, htabulates.lines_eq⟩

/-- Every line that is printed has an end, and none has one inside. -/
theorem unlines_linesOf_run (text : String) (style : TreeStyle) (policy : WidthPolicy) :
    unlines (linesOf (run text style policy).stdout) = (run text style policy).stdout := by
  cases hparse : Formula.parse text with
  | error e =>
      rw [(run_refuses hparse style policy).stdout_eq]
      rfl
  | ok root =>
      obtain ⟨conclusion, hconclusion, -⟩ := exists_conclusion hparse policy
      obtain ⟨-, hstdout, hlines⟩ := hconclusion style
      rw [hlines, ← hstdout]

/-- The way a run ends does not depend on what was chosen. -/
theorem exitCode_run_eq (text : String) (style style' : TreeStyle) (policy policy' : WidthPolicy) :
    (run text style policy).exitCode = (run text style' policy').exitCode := by
  rw [exitCode_run, exitCode_run]

/-- Another style changes at most the first line. -/
theorem run_style_differsOnlyAt (text : String) (style style' : TreeStyle) (policy : WidthPolicy) :
    (run text style policy).DiffersOnlyAt (run text style' policy) (· = 0) := by
  cases hparse : Formula.parse text with
  | error e =>
      rw [run_of_error hparse, run_of_error hparse]
      exact .refl _ _
  | ok root =>
      obtain ⟨conclusion, hconclusion, -⟩ := exists_conclusion hparse policy
      obtain ⟨hstderr, -, hlines⟩ := hconclusion style
      obtain ⟨hstderr', -, hlines'⟩ := hconclusion style'
      constructor
      · exact exitCode_run_eq text style style' policy policy
      · rw [hstderr, hstderr']
      · rw [hlines, hlines']
        rfl
      · intro i hi
        obtain ⟨j, rfl⟩ := Nat.exists_eq_succ_of_ne_zero hi
        rw [hlines, hlines']
        rfl

/-- Under another policy a text that has no truth table is answered in the same way. -/
theorem run_policy_eq (h : (∃ e, Formula.parse text = .error e) ∨
      4 < (namesIn text).eraseDups.length) (style : TreeStyle) (policy policy' : WidthPolicy) :
    run text style policy = run text style policy' := by
  cases hparse : Formula.parse text with
  | error e => rw [run_of_error hparse, run_of_error hparse]
  | ok root =>
      rcases h with ⟨e, he⟩ | hmany
      · rw [hparse] at he
        cases he
      · rw [run_of_lt hparse hmany, run_of_lt hparse hmany]

/-- Another policy changes at most the last two lines. -/
theorem run_policy_differsOnlyAt (text : String) (style : TreeStyle)
    (policy policy' : WidthPolicy) :
    (run text style policy).DiffersOnlyAt (run text style policy') fun i =>
      (linesOf (run text style policy).stdout).length ≤ i + 2 := by
  by_cases hnone : (∃ e, Formula.parse text = .error e) ∨ 4 < (namesIn text).eraseDups.length
  · rw [run_policy_eq hnone style policy policy']
    exact .refl _ _
  · rw [not_or, not_exists, Nat.not_lt] at hnone
    obtain ⟨hok, hfew⟩ := hnone
    cases hparse : Formula.parse text with
    | error e => exact absurd hparse (hok e)
    | ok root =>
        obtain ⟨tt, -, htabulates⟩ := run_tabulates hparse hfew style policy
        obtain ⟨tt', -, htabulates'⟩ := run_tabulates hparse hfew style policy'
        constructor
        · exact exitCode_run_eq text style style policy policy'
        · rw [htabulates.stderr_eq, htabulates'.stderr_eq]
        · rw [htabulates.lines_eq, htabulates'.lines_eq, List.length_append, List.length_append]
          rfl
        · intro i hi
          -- in front of the last two lines there are only those about the formula and its names
          have hhead : i < (headLines root style (namesIn text)).length := by
            have htwo : (tableLines tt).length = 2 := rfl
            rw [htabulates.lines_eq, List.length_append] at hi
            omega
          rw [htabulates.lines_eq, htabulates'.lines_eq, List.getElem?_append_left hhead,
            List.getElem?_append_left hhead]

end run

/-- **Each choice changes no lines but its own.**  What is printed consists of whole lines.  Another
style changes at most the first of them, and another policy at most the last two, and these only if
the run succeeds; the exit code, the complaint, the number of lines and all other lines stay as they
are.  A text that is no formula, or has more than four names in it, has the same outcome under every
policy.  On their own lines both choices do show: the first line is the tree in the given style, and
the last two are those of the truth table under the given policy. -/
theorem run_own_lines (text : String) :
    (∀ style policy,
      unlines (linesOf (run text style policy).stdout) = (run text style policy).stdout) ∧
    (∀ style style' policy,
      (run text style policy).DiffersOnlyAt (run text style' policy) (· = 0)) ∧
    (∀ style policy policy',
      (run text style policy).DiffersOnlyAt (run text style policy') fun i =>
        (linesOf (run text style policy).stdout).length ≤ i + 2) ∧
    (∀ style policy policy', (run text style policy).exitCode.value ≠ 0 →
      run text style policy = run text style policy') ∧
    ((∃ e, Formula.parse text = .error e) ∨ 4 < (namesIn text).eraseDups.length →
      ∀ style policy policy', run text style policy = run text style policy') ∧
    (∀ root, Formula.parse text = .ok root → ∀ style policy,
      ∃ conclusion, linesOf (run text style policy).stdout =
          headLines root style (namesIn text) ++ conclusion ∧
        ((namesIn text).eraseDups.length ≤ 4 →
          ∃ tt, TruthTable.build root.nameTable root policy = .ok tt ∧
            conclusion = tableLines tt)) := by
  refine ⟨unlines_linesOf_run text, run_style_differsOnlyAt text, run_policy_differsOnlyAt text,
    ?_, fun h => run_policy_eq h, ?_⟩
  · intro style policy policy' hcode
    refine run_policy_eq ?_ style policy policy'
    rw [exitCode_run] at hcode
    cases hparse : Formula.parse text with
    | error e => exact .inl ⟨e, rfl⟩
    | ok root =>
        right
        rw [hparse] at hcode
        refine Decidable.byContradiction fun hfew => hcode ?_
        simp only [if_neg hfew]
        rfl
  · intro root hparse style policy
    obtain ⟨conclusion, hconclusion, htable⟩ := exists_conclusion hparse policy
    obtain ⟨-, -, hlines⟩ := hconclusion style
    exact ⟨conclusion, hlines, htable⟩

end BoolLut
