/-
**Reports that tell formulas apart.**

A formula that is written with symbols can be told from its text: the text has the tokens of the
formula, and the grammar gives no tokens two trees.  This does not need the parser, which refuses
trees that are too deep, and so it holds of trees of every depth.  The text stands on the first line
of a report, with no line end in it.  So two runs that print the same report with symbols were runs
over the same formula, be the report one with a truth table or one with a refusal; and runs over the
same formula print the same anyway, since a run has no part in how the text of a formula was
spelled.

Main results:

* `BoolLut.Formula.symbols_injective` — a written formula has one reading;
* `BoolLut.head?_linesOf_run` — the first line of a report is the tree;
* `BoolLut.stdout_run_symbols_eq_iff` — **equal reports with symbols are reports on one formula**.
-/

import BoolLut.Proofs.Chains
import BoolLut.Proofs.Outcomes

set_option relaxedAutoImplicit false
set_option autoImplicit false

namespace BoolLut

/-- **A written formula has one reading**, however deep it is. -/
theorem Formula.symbols_injective {f g : Formula} (hf : f.IsWritable) (hg : g.IsWritable)
    (h : f.symbols = g.symbols) : f = g := by
  have hlex := lex_symbols hf
  rw [h, lex_symbols hg, Except.ok.injEq] at hlex
  have htokens : f.tokens = g.tokens := by
    rw [← map_token_lexemes f 0, ← hlex, map_token_lexemes]
  have hderives := f.derives_tokens
  rw [htokens] at hderives
  exact hderives.unique g.derives_tokens

section run

variable {text text' : String} {root : Formula}

/-- The first line of a report is the tree. -/
theorem head?_linesOf_run (h : Formula.parse text = .ok root) (style : TreeStyle)
    (policy : WidthPolicy) :
    (linesOf (run text style policy).stdout).head? = some (root.render style) := by
  rcases Nat.lt_or_ge 4 (namesIn text).eraseDups.length with hmany | hfew
  · rw [(run_rejects h hmany style policy).lines_eq]
    rfl
  · obtain ⟨tt, -, htabulates⟩ := run_tabulates h hfew style policy
    rw [htabulates.lines_eq]
    rfl

theorem stdout_run_ne_empty (h : Formula.parse text = .ok root) (style : TreeStyle)
    (policy : WidthPolicy) : (run text style policy).stdout ≠ "" := by
  intro hempty
  have hhead := head?_linesOf_run h style policy
  rw [hempty] at hhead
  exact absurd hhead (by simp [linesOf, linesFrom])

/-- Something is printed only if the text is a formula. -/
theorem exists_parse_of_stdout_ne_empty {style : TreeStyle} {policy : WidthPolicy}
    (h : (run text style policy).stdout ≠ "") : ∃ root, Formula.parse text = .ok root := by
  cases hparse : Formula.parse text with
  | error e => exact absurd (run_refuses hparse style policy).stdout_eq h
  | ok root => exact ⟨root, rfl⟩

/-- Runs over the same formula have the same outcome, however its text is spelled. -/
theorem run_eq_of_parse_eq (h : Formula.parse text = .ok root)
    (h' : Formula.parse text' = .ok root) (style : TreeStyle) (policy : WidthPolicy) :
    run text style policy = run text' style policy := by
  rw [run_of_ok h, run_of_ok h']

end run

/-- **Equal reports with symbols are reports on one formula.**  Two runs print the same with
symbols, and not nothing, exactly if their texts are formulas with the same tree, however deep it is
and whether it has too many names or not; and then they agree in everything, also in the other style
and under either policy. -/
theorem stdout_run_symbols_eq_iff (text text' : String) :
    (∀ policy, ((run text .symbols policy).stdout = (run text' .symbols policy).stdout ∧
        (run text .symbols policy).stdout ≠ "") ↔
      ∃ root, Formula.parse text = .ok root ∧ Formula.parse text' = .ok root) ∧
    ∀ root, Formula.parse text = .ok root → Formula.parse text' = .ok root →
      ∀ style policy, run text style policy = run text' style policy := by
  refine ⟨fun policy => ⟨?_, ?_⟩, fun root h h' => run_eq_of_parse_eq h h'⟩
  · rintro ⟨heq, hne⟩
    obtain ⟨root, hroot⟩ := exists_parse_of_stdout_ne_empty hne
    rw [heq] at hne
    obtain ⟨root', hroot'⟩ := exists_parse_of_stdout_ne_empty hne
    have hline := head?_linesOf_run hroot .symbols policy
    rw [heq, head?_linesOf_run hroot' .symbols policy, Option.some.injEq] at hline
    have htree := Formula.symbols_injective (isWritable_of_parse hroot')
      (isWritable_of_parse hroot) hline
    exact ⟨root, hroot, htree ▸ hroot'⟩
  · rintro ⟨root, h, h'⟩
    exact ⟨congrArg Outcome.stdout (run_eq_of_parse_eq h h' .symbols policy),
      stdout_run_ne_empty h .symbols policy⟩

/-- The names `a`, `b`, `c`, `d`, `e`, and `a` three hundred times more, with `||` or with the word
`Or` between them, are too many for a truth table, and their tree is deeper than the limit under
which a written formula is read back; yet the equal reports show that it is one tree. -/
theorem stdout_run_symbols_eq_deep :
    let a := Name.ofChars 'a' []
    let names := ['b', 'c', 'd', 'e'].map (Name.ofChars · []) ++ List.replicate 300 a
    let text := chainText "||" a names
    let text' := chainText "Or" a names
    (run text .symbols .exact).stdout = (run text' .symbols .exact).stdout ∧
      (run text .symbols .exact).stdout ≠ "" ∧ (run text .symbols .exact).exitCode.value = 2 ∧
      ∃ root, Formula.parse text = .ok root ∧ Formula.parse text' = .ok root ∧
        maxDepth < root.depth := by
  intro a names text text'
  have hletters : ['b', 'c', 'd', 'e'].all Token.isNameStart = true := by decide
  have ha : a.IsWritable := Name.isWritable_letter (by decide)
  have hnames : ∀ n ∈ names, n.IsWritable := by
    intro n hn
    rw [List.mem_append, List.mem_map] at hn
    rcases hn with ⟨c, hc, rfl⟩ | hn
    · exact Name.isWritable_letter (List.all_eq_true.1 hletters c hc)
    · rw [List.eq_of_mem_replicate hn]
      exact ha
  have hparse : Formula.parse text = .ok ((Formula.var a).chain .or names) :=
    Formula.parse_chain (.sign (.symbol .or)) ha hnames
  have hparse' : Formula.parse text' = .ok ((Formula.var a).chain .or names) :=
    Formula.parse_chain (.orWord (by decide)) ha hnames
  have hdepth : maxDepth < ((Formula.var a).chain .or names).depth := by
    rw [Formula.depth_chain, Formula.depth_var, List.length_append, List.length_map,
      List.length_replicate]
    decide
  have hmany : 4 < (namesIn text).eraseDups.length := by
    rw [namesIn_of_parse hparse, Formula.leaves_chain, ← List.append_assoc, List.eraseDups_append,
      List.length_append]
    have hfive : 4 < ((Formula.var a).leaves ++
        ['b', 'c', 'd', 'e'].map (Name.ofChars · [])).eraseDups.length := by decide
    exact Nat.lt_of_lt_of_le hfive (Nat.le_add_right ..)
  have hequal : (run text .symbols .exact).stdout = (run text' .symbols .exact).stdout ∧
      (run text .symbols .exact).stdout ≠ "" :=
    ⟨congrArg Outcome.stdout (run_eq_of_parse_eq hparse hparse' .symbols .exact),
      stdout_run_ne_empty hparse .symbols .exact⟩
  obtain ⟨root, hroot, hroot'⟩ := ((stdout_run_symbols_eq_iff text text').1 .exact).1 hequal
  have htree : root = (Formula.var a).chain .or names := by
    rw [hroot, Except.ok.injEq] at hparse
    exact hparse
  exact ⟨hequal.1, hequal.2, (run_rejects hparse hmany .symbols .exact).exitCode_eq, root, hroot,
    hroot', htree ▸ hdepth⟩

end BoolLut
