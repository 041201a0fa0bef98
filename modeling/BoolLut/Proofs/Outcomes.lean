/-
**The three ways a run ends.**

A run ends in one of three ways, and the text alone decides in which.  A text that is no formula
gives its message and nothing else.  A formula gives its tree and its names; what follows is a
refusal if the text has more than four different names, and the truth table otherwise.  The exit
code tells the three apart.  That a report can be cut into its lines again rests on the characters
of a text that is a formula: no name, and so no line about it, has a line end in it.

Main definitions:

* `BoolLut.namesIn` — the names in a text;
* `BoolLut.headLines`, `BoolLut.refusalLine`, `BoolLut.tableLines` — the lines about a formula and
  its names, and what may come behind them;
* `BoolLut.Outcome.Refuses`, `BoolLut.Outcome.Rejects`, `BoolLut.Outcome.Tabulates` — the three
  ways;
* `BoolLut.IsPlain` — a line without a line end and without a full stop.

Main results:

* `BoolLut.isPlain_render`, `BoolLut.exists_head_render` — what a tree is written with, and what it
  begins with;
* `BoolLut.run_refuses`, `BoolLut.run_rejects`, `BoolLut.run_tabulates` — a run in each of the
  three ways;
* `BoolLut.exitCode_run` — what decides the exit code;
* `BoolLut.run_outcome` — **every run ends in exactly one of the three ways**.
-/

import BoolLut.Proofs.InOrder
import BoolLut.Proofs.PrintedTable
import BoolLut.Proofs.WrittenTokens

set_option relaxedAutoImplicit false
set_option autoImplicit false

namespace BoolLut

/-! ### What a run may print -/

/-- The names in a text, in the order in which they stand there; none if the text has no tokens. -/
def namesIn (text : String) : List Name :=
  match Token.lex text with
  | .ok lexemes => Token.names (lexemes.map Lexeme.token)
  | .error _ => []

/-- The lines that every report on a formula begins with, if `names` stand in its text: the tree, the
number of different names, and how often each of them stands there. -/
def headLines (root : Formula) (style : TreeStyle) (names : List Name) : List String :=
  root.render style :: ("Found " ++ toString names.eraseDups.length ++ " unique identifiers") ::
    names.eraseDups.map fun n => n.text ++ ": " ++ toString (names.count n) ++ " occurrences"

/-- The line that stands in the place of a truth table if there are too many names. -/
def refusalLine (found : Nat) : String :=
  "More than 4 identifiers not supported yet (found " ++ toString found ++ ")"

/-- The lines about a truth table: the width of its codes, and a marker with the rows as digits. -/
def tableLines (tt : TruthTable) : List String :=
  ["Generating a lut" ++ toString tt.width.bits ++ ".",
    "0" ++ String.ofList (tt.rows.map fun value => if value then '1' else '0')]

namespace Outcome

/-- The text is refused because of `message` at the byte `offset`. -/
structure Refuses (o : Outcome) (message : String) (offset : Nat) : Prop where
  exitCode_eq : o.exitCode.value = 1
  stdout_eq : o.stdout = ""
  stderr_eq : o.stderr = "Parse error: " ++ message ++ " at offset " ++ toString offset ++ "\n"

/-- Behind the lines `head` there is only a refusal of a formula with `found` names. -/
structure Rejects (o : Outcome) (head : List String) (found : Nat) : Prop where
  exitCode_eq : o.exitCode.value = 2
  stderr_eq : o.stderr = ""
  stdout_eq : o.stdout = unlines (head ++ [refusalLine found])
  lines_eq : linesOf o.stdout = head ++ [refusalLine found]
  /-- No line announces a truth table. -/
  no_width : ∀ w : String, "Generating a lut" ++ w ++ "." ∉ linesOf o.stdout
  /-- No line begins as the digits of a truth table do. -/
  no_rows : ∀ rows : String, "0" ++ rows ∉ linesOf o.stdout

/-- Behind the lines `head` there are only the width and the digits of a truth table. -/
structure Tabulates (o : Outcome) (head : List String) (tt : TruthTable) : Prop where
  exitCode_eq : o.exitCode.value = 0
  stderr_eq : o.stderr = ""
  stdout_eq : o.stdout = unlines (head ++ tableLines tt)
  lines_eq : linesOf o.stdout = head ++ tableLines tt

end Outcome

/-! ### Characters -/

/-- The line has only characters of words, and some others that are no line end and no full
stop. -/
def IsPlain (line : String) : Prop :=
  ∀ c ∈ line.toList, Token.isNameChar c = true ∨ c ∈ ['(', ')', '!', '&', '|', '=', ' ', ':']

instance (line : String) : Decidable (IsPlain line) :=
  List.decidableBAll _ line.toList

theorem isPlain_append {s t : String} : IsPlain (s ++ t) ↔ IsPlain s ∧ IsPlain t := by
  simp only [IsPlain, String.toList_append, List.mem_append, or_imp, forall_and]

theorem IsPlain.not_mem {line : String} (h : IsPlain line) {c : Char}
    (hname : Token.isNameChar c = false)
    (hsign : c ∉ ['(', ')', '!', '&', '|', '=', ' ', ':']) : c ∉ line.toList := by
  intro hc
  rcases h c hc with hword | hmem
  · rw [hname] at hword
    exact absurd hword (by decide)
  · exact hsign hmem

/-- Plain lines that were written are read back. -/
theorem linesOf_unlines_of_isPlain {lines : List String} (h : ∀ line ∈ lines, IsPlain line) :
    linesOf (unlines lines) = lines :=
  linesOf_unlines fun line hline => (h line hline).not_mem (by decide) (by decide)

theorem isPlain_toString (n : Nat) : IsPlain (toString n) := by
  intro c hc
  have hdigits : (toString n).toList = Nat.toDigits 10 n := Nat.toList_repr
  rw [hdigits] at hc
  have hdigit : c.isDigit = true := Nat.isDigit_of_mem_toDigits (by decide) (by decide) hc
  simp [Token.isNameChar, Char.isAlphanum, hdigit]

theorem Name.IsWritable.isPlain {n : Name} (h : n.IsWritable) : IsPlain n.text := by
  obtain ⟨d, ds, htext, hd, hds⟩ := h.word
  intro c hc
  rw [htext, List.mem_cons] at hc
  rcases hc with rfl | hc
  · exact .inl (Token.isNameChar_of_isNameStart hd)
  · exact .inl (hds c hc)

theorem Connective.isPlain_symbol (op : Connective) : IsPlain op.symbol := by
  cases op <;> decide

/-- A tree is written on one line, with the characters of words and of signs. -/
theorem isPlain_render {f : Formula} (h : f.IsWritable) (style : TreeStyle) :
    IsPlain (f.render style) := by
  have hopen : IsPlain "(" := by decide
  have hclose : IsPlain ")" := by decide
  have hblank : IsPlain " " := by decide
  have hnot : IsPlain Formula.notSymbol := by decide
  have hfirst : IsPlain "op " := by decide
  have hmiddle : IsPlain " op " := by decide
  induction f with
  | var n =>
      have hname := (h n (by simp)).isPlain
      cases style with
      | placeholders => exact hname
      | symbols => exact hname
  | not f ih =>
      have hf := ih h
      cases style with
      | placeholders => exact isPlain_append.2 ⟨hfirst, hf⟩
      | symbols => exact isPlain_append.2 ⟨hnot, hf⟩
  | binary op f g ihf ihg =>
      obtain ⟨hwf, hwg⟩ := Formula.isWritable_binary.1 h
      have hf := ihf hwf
      have hg := ihg hwg
      cases style with
      | placeholders =>
          rw [Formula.render_placeholders] at hf hg ⊢
          simp only [Formula.placeholders_binary, isPlain_append]
          exact ⟨⟨⟨⟨hopen, hf⟩, hmiddle⟩, hg⟩, hclose⟩
      | symbols =>
          rw [Formula.render_symbols] at hf hg ⊢
          simp only [Formula.symbols_binary, isPlain_append]
          exact ⟨⟨⟨⟨⟨⟨hopen, hf⟩, hblank⟩, op.isPlain_symbol⟩, hblank⟩, hg⟩, hclose⟩

/-- A written tree begins with a word or with a sign. -/
theorem exists_head_render {f : Formula} (h : f.IsWritable) (style : TreeStyle) :
    ∃ c cs, (f.render style).toList = c :: cs ∧
      (Token.isNameStart c = true ∨ c = '!' ∨ c = '(') := by
  cases f with
  | var n =>
      obtain ⟨d, ds, htext, hd, -⟩ := (h n (by simp)).word
      cases style with
      | placeholders => exact ⟨d, ds, htext, .inl hd⟩
      | symbols => exact ⟨d, ds, htext, .inl hd⟩
  | not f =>
      cases style with
      | placeholders => exact ⟨'o', _, by simp; rfl, .inl (by decide)⟩
      | symbols => exact ⟨'!', _, by simp [Formula.notSymbol]; rfl, .inr (.inl rfl)⟩
  | binary op f g =>
      cases style with
      | placeholders => exact ⟨'(', _, by simp; rfl, .inr (.inr rfl)⟩
      | symbols => exact ⟨'(', _, by simp; rfl, .inr (.inr rfl)⟩

/-! ### Lines about a formula -/

section headLines

variable {root : Formula} {style : TreeStyle}

theorem summary_nameTable (root : Formula) (style : TreeStyle) :
    root.render style :: root.nameTable.summary = headLines root style root.leaves := by
  rw [NameTable.summary, root.counts_nameTable, root.size_nameTable, List.map_map]
  rfl

theorem isPlain_headLines (h : root.IsWritable) :
    ∀ line ∈ headLines root style root.leaves, IsPlain line := by
  have hfound : IsPlain "Found " := by decide
  have hunique : IsPlain " unique identifiers" := by decide
  have hcolon : IsPlain ": " := by decide
  have hoccurrences : IsPlain " occurrences" := by decide
  intro line hline
  rw [headLines, List.mem_cons, List.mem_cons, List.mem_map] at hline
  rcases hline with rfl | rfl | ⟨n, hn, rfl⟩
  · exact isPlain_render h style
  · simp only [isPlain_append]
    exact ⟨⟨hfound, isPlain_toString _⟩, hunique⟩
  · have hname := (h n (List.mem_eraseDups.1 hn)).isPlain
    simp only [isPlain_append]
    exact ⟨⟨⟨hname, hcolon⟩, isPlain_toString _⟩, hoccurrences⟩

theorem message_eq_refusalLine (found : Nat) :
    TooManyNames.message ⟨found, maxNames⟩ = refusalLine found := by
  have hlimit : "More than " ++ toString maxNames ++ " identifiers not supported yet (found " =
      "More than 4 identifiers not supported yet (found " := by decide +kernel
  rw [TooManyNames.message, hlimit]
  rfl

theorem isPlain_refusalLine (found : Nat) : IsPlain (refusalLine found) := by
  have hmore : IsPlain "More than 4 identifiers not supported yet (found " := by decide +kernel
  have hclose : IsPlain ")" := by decide
  unfold refusalLine
  rw [isPlain_append, isPlain_append]
  exact ⟨⟨hmore, isPlain_toString found⟩, hclose⟩

/-- No line about a formula begins as the digits of a truth table do. -/
theorem head?_headLines_ne (h : root.IsWritable) :
    ∀ line ∈ headLines root style root.leaves, line.toList.head? ≠ some '0' := by
  have hstart : ∀ {c : Char}, Token.isNameStart c = true → c ≠ '0' := by
    rintro c hc rfl
    exact absurd hc (by decide)
  intro line hline
  rw [headLines, List.mem_cons, List.mem_cons, List.mem_map] at hline
  rcases hline with rfl | rfl | ⟨n, hn, rfl⟩
  · obtain ⟨c, cs, htext, hc⟩ := exists_head_render h style
    rw [htext, List.head?_cons, ne_eq, Option.some.injEq]
    rcases hc with hc | rfl | rfl
    · exact hstart hc
    · decide
    · decide
  · simp
  · obtain ⟨d, ds, htext, hd, -⟩ := (h n (List.mem_eraseDups.1 hn)).word
    simp [htext, hstart hd]

theorem head?_refusalLine_ne (found : Nat) : (refusalLine found).toList.head? ≠ some '0' := by
  have hmore : "More than 4 identifiers not supported yet (found ".toList.head? = some 'M' := by
    decide +kernel
  unfold refusalLine
  rw [String.toList_append, String.toList_append, List.head?_append, List.head?_append, hmore,
    Option.some_or, Option.some_or]
  decide

theorem tableLines_eq (tt : TruthTable) :
    tableLines tt = ["Generating a lut" ++ toString tt.width.bits ++ ".", tt.lut] := by
  have hmarker : lutMarker.toString = "0" := by decide
  rw [TruthTable.lut, hmarker]
  rfl

end headLines

/-! ### The three ways -/

theorem namesIn_of_parse {text : String} {root : Formula} (h : Formula.parse text = .ok root) :
    namesIn text = root.leaves := by
  obtain ⟨lexemes, hlex, hleaves⟩ := Formula.leaves_of_parse h
  rw [hleaves, namesIn, hlex]

theorem isWritable_of_parse {text : String} {root : Formula}
    (h : Formula.parse text = .ok root) : root.IsWritable := by
  obtain ⟨lexemes, hlex, hleaves⟩ := Formula.leaves_of_parse h
  intro n hn
  refine Token.isWritable_of_lex hlex ?_
  rw [hleaves, Token.names, List.mem_filterMap] at hn
  obtain ⟨t, ht, hname⟩ := hn
  cases t <;> simp at hname
  exact hname ▸ ht

section ways

variable {text : String} {root : Formula}

theorem size_of_parse (h : Formula.parse text = .ok root) :
    root.nameTable.size = (namesIn text).eraseDups.length := by
  rw [root.size_nameTable, namesIn_of_parse h]

/-- A text that is no formula is refused. -/
theorem run_refuses {e : ParseError} (h : Formula.parse text = .error e) (style : TreeStyle)
    (policy : WidthPolicy) : (run text style policy).Refuses e.fault.message e.offset := by
  rw [run_of_error h]
  refine ⟨rfl, rfl, ?_⟩
  simp [Outcome.ofParseError, Failure.message, Diagnostic.text, ParseError.diagnostic,
    String.append_assoc]

/-- What a run over a formula with more than four names prints. -/
theorem run_of_lt (h : Formula.parse text = .ok root)
    (hnames : 4 < (namesIn text).eraseDups.length) (style : TreeStyle) (policy : WidthPolicy) :
    run text style policy = ⟨unlines (headLines root style (namesIn text) ++
      [refusalLine (namesIn text).eraseDups.length]), "", .capacity⟩ := by
  have hsize := size_of_parse h
  have hbuild : TruthTable.build root.nameTable root policy = .error ⟨_, maxNames⟩ :=
    TruthTable.build_eq_error_iff.2 ⟨by rw [hsize]; exact hnames, rfl⟩
  rw [run_of_ok h, hbuild, ← message_eq_refusalLine, ← hsize, namesIn_of_parse h,
    ← summary_nameTable]
  rfl

/-- What a run over a formula with at most four names prints. -/
theorem run_of_le (h : Formula.parse text = .ok root)
    (hnames : (namesIn text).eraseDups.length ≤ 4) (style : TreeStyle) (policy : WidthPolicy) :
    ∃ tt, TruthTable.build root.nameTable root policy = .ok tt ∧
      run text style policy =
        ⟨unlines (headLines root style (namesIn text) ++ tableLines tt), "", .success⟩ := by
  have hsize : root.nameTable.size ≤ maxNames := by rw [size_of_parse h]; exact hnames
  obtain ⟨tt, htt⟩ := TruthTable.exists_build hsize root policy
  refine ⟨tt, htt, ?_⟩
  rw [run_of_ok h, htt, namesIn_of_parse h, ← summary_nameTable, tableLines_eq]
  rfl

/-- A formula with more than four names is rejected. -/
theorem run_rejects (h : Formula.parse text = .ok root)
    (hnames : 4 < (namesIn text).eraseDups.length) (style : TreeStyle) (policy : WidthPolicy) :
    (run text style policy).Rejects (headLines root style (namesIn text))
      (namesIn text).eraseDups.length := by
  have hwritable := isWritable_of_parse h
  have hplain : ∀ line ∈ headLines root style (namesIn text) ++
      [refusalLine (namesIn text).eraseDups.length], IsPlain line := by
    rw [namesIn_of_parse h, List.forall_mem_append, List.forall_mem_singleton]
    exact ⟨isPlain_headLines hwritable, isPlain_refusalLine _⟩
  have hhead : ∀ line ∈ headLines root style (namesIn text) ++
      [refusalLine (namesIn text).eraseDups.length], line.toList.head? ≠ some '0' := by
    rw [namesIn_of_parse h, List.forall_mem_append, List.forall_mem_singleton]
    exact ⟨head?_headLines_ne hwritable, head?_refusalLine_ne _⟩
  have hlines := linesOf_unlines_of_isPlain hplain
  rw [run_of_lt h hnames]
  refine ⟨rfl, rfl, rfl, hlines, ?_, ?_⟩
  · intro w hw
    rw [hlines] at hw
    -- a line that announces a truth table has a full stop at its end
    exact (hplain _ hw).not_mem (c := '.') (by decide) (by decide) (by simp)
  · intro rows hrows
    rw [hlines] at hrows
    exact hhead _ hrows (by simp)

/-- A formula with at most four names is tabulated. -/
theorem run_tabulates (h : Formula.parse text = .ok root)
    (hnames : (namesIn text).eraseDups.length ≤ 4) (style : TreeStyle) (policy : WidthPolicy) :
    ∃ tt, TruthTable.build root.nameTable root policy = .ok tt ∧
      (run text style policy).Tabulates (headLines root style (namesIn text)) tt := by
  obtain ⟨tt, htt, hrun⟩ := run_of_le h hnames style policy
  have hhead : linesOf (unlines (headLines root style root.leaves)) =
      headLines root style root.leaves :=
    linesOf_unlines_of_isPlain (isPlain_headLines (isWritable_of_parse h))
  have htext := Report.linesOf_text (r := ⟨root, root.nameTable, .ok tt, style⟩) rfl
  have hreport : Report.text ⟨root, root.nameTable, .ok tt, style⟩ =
      unlines (headLines root style root.leaves ++ tableLines tt) := by
    rw [← summary_nameTable, tableLines_eq]
    rfl
  rw [hreport, summary_nameTable, hhead, ← tableLines_eq, ← namesIn_of_parse h] at htext
  rw [hrun]
  exact ⟨tt, htt, rfl, rfl, rfl, htext⟩

end ways

/-- What the text is, and how many names are in it, decides how a run over it ends; the style and the
policy have no part in it. -/
theorem exitCode_run (text : String) (style : TreeStyle) (policy : WidthPolicy) :
    (run text style policy).exitCode =
      match Formula.parse text with
      | .error _ => .parse
      | .ok _ => if 4 < (namesIn text).eraseDups.length then .capacity else .success := by
  cases hparse : Formula.parse text with
  | error e =>
      exact ExitCode.value_injective (run_refuses hparse style policy).exitCode_eq
  | ok root =>
      by_cases hnames : 4 < (namesIn text).eraseDups.length
      · simp only [if_pos hnames]
        exact ExitCode.value_injective (run_rejects hparse hnames style policy).exitCode_eq
      · obtain ⟨tt, -, htabulates⟩ := run_tabulates hparse (Nat.le_of_not_lt hnames) style policy
        simp only [if_neg hnames]
        exact ExitCode.value_injective htabulates.exitCode_eq

/-- **Every run ends in exactly one of three ways.**  A text that is no formula is refused with its
message and offset, a formula with more than four different names in its text is rejected with their
number, and any other formula is tabulated; the exit code tells which it was, and depends on neither
the style nor the policy. -/
theorem run_outcome (text : String) (style : TreeStyle) (policy : WidthPolicy) :
    ((run text style policy).exitCode.value = 1 ↔ ∃ e, Formula.parse text = .error e) ∧
    ((run text style policy).exitCode.value = 2 ↔
      (∃ root, Formula.parse text = .ok root) ∧ 4 < (namesIn text).eraseDups.length) ∧
    ((run text style policy).exitCode.value = 0 ↔
      (∃ root, Formula.parse text = .ok root) ∧ (namesIn text).eraseDups.length ≤ 4) ∧
    (∀ e, Formula.parse text = .error e →
      (run text style policy).Refuses e.fault.message e.offset) ∧
    (∀ root, Formula.parse text = .ok root → 4 < (namesIn text).eraseDups.length →
      (run text style policy).Rejects (headLines root style (namesIn text))
        (namesIn text).eraseDups.length) ∧
    (∀ root, Formula.parse text = .ok root → (namesIn text).eraseDups.length ≤ 4 →
      ∃ tt, TruthTable.build root.nameTable root policy = .ok tt ∧
        (run text style policy).Tabulates (headLines root style (namesIn text)) tt) ∧
    ∀ style' policy', (run text style' policy').exitCode = (run text style policy).exitCode := by
  have hcode := exitCode_run text style policy
  refine ⟨?_, ?_, ?_, fun e he => run_refuses he style policy,
    fun root h hnames => run_rejects h hnames style policy,
    fun root h hnames => run_tabulates h hnames style policy, fun style' policy' =>
      (exitCode_run text style' policy').trans hcode.symm⟩
  all_goals
    rw [hcode]
    cases Formula.parse text with
    | error e => simp [ExitCode.value]
    | ok root =>
        rcases Nat.lt_or_ge 4 (namesIn text).eraseDups.length with hmany | hfew
        · simp [ExitCode.value, hmany]
        · simp [ExitCode.value, hfew, Nat.not_lt.2 hfew]

/-- A chain of five names, the first of them twice, is rejected with the number five. -/
theorem run_outcome_five_names :
    ∃ root, Formula.parse "a || b || c || d || e || a" = .ok root ∧
      4 < (namesIn "a || b || c || d || e || a").eraseDups.length ∧
      (run "a || b || c || d || e || a" .symbols .exact).Rejects
        ["(((((a || b) || c) || d) || e) || a)", "Found 5 unique identifiers",
          "a: 2 occurrences", "b: 1 occurrences", "c: 1 occurrences", "d: 1 occurrences",
          "e: 1 occurrences"] 5 := by
  have hlex : Token.lex "a || b || c || d || e || a" =
      .ok [⟨.name (.ofChars 'a' []), 0⟩, ⟨.connective .or, 2⟩, ⟨.name (.ofChars 'b' []), 5⟩,
        ⟨.connective .or, 7⟩, ⟨.name (.ofChars 'c' []), 10⟩, ⟨.connective .or, 12⟩,
        ⟨.name (.ofChars 'd' []), 15⟩, ⟨.connective .or, 17⟩, ⟨.name (.ofChars 'e' []), 20⟩,
        ⟨.connective .or, 22⟩, ⟨.name (.ofChars 'a' []), 25⟩] := by decide +kernel
  have hname : ∀ c, Derives Level.disjunction.item [.name (.ofChars c [])] (.var (.ofChars c [])) :=
    fun c => (Derives.atom (.name _)).item_of_operand _
  have hor : Connective.or.level = .disjunction := rfl
  have hformula : Derives (.chain .disjunction) _ _ :=
    .join hor (.join hor (.join hor (.join hor (.join hor (.item (hname 'a')) (hname 'b'))
      (hname 'c')) (hname 'd')) (hname 'e')) (hname 'a')
  have hparse := Formula.parse_of_derives hlex hformula
    ((hformula.scan_eq_none_iff maxDepth).1 rfl)
  have hnames := namesIn_of_parse hparse
  have hmany : 4 < (namesIn "a || b || c || d || e || a").eraseDups.length := by
    rw [hnames]
    decide
  obtain ⟨-, -, -, -, hrejects, -, -⟩ := run_outcome "a || b || c || d || e || a" .symbols .exact
  have hrejected := hrejects _ hparse hmany
  rw [hnames] at hrejected
  exact ⟨_, hparse, hmany, hrejected⟩

end BoolLut
