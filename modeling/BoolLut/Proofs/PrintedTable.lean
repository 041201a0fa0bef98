/-
**The digits that a run prints.**

The last line of a report is a marker and a digit for each code, and the digit of a code tells
whether the formula is true when each name has its bit of the code.  From the text of a formula to
this line every step matters: which names the text has and in which order, how many bits a code
gets, which row belongs to which code, and where the digits start on the line.

Main results:

* `BoolLut.TruthTable.getElem?_lut` — where a row stands on the printed line;
* `BoolLut.Formula.leaves_of_parse` — the leaves of a formula are the names in its text;
* `BoolLut.run_last_line` — **the printed digits tell when the formula is true**.
-/

import BoolLut.Proofs.Lines
import BoolLut.Proofs.Reading
import BoolLut.Proofs.Rows
import BoolLut.Run

set_option relaxedAutoImplicit false
set_option autoImplicit false

namespace BoolLut

namespace TruthTable

variable {tt : TruthTable}

/-! ### The printed line -/

theorem toList_lut (tt : TruthTable) : tt.lut.toList = '0' :: tt.rows.map digit := by
  simp [lut, digits, lutMarker]

theorem digit_eq (value : Bool) : digit value = '0' ∨ digit value = '1' := by
  cases value
  · exact .inl rfl
  · exact .inr rfl

theorem digit_eq_one_iff {value : Bool} : digit value = '1' ↔ value = true := by
  cases value <;> decide

/-- A row stands behind the marker and the rows before it. -/
theorem getElem?_lut (tt : TruthTable) (code : Nat) :
    tt.lut.toList[1 + code]? = (tt.row? code).map digit := by
  rw [toList_lut, Nat.add_comm, List.getElem?_cons_succ, List.getElem?_map, row?]

theorem length_lut (tt : TruthTable) : tt.lut.toList.length = 1 + 2 ^ tt.width.bits := by
  rw [toList_lut, List.length_cons, List.length_map, tt.length_rows, Nat.add_comm]
  rfl

theorem eq_of_mem_lut {c : Char} (h : c ∈ tt.lut.toList) : c = '0' ∨ c = '1' := by
  rw [toList_lut, List.mem_cons, List.mem_map] at h
  rcases h with rfl | ⟨value, -, rfl⟩
  · exact .inl rfl
  · exact digit_eq value

end TruthTable

/-- A report with a truth table ends in two lines about it. -/
theorem Report.linesOf_text {r : Report} {tt : TruthTable} (h : r.table = .ok tt) :
    linesOf r.text = linesOf (unlines (r.root.render r.style :: r.names.summary)) ++
      ["Generating a lut" ++ toString tt.width.bits ++ ".", tt.lut] := by
  have hwidth : '\n' ∉ ("Generating a lut" ++ toString tt.width.bits ++ ".").toList := by
    have hnumber := newline_not_mem_toString tt.width.bits
    simpa using hnumber
  have hlut : '\n' ∉ tt.lut.toList := by
    intro hmem
    rcases TruthTable.eq_of_mem_lut hmem with hc | hc
    · exact absurd hc (by decide)
    · exact absurd hc (by decide)
  have hconclusion : linesOf (unlines (conclusion r.table)) = conclusion r.table := by
    refine linesOf_unlines ?_
    rw [h]
    intro line hline
    rcases List.mem_cons.1 hline with rfl | hline
    · exact hwidth
    · rw [List.mem_singleton.1 hline]
      exact hlut
  rw [text, lines, unlines_append, linesOf_unlines_append, hconclusion, h]
  rfl

/-- The leaves of a formula are the names in its text. -/
theorem Formula.leaves_of_parse {text : String} {root : Formula} (h : parse text = .ok root) :
    ∃ lexemes, Token.lex text = .ok lexemes ∧
      root.leaves = Token.names (lexemes.map Lexeme.token) := by
  obtain ⟨lexemes, hlex, hderives⟩ := derives_of_parse h
  exact ⟨lexemes, hlex, hderives.leaves_eq⟩

/-- **The printed digits tell when the formula is true.**  A run over a formula with at most four
names succeeds.  On the last line a marker is followed by as many digits as the width on the line
before allows, and the digit of a valuation stands where the values of the names, numbered by their
first occurrences in the text, are the bits of its place; it is one exactly when the formula is true
under the valuation. -/
theorem run_last_line {text : String} {root : Formula} (hparse : Formula.parse text = .ok root)
    (hnames : root.leaves.eraseDups.length ≤ 4) (style : TreeStyle) (policy : WidthPolicy) :
    (run text style policy).exitCode.value = 0 ∧ (run text style policy).stderr = "" ∧
    ∃ lexemes names, Token.lex text = .ok lexemes ∧
      names = (Token.names (lexemes.map Lexeme.token)).eraseDups ∧ names.Nodup ∧
      (∀ n, n ∈ names ↔ n ∈ root.leaves) ∧
      ∃ (front : List String) (w : ℕ) (line : String), linesOf (run text style policy).stdout =
          front ++ ["Generating a lut" ++ toString w ++ ".", line] ∧
        line.toList[0]? = some '0' ∧ line.toList.length = 1 + 2 ^ w ∧
        (∀ c ∈ line.toList, c = '0' ∨ c = '1') ∧
        ∀ value : String → Bool, ∃ digit : Char,
          line.toList[1 + ∑ j : Fin names.length, (value names[j].text).toNat * 2 ^ (j : ℕ)]? =
            some digit ∧ (digit = '1' ↔ root.Holds value) := by
  obtain ⟨lexemes, hlex, hleaves⟩ := Formula.leaves_of_parse hparse
  have htable : root.nameTable.names = root.leaves.eraseDups := root.names_nameTable
  have hsize : root.nameTable.size ≤ maxNames := by
    rw [← NameTable.length_names, htable]
    exact hnames
  obtain ⟨tt, htt⟩ := TruthTable.exists_build hsize root policy
  have hmem : ∀ n, n ∈ root.nameTable.names ↔ n ∈ root.leaves := by
    intro n
    rw [htable, List.mem_eraseDups]
  rw [run_of_ok hparse, htt]
  refine ⟨rfl, rfl, lexemes, root.nameTable.names, hlex, ?_, root.nameTable.names_nodup, hmem,
    _, tt.width.bits, tt.lut, Report.linesOf_text rfl, ?_, tt.length_lut,
    fun c hc => TruthTable.eq_of_mem_lut hc, ?_⟩
  · rw [htable, hleaves]
  · rw [TruthTable.toList_lut]
    rfl
  · intro value
    -- every name of the formula is in its own table, so none of them counts as false
    have hother : ∀ n ∈ root.leaves, n ∉ root.nameTable.names → value n.text = false :=
      fun n hn hnot => absurd ((hmem n).2 hn) hnot
    refine ⟨TruthTable.digit (root.eval value), ?_, ?_⟩
    · rw [← codeOf_eq_sum, TruthTable.getElem?_lut, TruthTable.row?_codeOf htt hother,
        Option.map_some]
    · rw [TruthTable.digit_eq_one_iff, Formula.eval_eq_true_iff]

/-- In `b && !a` the name `b` comes first, so code one, which makes only `b` true, has the digit one
and code three, which makes both names true, has the digit zero. -/
theorem run_last_line_two_names :
    Formula.parse "b && !a" =
      .ok (.binary .and (.var (.ofChars 'b' [])) (.not (.var (.ofChars 'a' [])))) ∧
    ∃ (front : List String) (w : ℕ) (line : String),
      linesOf (run "b && !a" .symbols .exact).stdout =
        front ++ ["Generating a lut" ++ toString w ++ ".", line] ∧
      line.toList[2]? = some '1' ∧ line.toList[4]? = some '0' := by
  have hlex : Token.lex "b && !a" =
      .ok [⟨.name (.ofChars 'b' []), 0⟩, ⟨.connective .and, 2⟩, ⟨.not, 5⟩,
        ⟨.name (.ofChars 'a' []), 6⟩] := by decide +kernel
  have hname : ∀ n, Derives .operand [.name n] (.var n) := fun n => .atom (.name n)
  have hand : Connective.and.level = .conjunction := rfl
  have hconjunction : Derives (.chain .conjunction) _ _ :=
    .join hand (.item ((hname (.ofChars 'b' [])).item_of_operand .conjunction))
      ((Derives.not (hname (.ofChars 'a' []))).item_of_operand .conjunction)
  have hformula := hconjunction.formula_of_chain
  have hparse : Formula.parse "b && !a" =
      .ok (.binary .and (.var (.ofChars 'b' [])) (.not (.var (.ofChars 'a' [])))) :=
    (Formula.parse_eq_ok_iff_ofTokens hlex).2
      (Formula.ofTokens_eq_ok_iff.2 ⟨hformula, (hformula.scan_eq_none_iff maxDepth).1 rfl⟩)
  obtain ⟨-, -, lexemes, names, hlex', hnames, -, -, front, w, line, hlines, -, -, hdigits,
    hvalue⟩ := run_last_line hparse (by decide) .symbols .exact
  rw [hlex, Except.ok.injEq] at hlex'
  have hba : names = [.ofChars 'b' [], .ofChars 'a' []] := by
    rw [hnames, ← hlex']
    decide
  subst hba
  have hone : codeOf (fun text => text == "b") [.ofChars 'b' [], .ofChars 'a' []] = 1 := by decide
  have hthree : codeOf (fun _ => true) [.ofChars 'b' [], .ofChars 'a' []] = 3 := by decide
  have hplace : ∀ value : String → Bool, ∃ digit : Char,
      line.toList[1 + codeOf value [.ofChars 'b' [], .ofChars 'a' []]]? = some digit ∧
        (digit = '1' ↔ Formula.Holds value
          (.binary .and (.var (.ofChars 'b' [])) (.not (.var (.ofChars 'a' []))))) := by
    intro value
    rw [codeOf_eq_sum]
    exact hvalue value
  obtain ⟨second, hsecond, htrue⟩ := hplace fun text => text == "b"
  obtain ⟨last, hlast, hfalse⟩ := hplace fun _ => true
  rw [hone] at hsecond
  rw [hthree] at hlast
  obtain rfl : second = '1' := htrue.2 (by decide)
  obtain rfl : last = '0' :=
    (hdigits last (List.mem_of_getElem? hlast)).resolve_right (mt hfalse.1 (by decide))
  exact ⟨hparse, front, w, line, hlines, hsecond, hlast⟩

end BoolLut
