/-
**Spelling does not matter.**

A formula may be spelled in many ways: with more or less white space, with signs or with words for
`!`, `&&` and `||`, and these in any case of their letters.  Two texts with the same tokens are
either both formulas, with one tree, or both refused, with one message and at one token.  Only the
byte at which that token starts differs between them, and so a run prints the same result for both
and ends in the same way.

Main definitions:

* `BoolLut.startOf` — the byte at which a token starts;
* `BoolLut.SameRefusal` — two texts are refused with one message and at one token.

Main results:

* `BoolLut.Formula.parse_error_of_stop` — where a list of tokens is refused, and where a text;
* `BoolLut.Formula.parse_of_same_tokens` — two texts with the same tokens are read alike;
* `BoolLut.run_of_same_tokens` — **a run does not depend on the spelling of the text**.
-/

import BoolLut.Proofs.Reading
import BoolLut.Run

set_option relaxedAutoImplicit false
set_option autoImplicit false

namespace BoolLut

/-- The byte at which token number `i` of a text starts; behind the last one this is the end of the
text. -/
def startOf (text : String) (lexemes : List Lexeme) (i : Nat) : Nat :=
  (lexemes[i]?.map Lexeme.offset).getD text.utf8ByteSize

/-- Two texts are refused with one message, and at the token with one number. -/
structure SameRefusal (text text' : String) (lexemes lexemes' : List Lexeme) (e e' : ParseError) :
    Prop where
  message_eq : e.diagnostic.message = e'.diagnostic.message
  place : ∃ i, i ≤ lexemes.length ∧ e.diagnostic.offset = startOf text lexemes i ∧
    e'.diagnostic.offset = startOf text' lexemes' i

namespace Formula

/-- A list of tokens is refused behind some of them. -/
theorem exists_before_of_stop {ts : List Token} {stop : Stop} (h : ofTokens ts = .error stop) :
    ∃ before, ts = before ++ stop.rest := by
  obtain ⟨before, hts, -, -⟩ := Place.split_of_scan_eq_some (ofTokens_eq_error_iff.1 h)
  exact ⟨before, hts⟩

/-- If the tokens of a text are refused behind `before`, the text is refused where the next token
starts, or at its end. -/
theorem parse_error_of_stop {text : String} {lexemes : List Lexeme}
    (hlex : Token.lex text = .ok lexemes) {stop : Stop}
    (hstop : ofTokens (lexemes.map Lexeme.token) = .error stop) {before : List Token}
    (hbefore : lexemes.map Lexeme.token = before ++ stop.rest) :
    parse text = .error ⟨stop.fault, startOf text lexemes before.length⟩ := by
  rw [parse_of_lex hlex]
  simp only [hstop]
  rw [Lexeme.offsetOf_eq hbefore]
  rfl

/-- Two texts with the same tokens are formulas with one tree, or refused alike. -/
theorem parse_of_same_tokens {text text' : String} {lexemes lexemes' : List Lexeme}
    (hlex : Token.lex text = .ok lexemes) (hlex' : Token.lex text' = .ok lexemes')
    (htokens : lexemes.map Lexeme.token = lexemes'.map Lexeme.token) :
    (∃ f, parse text = .ok f ∧ parse text' = .ok f) ∨
      ∃ e e', parse text = .error e ∧ parse text' = .error e' ∧
        SameRefusal text text' lexemes lexemes' e e' := by
  cases hstop : ofTokens (lexemes.map Lexeme.token) with
  | ok f =>
      left
      have hstop' := hstop
      rw [htokens] at hstop'
      exact ⟨f, (parse_eq_ok_iff_ofTokens hlex).2 hstop, (parse_eq_ok_iff_ofTokens hlex').2 hstop'⟩
  | error stop =>
      right
      obtain ⟨before, hbefore⟩ := exists_before_of_stop hstop
      have hparse := parse_error_of_stop hlex hstop hbefore
      rw [htokens] at hstop
      have hparse' := parse_error_of_stop hlex' hstop (htokens ▸ hbefore)
      refine ⟨_, _, hparse, hparse', rfl, before.length, ?_, rfl, rfl⟩
      have hlength := congrArg List.length hbefore
      rw [List.length_map, List.length_append] at hlength
      omega

end Formula

/-- **A run does not depend on the spelling of the text.**  Two texts with the same tokens are
either both formulas, with the same tree, or both refused, with the same message; and then each of
them is refused at the start of the token with the same number, or at its end.  What a run prints as
a result, and how it ends, is the same for both. -/
theorem run_of_same_tokens {text text' : String} {lexemes lexemes' : List Lexeme}
    (hlex : Token.lex text = .ok lexemes) (hlex' : Token.lex text' = .ok lexemes')
    (htokens : lexemes.map Lexeme.token = lexemes'.map Lexeme.token) :
    ((∃ f, Formula.parse text = .ok f ∧ Formula.parse text' = .ok f) ∨
      ∃ e e', Formula.parse text = .error e ∧ Formula.parse text' = .error e' ∧
        SameRefusal text text' lexemes lexemes' e e') ∧
    ∀ style policy, (run text style policy).stdout = (run text' style policy).stdout ∧
      (run text style policy).exitCode = (run text' style policy).exitCode := by
  have hparse := Formula.parse_of_same_tokens hlex hlex' htokens
  refine ⟨hparse, fun style policy => ?_⟩
  rcases hparse with ⟨f, hf, hf'⟩ | ⟨e, e', he, he', -⟩
  · rw [run_of_ok hf, run_of_ok hf']
    exact ⟨rfl, rfl⟩
  · rw [run_of_error he, run_of_error he']
    exact ⟨rfl, rfl⟩

/-- A group that is not closed is refused at the second name in it, be it written with signs and
single blanks or with words, a blank of three bytes and a line end: at byte nine of the one text and
at byte fourteen of the other. -/
theorem run_of_same_tokens_unclosed :
    let a := Name.ofChars 'a' []
    let b := Name.ofChars 'b' []
    let c := Name.ofChars 'c' []
    Token.lex "a && !(b c" = .ok [⟨.name a, 0⟩, ⟨.connective .and, 2⟩, ⟨.not, 5⟩, ⟨.leftParen, 6⟩,
      ⟨.name b, 7⟩, ⟨.name c, 9⟩] ∧
    Token.lex "a And\u2003nOt(b\nc" = .ok [⟨.name a, 0⟩, ⟨.connective .and, 2⟩, ⟨.not, 8⟩,
      ⟨.leftParen, 11⟩, ⟨.name b, 12⟩, ⟨.name c, 14⟩] ∧
    ∃ e e', Formula.parse "a && !(b c" = .error e ∧
      Formula.parse "a And\u2003nOt(b\nc" = .error e' ∧
      e.diagnostic.text = "expected ')' at offset 9" ∧
      e'.diagnostic.text = "expected ')' at offset 14" := by
  intro a b c
  have hlex : Token.lex "a && !(b c" = .ok [⟨.name a, 0⟩, ⟨.connective .and, 2⟩, ⟨.not, 5⟩,
      ⟨.leftParen, 6⟩, ⟨.name b, 7⟩, ⟨.name c, 9⟩] := by decide +kernel
  have hlex' : Token.lex "a And\u2003nOt(b\nc" = .ok [⟨.name a, 0⟩, ⟨.connective .and, 2⟩,
      ⟨.not, 8⟩, ⟨.leftParen, 11⟩, ⟨.name b, 12⟩, ⟨.name c, 14⟩] := by decide +kernel
  have hstop : Formula.ofTokens [.name a, .connective .and, .not, .leftParen, .name b, .name c] =
      .error ⟨.unclosedGroup, [.name c]⟩ := Formula.ofTokens_eq_error_iff.2 rfl
  have hparse : Formula.parse "a && !(b c" = .error ⟨.unclosedGroup, 9⟩ := by
    have hbefore : [.name a, .connective .and, .not, .leftParen, .name b, .name c] =
      [.name a, .connective .and, .not, .leftParen, .name b] ++ [Token.name c] := rfl
    exact Formula.parse_error_of_stop hlex hstop hbefore
  refine ⟨hlex, hlex', ?_⟩
  obtain ⟨⟨f, hf, -⟩ | ⟨e, e', he, he', hmessage, i, hi, hoffset, hoffset'⟩, -⟩ :=
    run_of_same_tokens hlex hlex' rfl
  · rw [hparse] at hf
    cases hf
  · rw [hparse, Except.error.injEq] at he
    subst he
    -- among the places in the first text, byte nine is the start of token number five only
    have hplace : ∀ j ≤ 6, startOf "a && !(b c" [⟨.name a, 0⟩, ⟨.connective .and, 2⟩, ⟨.not, 5⟩,
        ⟨.leftParen, 6⟩, ⟨.name b, 7⟩, ⟨.name c, 9⟩] j = 9 →
        startOf "a And\u2003nOt(b\nc" [⟨.name a, 0⟩, ⟨.connective .and, 2⟩, ⟨.not, 8⟩,
          ⟨.leftParen, 11⟩, ⟨.name b, 12⟩, ⟨.name c, 14⟩] j = 14 := by decide +kernel
    rw [hplace i hi hoffset.symm] at hoffset'
    refine ⟨_, e', hparse, he', by decide +kernel, ?_⟩
    rw [Diagnostic.text, ← hmessage, hoffset']
    decide +kernel

end BoolLut
