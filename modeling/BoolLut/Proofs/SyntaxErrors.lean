/-
**Syntax errors are reported at the earliest place.**

A list of tokens *begins a formula* if something can be written behind it that makes it one, within
the limit on open signs.  Every text whose tokens are no formula is refused at the first token with
which they begin none any more, or at the end of the text if they still begin one.  The message
follows from what stands before that place alone: whether only the limit stands in the way, whether
a complete operand inside a group ends there, or whether an operand is missing.

Main definitions:

* `BoolLut.BeginsFormula`, `BoolLut.BeginsSentence` — something can make the tokens a formula,
  within the limit and without one;
* `BoolLut.EndsOperandInGroup`, `BoolLut.LacksOperand` — a complete operand inside an open group
  ends here, and an operand is missing here;
* `BoolLut.Explains` — a message is the one that is due at a place.

Main results:

* `BoolLut.beginsFormula_iff` — the tokens that begin a formula are those that may come one after
  the other;
* `BoolLut.Place.Refused.eq_tooDeep_iff`, `BoolLut.Place.Refused.eq_unclosedGroup_iff`,
  `BoolLut.Place.Refused.eq_unexpectedEnd_iff` — when a refusal has which cause;
* `BoolLut.Formula.parse_error_earliest` — **the first token that cannot be right is reported**,
  with the message that is due there.
-/

import BoolLut.Proofs.Reading

set_option relaxedAutoImplicit false
set_option autoImplicit false

namespace BoolLut

open Opener Place

/-! ### Beginnings of formulas -/

/-- Something can be written behind the tokens that makes them a formula within the limit. -/
def BeginsFormula (before : List Token) : Prop :=
  ∃ more, Sentence (before ++ more) ∧ AtMostOpen maxDepth (before ++ more)

/-- Something can be written behind the tokens that makes them a formula of any depth. -/
def BeginsSentence (before : List Token) : Prop := ∃ more, Sentence (before ++ more)

/-- The tokens behind some `(` make a formula. -/
def EndsOperandInGroup (before : List Token) : Prop :=
  ∃ outer inner, before = outer ++ .leftParen :: inner ∧ Sentence inner

/-- An operand can be written behind the tokens. -/
def LacksOperand (before : List Token) : Prop :=
  ∃ ts f, Derives .operand ts f ∧ BeginsSentence (before ++ ts)

theorem Sentence.admits {ts : List Token} (h : Sentence ts) : Admits ts.length start ts := by
  obtain ⟨f, hf⟩ := h
  exact hf.admits _ _ (by simp)

theorem beginsSentence_of_admits {limit : Nat} {before : List Token}
    (h : Admits limit start before) : BeginsSentence before := by
  obtain ⟨more, hmore, hend⟩ := exists_completion (settled_start.afterAll before) limit
  have hscan : scan limit start (before ++ more) = none := by
    rw [scan_append h, scan_eq_none_iff]
    exact ⟨hmore, hend⟩
  exact ⟨more, sentence_of_scan_eq_none hscan⟩

/-- The tokens that begin a formula of any depth are those that may come for some limit. -/
theorem beginsSentence_iff {before : List Token} :
    BeginsSentence before ↔ ∃ limit, Admits limit start before := by
  constructor
  · rintro ⟨more, hmore⟩
    exact ⟨_, (admits_append_iff.1 hmore.admits).1⟩
  · rintro ⟨limit, h⟩
    exact beginsSentence_of_admits h

/-- The tokens that begin a formula are those that may come within the limit. -/
theorem beginsFormula_iff {before : List Token} :
    BeginsFormula before ↔ Admits maxDepth start before := by
  constructor
  · rintro ⟨more, ⟨f, hf⟩, hopen⟩
    have hscan := (hf.scan_eq_none_iff maxDepth).2 hopen
    exact (admits_append_iff.1 (scan_eq_none_iff.1 hscan).1).1
  · intro h
    obtain ⟨more, hmore, hend⟩ := exists_completion (settled_start.afterAll before) maxDepth
    have hscan : scan maxDepth start (before ++ more) = none := by
      rw [scan_append h, scan_eq_none_iff]
      exact ⟨hmore, hend⟩
    obtain ⟨f, hf⟩ := Formula.exists_ofTokens_eq_ok_iff.2 hscan
    rw [Formula.ofTokens_eq_ok_iff] at hf
    exact ⟨more, ⟨f, hf.1⟩, hf.2⟩

/-! ### What is known at a place -/

section Known

variable {limit : Nat} {before : List Token}

/-- Only the limit stands in the way of a token that may come for another limit. -/
theorem beginsSentence_concat_iff (h : Admits limit start before) (t : Token) :
    BeginsSentence (before ++ [t]) ↔ ∃ n, (start.afterAll before).refusal n t = none := by
  rw [beginsSentence_iff]
  constructor
  · rintro ⟨n, hn⟩
    exact ⟨n, (admits_append_iff.1 hn).2.1⟩
  · rintro ⟨n, hn⟩
    -- the larger of the two limits allows both the tokens before and the token itself
    refine ⟨max limit n, admits_append_iff.2 ⟨h.mono (Nat.le_max_left _ _), ?_, admits_nil⟩⟩
    exact refusal_mono hn (Nat.le_max_right _ _)

/-- No phrase begins where an operand has just been completed. -/
theorem not_admits_of_derives {p : Phrase} {ts : List Token} {f : Formula} (h : Derives p ts f)
    (signs : List Opener) : ¬ Admits limit ⟨signs, true⟩ ts := by
  induction h with
  | item _ ih => exact ih
  | join _ _ _ ihf _ => exact fun hts => ihf (admits_append_iff.1 hts).1
  | atom _ ih => exact ih
  | not _ _ => rintro ⟨ht, -⟩; cases signs <;> simp [refusal] at ht
  | name n => rintro ⟨ht, -⟩; cases signs <;> simp [refusal] at ht
  | group _ _ => rintro ⟨ht, -⟩; cases signs <;> simp [refusal] at ht

/-- An operand is missing exactly where none has just been completed. -/
theorem lacksOperand_iff (h : Admits limit start before) :
    LacksOperand before ↔ (start.afterAll before).complete = false := by
  constructor
  · rintro ⟨ts, f, hf, hmore⟩
    obtain ⟨n, hn⟩ := beginsSentence_iff.1 hmore
    have hts := (admits_append_iff.1 hn).2
    cases hplace : start.afterAll before with
    | mk signs complete =>
        rw [hplace] at hts
        cases complete with
        | false => rfl
        | true => exact absurd hts (not_admits_of_derives hf signs)
  · intro hcomplete
    -- any name will do, and it may come whatever the limit
    refine ⟨[.name (.ofChars 'x' [])], _, .atom (.name _), ?_⟩
    rw [beginsSentence_concat_iff h]
    cases hplace : start.afterAll before with
    | mk signs complete =>
        rw [hplace] at hcomplete
        cases hcomplete
        exact ⟨0, rfl⟩

/-- A complete operand inside a group ends exactly where an operand is complete and a sign is
open. -/
theorem endsOperandInGroup_iff (h : Admits limit start before) :
    EndsOperandInGroup before ↔
      (start.afterAll before).complete = true ∧ (start.afterAll before).signs ≠ [] := by
  constructor
  · rintro ⟨outer, inner, rfl, f, hf⟩
    rw [admits_append_iff, admits_cons_iff] at h
    rw [afterAll_append, afterAll_cons]
    cases hplace : start.afterAll outer with
    | mk signs complete =>
        rw [hplace] at h
        cases complete with
        | true => cases signs <;> simp [refusal] at h
        | false =>
            have hinner := hf.afterAll (.group :: signs)
            have hopen : Place.after ⟨signs, false⟩ .leftParen = ⟨.group :: signs, false⟩ := rfl
            rw [hopen, hinner]
            simp
  · rintro ⟨hcomplete, hsigns⟩
    -- a `)` may come here, and whatever it closes stands before it
    have hclose : (start.afterAll before).refusal limit .rightParen = none := by
      cases hplace : start.afterAll before with
      | mk signs complete =>
          rw [hplace] at hcomplete hsigns
          cases hcomplete
          cases signs with
          | nil => exact absurd rfl hsigns
          | cons sign signs => rfl
    have hadmits : Admits limit start (before ++ [.rightParen]) :=
      admits_append_iff.2 ⟨h, admits_cons_iff.2 ⟨hclose, admits_nil⟩⟩
    obtain ⟨more, f, hf⟩ := beginsSentence_of_admits hadmits
    rw [List.append_assoc, List.singleton_append] at hf
    exact hf.group_of_rightParen rfl

end Known

/-! ### Causes -/

/-- Why `after` may not come at the place `q`, be it a token or the end. -/
inductive Place.Refused (q : Place) : List Token → Fault → Prop
  | missing : q.complete = false → Refused q [] .unexpectedEnd
  | tooDeep {t : Token} {rest : List Token} (n : Nat) :
      q.complete = false → q.refusal n t = none → Refused q (t :: rest) .tooDeep
  | unexpected {t : Token} {rest : List Token} :
      (q.complete = true → q.signs = []) → (∀ n, q.refusal n t ≠ none) →
        Refused q (t :: rest) (.unexpected t)
  | unclosedAtEnd : q.complete = true → q.signs ≠ [] → Refused q [] .unclosedGroup
  | unclosed {t : Token} {rest : List Token} :
      q.complete = true → q.signs ≠ [] → t ≠ .rightParen → (∀ op, t ≠ .connective op) →
        (∀ n, q.refusal n t ≠ none) → Refused q (t :: rest) .unclosedGroup

namespace Place

variable {limit : Nat} {q : Place} {after : List Token} {fault : Fault}

private theorem refused_of_missing {signs : List Opener} {t : Token} {rest : List Token}
    (h : refusal limit ⟨signs, false⟩ t = some fault) :
    Refused ⟨signs, false⟩ (t :: rest) fault := by
  have hroom : signs.length < signs.length + 1 := Nat.lt_succ_self _
  cases t with
  | name n => simp [refusal] at h
  | not =>
      obtain ⟨-, rfl⟩ : ¬ signs.length < limit ∧ Fault.tooDeep = fault := by
        simpa [refusal] using h
      exact .tooDeep (signs.length + 1) rfl (if_pos hroom)
  | leftParen =>
      obtain ⟨-, rfl⟩ : ¬ signs.length < limit ∧ Fault.tooDeep = fault := by
        simpa [refusal] using h
      exact .tooDeep (signs.length + 1) rfl (if_pos hroom)
  | connective op =>
      cases h
      exact .unexpected (by simp) (by simp [refusal])
  | rightParen =>
      cases h
      exact .unexpected (by simp) (by simp [refusal])

private theorem refused_of_complete {signs : List Opener} {t : Token} {rest : List Token}
    (h : refusal limit ⟨signs, true⟩ t = some fault) : Refused ⟨signs, true⟩ (t :: rest) fault := by
  have hlimit : ∀ n, refusal n ⟨signs, true⟩ t ≠ none := by
    intro n
    rw [refusal_complete n limit, h]
    simp
  cases signs with
  | nil =>
      have hfault : fault = .unexpected t := by
        cases t <;> simp_all [refusal]
      rw [hfault]
      exact .unexpected (fun _ => rfl) hlimit
  | cons sign signs =>
      have hfault : fault = .unclosedGroup := by
        cases t <;> simp_all [refusal]
      rw [hfault]
      refine .unclosed rfl (by simp) ?_ ?_ hlimit
      · rintro rfl
        simp [refusal] at h
      · rintro op rfl
        simp [refusal] at h

/-- Whatever is refused is refused for one of five causes. -/
theorem refused_of_refuses (h : q.refuses limit after = some fault) : q.Refused after fault := by
  obtain ⟨signs, complete⟩ := q
  cases after with
  | cons t rest =>
      cases complete with
      | false => exact refused_of_missing h
      | true => exact refused_of_complete h
  | nil =>
      cases complete with
      | false =>
          cases h
          exact .missing rfl
      | true =>
          cases signs with
          | nil => simp [refuses, atEnd] at h
          | cons sign signs =>
              cases h
              exact .unclosedAtEnd rfl (by simp)

namespace Refused

/-- A token is refused for its depth exactly if it may come for another limit. -/
theorem eq_tooDeep_iff (h : q.Refused after fault) :
    fault = .tooDeep ↔ ∃ t rest, after = t :: rest ∧ ∃ n, q.refusal n t = none := by
  cases h with
  | missing _ => simp
  | @tooDeep t rest n _ hn => exact ⟨fun _ => ⟨t, rest, rfl, n, hn⟩, fun _ => rfl⟩
  | unexpected _ hn => simpa using hn
  | unclosedAtEnd _ _ => simp
  | unclosed _ _ _ _ hn => simpa using hn

/-- A group is not closed exactly if an operand ends in it, and neither goes on nor is closed. -/
theorem eq_unclosedGroup_iff (h : q.Refused after fault) :
    fault = .unclosedGroup ↔ (q.complete = true ∧ q.signs ≠ []) ∧
      ∀ t rest, after = t :: rest → t ≠ .rightParen ∧ ∀ op, t ≠ .connective op := by
  cases h with
  | missing hcomplete => simp [hcomplete]
  | tooDeep n hcomplete _ => simp [hcomplete]
  | unexpected hsigns _ =>
      simp only [reduceCtorEq, false_iff, not_and]
      rintro ⟨hcomplete, hne⟩
      exact absurd (hsigns hcomplete) hne
  | unclosedAtEnd hcomplete hne => simp [hcomplete, hne]
  | unclosed hcomplete hne hright hop _ =>
      refine ⟨fun _ => ⟨⟨hcomplete, hne⟩, ?_⟩, fun _ => rfl⟩
      rintro t rest hts
      cases hts
      exact ⟨hright, hop⟩

/-- The end comes too early exactly if an operand is missing there. -/
theorem eq_unexpectedEnd_iff (h : q.Refused after fault) :
    fault = .unexpectedEnd ↔ after = [] ∧ q.complete = false := by
  cases h with
  | missing hcomplete => simp [hcomplete]
  | tooDeep n _ _ => simp
  | unexpected _ _ => simp
  | unclosedAtEnd hcomplete _ => simp [hcomplete]
  | unclosed _ _ _ _ _ => simp

end Refused

end Place

/-! ### Messages -/

/-- The message about an unexpected token is none of the other three. -/
theorem Fault.message_unexpected_ne (t : Token) :
    (unexpected t).message ≠ "expression nested too deeply" ∧
      (unexpected t).message ≠ "expected ')'" ∧
        (unexpected t).message ≠ "unexpected end of input" := by
  rw [message_unexpected]
  refine ⟨fun h => ?_, fun h => ?_, fun h => ?_⟩
  · have := congrArg String.toList h
    simp at this
  · have := congrArg String.toList h
    simp at this
  · have := congrArg String.toList h
    cases t with
    | connective op => cases op <;> simp [Token.describe] at this
    | name n => simp [Token.describe] at this
    | not => simp [Token.describe] at this
    | leftParen => simp [Token.describe] at this
    | rightParen => simp [Token.describe] at this

/-- The message tells the cause. -/
theorem Place.Refused.message_eq_iff {q : Place} {after : List Token} {fault : Fault}
    (h : q.Refused after fault) :
    (fault.message = "expression nested too deeply" ↔ fault = .tooDeep) ∧
      (fault.message = "expected ')'" ↔ fault = .unclosedGroup) ∧
        (fault.message = "unexpected end of input" ↔ fault = .unexpectedEnd) := by
  cases h with
  | missing _ => decide
  | tooDeep n _ _ => decide
  | @unexpected t _ _ _ =>
      obtain ⟨hdeep, hunclosed, hend⟩ := Fault.message_unexpected_ne t
      simp [hdeep, hunclosed, hend]
  | unclosedAtEnd _ _ => decide
  | unclosed _ _ _ _ _ => decide

/-- The message that is due when the tokens `before` were read and `after` come next. -/
structure Explains (before after : List Token) (message : String) : Prop where
  tooDeep : message = "expression nested too deeply" ↔
    ∃ t rest, after = t :: rest ∧ BeginsSentence (before ++ [t])
  unclosed : message = "expected ')'" ↔
    EndsOperandInGroup before ∧
      ∀ t rest, after = t :: rest → t ≠ .rightParen ∧ ∀ op, t ≠ .connective op
  atEnd : message = "unexpected end of input" ↔ after = [] ∧ LacksOperand before
  otherwise : message ≠ "expression nested too deeply" → message ≠ "expected ')'" →
    message ≠ "unexpected end of input" →
      ∃ t rest, after = t :: rest ∧ message = "unexpected " ++ t.describe

/-- The message of the cause is the one that is due. -/
theorem explains_of_refuses {limit : Nat} {before after : List Token} {fault : Fault}
    (h : Admits limit start before)
    (hrefuses : (start.afterAll before).refuses limit after = some fault) :
    Explains before after fault.message := by
  have hrefused := refused_of_refuses hrefuses
  obtain ⟨hdeep, hunclosed, hend⟩ := hrefused.message_eq_iff
  constructor
  · simp only [hdeep, hrefused.eq_tooDeep_iff, beginsSentence_concat_iff h]
  · rw [hunclosed, hrefused.eq_unclosedGroup_iff, endsOperandInGroup_iff h]
  · rw [hend, hrefused.eq_unexpectedEnd_iff, lacksOperand_iff h]
  · intro hne₁ hne₂ hne₃
    cases hrefused with
    | missing _ => exact absurd rfl hne₃
    | tooDeep n _ _ => exact absurd rfl hne₁
    | @unexpected t rest _ _ => exact ⟨t, rest, rfl, Fault.message_unexpected t⟩
    | unclosedAtEnd _ _ => exact absurd rfl hne₂
    | unclosed _ _ _ _ _ => exact absurd rfl hne₂

/-! ### The first fault of a text -/

/-- **A syntax error is reported at the first token with which a text begins no formula any more**,
or at the end if all of its tokens begin one, and the message is the one that is due there. -/
theorem Formula.parse_error_earliest {text : String} {lexemes : List Lexeme} {e : ParseError}
    (hlex : Token.lex text = .ok lexemes) (hparse : parse text = .error e) :
    ∃ before after, lexemes.map Lexeme.token = before ++ after ∧
      (∀ shorter, shorter <+: before → BeginsFormula shorter) ∧
      (∀ t rest, after = t :: rest → ¬ BeginsFormula (before ++ [t])) ∧
      ¬ (Sentence (before ++ after) ∧ AtMostOpen maxDepth (before ++ after)) ∧
      e.diagnostic.offset =
        (lexemes[before.length]?.map Lexeme.offset).getD text.utf8ByteSize ∧
      Explains before after e.diagnostic.message := by
  rw [parse_of_lex hlex] at hparse
  cases hstop : ofTokens (lexemes.map Lexeme.token) with
  | ok f => simp [hstop] at hparse
  | error stop =>
      simp only [hstop, Except.error.injEq] at hparse
      have hscan := ofTokens_eq_error_iff.1 hstop
      obtain ⟨before, hts, hadmits, hrefuses⟩ := split_of_scan_eq_some hscan
      refine ⟨before, stop.rest, hts, ?_, ?_, ?_, ?_, ?_⟩
      · rintro shorter ⟨more, rfl⟩
        exact beginsFormula_iff.2 (admits_append_iff.1 hadmits).1
      · intro t rest hrest hbegins
        rw [beginsFormula_iff, admits_append_iff, admits_cons_iff] at hbegins
        rw [hrest, refuses, hbegins.2.1] at hrefuses
        simp at hrefuses
      · rintro ⟨⟨f, hf⟩, hopen⟩
        rw [← hts] at hf hopen
        rw [ofTokens_eq_ok_iff.2 ⟨hf, hopen⟩] at hstop
        simp at hstop
      · rw [← hparse]
        exact Lexeme.offsetOf_eq hts _
      · rw [← hparse]
        exact explains_of_refuses hadmits hrefuses

/-- A second name inside a group is where the group should have been closed. -/
theorem Formula.parse_two_names_in_group :
    Token.lex "a && (b c" =
      .ok [⟨.name (.ofChars 'a' []), 0⟩, ⟨.connective .and, 2⟩, ⟨.leftParen, 5⟩,
        ⟨.name (.ofChars 'b' []), 6⟩, ⟨.name (.ofChars 'c' []), 8⟩] ∧
    parse "a && (b c" = .error ⟨.unclosedGroup, 8⟩ ∧
    ∃ before after, [Token.name (.ofChars 'a' []), .connective .and, .leftParen,
        .name (.ofChars 'b' []), .name (.ofChars 'c' [])] = before ++ after ∧
      (∀ shorter, shorter <+: before → BeginsFormula shorter) ∧
      (∀ t rest, after = t :: rest → ¬ BeginsFormula (before ++ [t])) ∧
      ¬ (Sentence (before ++ after) ∧ AtMostOpen maxDepth (before ++ after)) ∧
      8 = ([0, 2, 5, 6, 8][before.length]?).getD 9 ∧
      Explains before after "expected ')'" := by
  have hlex : Token.lex "a && (b c" =
      .ok [⟨.name (.ofChars 'a' []), 0⟩, ⟨.connective .and, 2⟩, ⟨.leftParen, 5⟩,
        ⟨.name (.ofChars 'b' []), 6⟩, ⟨.name (.ofChars 'c' []), 8⟩] := by decide +kernel
  have hstop : ofTokens [.name (.ofChars 'a' []), .connective .and, .leftParen,
      .name (.ofChars 'b' []), .name (.ofChars 'c' [])] =
      .error ⟨.unclosedGroup, [.name (.ofChars 'c' [])]⟩ := ofTokens_eq_error_iff.2 rfl
  have hparse : parse "a && (b c" = .error ⟨.unclosedGroup, 8⟩ := by
    rw [parse_of_lex hlex]
    simp only [List.map_cons, List.map_nil, hstop]
    rfl
  obtain ⟨before, after, hts, hbegins, hnot, hformula, hoffset, hexplains⟩ :=
    parse_error_earliest hlex hparse
  refine ⟨hlex, hparse, before, after, hts, hbegins, hnot, hformula, ?_, hexplains⟩
  have hsize : "a && (b c".utf8ByteSize = 9 := by decide
  simpa [ParseError.diagnostic, ← List.getElem?_map, hsize] using hoffset

end BoolLut
