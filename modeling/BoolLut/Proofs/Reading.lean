/-
**The parsers read the grammar.**

A parser that takes a phrase from the front of a list of tokens agrees with two other views of the
list.  What it takes is a phrase of the grammar, with the tree that it returns; and it stands at
the place behind these tokens, so that any fault it sees is the first one of a scan from left to
right.  Every parser is shown to agree in this sense by an induction on the room that it has; what
carries the induction is that the signs that are open and the room add up to the limit.

Main definitions:

* `BoolLut.Parser.Reads` — a parser agrees with the grammar and with the scan;
* `BoolLut.grouped`, `BoolLut.sideBySide` — a group around tokens, and groups with connectives
  between them.

Main results:

* `BoolLut.Parser.reads_operand`, `BoolLut.Parser.reads_disjunction` — all parsers of formulas do;
* `BoolLut.Formula.ofTokens_eq_error_iff` — a list of tokens is refused for the first fault of a
  scan, and there;
* `BoolLut.Formula.ofTokens_eq_ok_iff` — the tree of a list of tokens is the one of the grammar,
  if no more than `BoolLut.maxDepth` signs are open at once;
* `BoolLut.Formula.parse_eq_ok_iff_derives` — **the same for a text**, with the limit judged for
  each operand and each group by itself.
-/

import Mathlib.Data.List.Basic
import BoolLut.Proofs.Place

set_option relaxedAutoImplicit false
set_option autoImplicit false

namespace BoolLut

open Opener Place

namespace Parser

variable {limit : Nat} {signs : List Opener} {ts : List Token}

/-- What a parser of the phrase `p` makes of `ts`, where `signs` are open and an operand is
missing, agrees with the grammar and with a scan of `ts`. -/
def Agrees (limit : Nat) (signs : List Opener) (p : Phrase) (ts : List Token) : Parsed → Prop
  | .ok (f, rest) =>
      ∃ used, ts = used ++ rest ∧ Derives p used f ∧ p.EndsAt rest ∧
        scan limit ⟨signs, false⟩ ts = scan limit ⟨settle signs, true⟩ rest
  | .error stop => scan limit ⟨signs, false⟩ ts = some stop

/-- The parser agrees with the grammar and with the scan on all lists of tokens. -/
def Reads (limit : Nat) (signs : List Opener) (p : Phrase) (parser : Parser) : Prop :=
  ∀ ts, Agrees limit signs p ts (parser.run ts)

/-! ### Chains -/

private theorem chainTail_agrees {level : Level} {item : Parser}
    (hitem : item.Reads limit signs level.item) (hsigns : settle signs = signs) {lhs : Formula}
    {used : List Token} (hlhs : Derives (.chain level) used lhs) (hends : level.item.EndsAt ts)
    (hscan : scan limit ⟨signs, false⟩ (used ++ ts) = scan limit ⟨signs, true⟩ ts) :
    Agrees limit signs (.chain level) (used ++ ts) (chainTail level item lhs ts) := by
  -- `used` grows with the chain; that it has been read without a fault carries the induction
  fun_induction chainTail level item lhs ts generalizing used with
  | case1 lhs op rest hop stop hrun =>
      have hstop := hitem rest
      rw [hrun] at hstop
      exact (hscan.trans (scan_cons_of_none rfl)).trans hstop
  | case2 lhs op rest hop rhs rest' hrun ih =>
      have hrhs := hitem rest
      rw [hrun] at hrhs
      obtain ⟨mid, rfl, hrhs, hends', hscan'⟩ := hrhs
      have hused : used ++ .connective op :: (mid ++ rest') =
          (used ++ .connective op :: mid) ++ rest' := by simp
      have hstep : scan limit ⟨signs, true⟩ (.connective op :: (mid ++ rest')) =
          scan limit ⟨signs, true⟩ rest' := by
        rw [hsigns] at hscan'
        exact (scan_cons_of_none rfl).trans hscan'
      rw [hused] at hscan ⊢
      exact ih (.join hop hlhs hrhs) hends' (hscan.trans hstep)
  | case3 lhs op rest hop =>
      refine ⟨used, rfl, hlhs, ?_, by rw [hscan, hsigns]⟩
      intro op' rest' hrest htakes
      rcases Phrase.takes_chain_iff.1 htakes with hlevel | hinner
      · cases hrest
        exact hop hlevel
      · exact hends op' rest' hrest hinner
  | case4 lhs ts hts =>
      exact ⟨used, rfl, hlhs, fun op rest hrest => absurd hrest (hts op rest),
        by rw [hscan, hsigns]⟩

/-- A chain is read if its items are. -/
theorem Reads.chain {level : Level} {item : Parser} (hitem : item.Reads limit signs level.item)
    (hsigns : settle signs = signs) :
    (Parser.chain level item).Reads limit signs (.chain level) := by
  intro ts
  have hts := hitem ts
  simp only [Parser.chain]
  cases hrun : item.run ts with
  | error stop =>
      rw [hrun] at hts
      exact hts
  | ok result =>
      obtain ⟨lhs, rest⟩ := result
      rw [hrun] at hts
      obtain ⟨used, rfl, hlhs, hends, hscan⟩ := hts
      rw [hsigns] at hscan
      exact chainTail_agrees hitem hsigns (.item hlhs) hends hscan

/-- A formula is read if its operands are. -/
theorem Reads.disjunction {operand : Parser} (h : operand.Reads limit signs .operand)
    (hsigns : settle signs = signs) :
    operand.disjunction.Reads limit signs (.chain .disjunction) := by
  have hcomparison : operand.comparison.Reads limit signs (.chain .comparison) :=
    Reads.chain h hsigns
  have hconjunction : operand.conjunction.Reads limit signs (.chain .conjunction) :=
    Reads.chain hcomparison hsigns
  exact Reads.chain hconjunction hsigns

/-! ### Operands -/

private theorem scan_unclosed {rest : List Token} (h : (Phrase.chain .disjunction).EndsAt rest)
    (hclose : ∀ rest', rest ≠ .rightParen :: rest') :
    scan limit ⟨.group :: signs, true⟩ rest = some ⟨.unclosedGroup, rest⟩ := by
  refine scan_of_refuses ?_
  cases rest with
  | nil => rfl
  | cons t rest =>
      cases t with
      | connective op => exact absurd trivial (h op rest rfl)
      | rightParen => exact absurd rfl (hclose rest)
      | name n => rfl
      | not => rfl
      | leftParen => rfl

/-- A group is read behind its opening sign. -/
theorem group_agrees {inner : Parser} (hroom : signs.length < limit)
    (h : inner.Reads limit (.group :: signs) (.chain .disjunction)) (ts : List Token) :
    Agrees limit signs .atom (.leftParen :: ts) (group inner ts) := by
  have hopen : scan limit ⟨signs, false⟩ (.leftParen :: ts) =
      scan limit ⟨.group :: signs, false⟩ ts := scan_cons_of_none (refusal_of_lt hroom).2
  have hts := h ts
  unfold group
  split
  · next stop hrun =>
      rw [hrun] at hts
      exact hopen.trans hts
  · next f rest hrun =>
      rw [hrun] at hts
      obtain ⟨used, rfl, hf, -, hscan⟩ := hts
      refine ⟨.leftParen :: (used ++ [.rightParen]), by simp, .group hf,
        fun _ _ _ htakes => htakes, ?_⟩
      rw [hopen, hscan]
      exact scan_cons_of_none rfl
  · next f rest hclose hrun =>
      rw [hrun] at hts
      obtain ⟨used, rfl, hf, hends, hscan⟩ := hts
      refine hopen.trans (hscan.trans (scan_unclosed hends ?_))
      intro rest' hrest
      exact hclose rest' hrest

/-- A negation is read behind its sign. -/
theorem negation_agrees {operand : Parser} (hroom : signs.length < limit)
    (h : operand.Reads limit (.negation :: signs) .operand) (ts : List Token) :
    Agrees limit signs .operand (.not :: ts) (negation operand ts) := by
  have hopen : scan limit ⟨signs, false⟩ (.not :: ts) =
      scan limit ⟨.negation :: signs, false⟩ ts := scan_cons_of_none (refusal_of_lt hroom).1
  have hts := h ts
  unfold negation
  split
  · next stop hrun =>
      rw [hrun] at hts
      exact hopen.trans hts
  · next f rest hrun =>
      rw [hrun] at hts
      obtain ⟨used, rfl, hf, -, hscan⟩ := hts
      exact ⟨.not :: used, rfl, .not hf, fun _ _ _ htakes => htakes, hopen.trans hscan⟩

/-- What `deeper` reads is one sign further in, and without it no sign may be opened. -/
def DeeperReads (limit : Nat) (signs : List Opener) : Option Parser → Prop
  | none => limit ≤ signs.length
  | some operand => signs.length < limit ∧ ∀ sign, operand.Reads limit (sign :: signs) .operand

/-- An atom is read, unless the sign `!` comes first. -/
theorem atom_agrees {deeper : Option Parser} (h : DeeperReads limit signs deeper)
    (hnot : ∀ rest, ts ≠ .not :: rest) :
    Agrees limit signs .atom ts ((atom deeper).run ts) := by
  cases ts with
  | nil => exact scan_of_refuses rfl
  | cons t ts =>
      cases t with
      | name n => exact ⟨[.name n], rfl, .name n, fun _ _ _ htakes => htakes, scan_cons_of_none rfl⟩
      | leftParen =>
          cases deeper with
          | none => exact scan_of_refuses (refusal_of_le h).2
          | some operand => exact group_agrees h.1 ((h.2 .group).disjunction rfl) ts
      | not => exact absurd rfl (hnot ts)
      | connective op => exact scan_of_refuses rfl
      | rightParen => exact scan_of_refuses rfl

theorem Agrees.operand {r : Parsed} (h : Agrees limit signs .atom ts r) :
    Agrees limit signs .operand ts r := by
  cases r with
  | error stop => exact h
  | ok result =>
      obtain ⟨used, hts, hf, -, hscan⟩ := h
      exact ⟨used, hts, .atom hf, fun _ _ _ htakes => htakes, hscan⟩

theorem reads_operandOver {deeper : Option Parser} (h : DeeperReads limit signs deeper) :
    (operandOver deeper).Reads limit signs .operand := by
  intro ts
  simp only [operandOver]
  split
  · next rest =>
      cases deeper with
      | none => exact scan_of_refuses (refusal_of_le h).1
      | some operand => exact negation_agrees h.1 (h.2 .negation) rest
  · next hnot => exact (atom_agrees h fun rest => hnot rest).operand

/-- An operand is read if the open signs and the room add up to the limit. -/
theorem reads_operand {room : Nat} (h : signs.length + room = limit) :
    (operand room).Reads limit signs .operand := by
  induction room generalizing signs with
  | zero => exact reads_operandOver (Nat.le_of_eq h.symm)
  | succ room ih =>
      -- one sign further in there is one more sign open and one level of room less
      refine reads_operandOver ⟨by omega, fun sign => ih ?_⟩
      rw [List.length_cons]
      omega

/-- A formula is read if all room is left. -/
theorem reads_disjunction (limit : Nat) :
    (operand limit).disjunction.Reads limit [] (.chain .disjunction) :=
  (reads_operand (Nat.zero_add limit)).disjunction rfl

end Parser

/-! ### Lists of tokens -/

/-- For the tokens of a formula, the limit is all that a scan can find fault with. -/
theorem Derives.scan_eq_none_iff {ts : List Token} {f : Formula}
    (h : Derives (.chain .disjunction) ts f) (limit : Nat) :
    scan limit start ts = none ↔ AtMostOpen limit ts := by
  have hadmits : Admits ts.length start ts := h.admits _ _ (by simp)
  have hend : start.afterAll ts = ⟨[], true⟩ := h.afterAll []
  rw [Place.scan_eq_none_iff, hend, admits_iff_of_admits hadmits (Nat.zero_le limit)]
  exact and_iff_left rfl

/-- Behind a formula nothing but the end may come. -/
private theorem scan_behind_formula {t : Token} {rest : List Token}
    (h : (Phrase.chain .disjunction).EndsAt (t :: rest)) (limit : Nat) :
    scan limit ⟨[], true⟩ (t :: rest) = some ⟨.unexpected t, t :: rest⟩ := by
  refine scan_of_refuses ?_
  cases t with
  | connective op => exact absurd trivial (h op rest rfl)
  | name n => rfl
  | not => rfl
  | leftParen => rfl
  | rightParen => rfl

/-- Tokens in which a scan finds no fault make a formula. -/
theorem sentence_of_scan_eq_none {limit : Nat} {ts : List Token}
    (h : scan limit start ts = none) : Sentence ts := by
  have hts := Parser.reads_disjunction limit ts
  cases hrun : (Parser.operand limit).disjunction.run ts with
  | error stop =>
      rw [hrun] at hts
      exact absurd (h.symm.trans hts) (by simp)
  | ok result =>
      obtain ⟨f, rest⟩ := result
      rw [hrun] at hts
      obtain ⟨used, rfl, hf, hends, hscan⟩ := hts
      cases rest with
      | nil => exact ⟨f, by simpa using hf⟩
      | cons t rest =>
          have hstop := hscan.trans (scan_behind_formula hends limit)
          exact absurd (h.symm.trans hstop) (by simp)

namespace Formula

private theorem ofTokens_agrees (ts : List Token) :
    match ofTokens ts with
    | .ok f => Derives (.chain .disjunction) ts f ∧ scan maxDepth start ts = none
    | .error stop => scan maxDepth start ts = some stop := by
  have hts := Parser.reads_disjunction maxDepth ts
  unfold ofTokens
  cases hrun : (Parser.operand maxDepth).disjunction.run ts with
  | error stop =>
      rw [hrun] at hts
      exact hts
  | ok result =>
      obtain ⟨f, rest⟩ := result
      rw [hrun] at hts
      obtain ⟨used, rfl, hf, hends, hscan⟩ := hts
      cases rest with
      | nil => exact ⟨by simpa using hf, hscan⟩
      | cons t rest => exact hscan.trans (scan_behind_formula hends maxDepth)

/-- A list of tokens is refused for the first fault of a scan, and where the scan finds it. -/
theorem ofTokens_eq_error_iff {ts : List Token} {stop : Stop} :
    ofTokens ts = .error stop ↔ scan maxDepth start ts = some stop := by
  have hts := ofTokens_agrees ts
  cases h : ofTokens ts with
  | error stop' =>
      rw [h] at hts
      simp only at hts
      rw [hts, Except.error.injEq, Option.some.injEq]
  | ok f =>
      rw [h] at hts
      simp [hts.2]

/-- The tree of a list of tokens is the one of the grammar, within the limit. -/
theorem ofTokens_eq_ok_iff {ts : List Token} {f : Formula} :
    ofTokens ts = .ok f ↔ Derives (.chain .disjunction) ts f ∧ AtMostOpen maxDepth ts := by
  have hts := ofTokens_agrees ts
  cases h : ofTokens ts with
  | error stop =>
      rw [h] at hts
      simp only [reduceCtorEq, false_iff, not_and]
      intro hf hopen
      rw [(hf.scan_eq_none_iff maxDepth).2 hopen] at hts
      simp at hts
  | ok g =>
      rw [h] at hts
      obtain ⟨hg, hscan⟩ := hts
      rw [Except.ok.injEq]
      constructor
      · rintro rfl
        exact ⟨hg, (hg.scan_eq_none_iff maxDepth).1 hscan⟩
      · rintro ⟨hf, -⟩
        exact hg.unique hf

/-- A list of tokens is a formula exactly when a scan finds no fault. -/
theorem exists_ofTokens_eq_ok_iff {ts : List Token} :
    (∃ f, ofTokens ts = .ok f) ↔ scan maxDepth start ts = none := by
  have hts := ofTokens_agrees ts
  cases h : ofTokens ts with
  | error stop =>
      rw [h] at hts
      simp only at hts
      simp [hts]
  | ok f =>
      rw [h] at hts
      simp [hts.2]

end Formula

/-! ### Groups side by side -/

/-- The place of the tokens behind `before` is where the next lexeme starts, or the end. -/
theorem Lexeme.offsetOf_eq {lexemes : List Lexeme} {before after : List Token}
    (h : lexemes.map Lexeme.token = before ++ after) (stop : Nat) :
    offsetOf lexemes stop after = (lexemes[before.length]?.map Lexeme.offset).getD stop := by
  have hlength := congrArg List.length h
  rw [List.length_map, List.length_append] at hlength
  have hdrop : lexemes.length - after.length = before.length := by omega
  rw [offsetOf, hdrop]
  cases hrest : lexemes.drop before.length with
  | nil => simp [← List.head?_drop, hrest]
  | cons lexeme rest => simp [← List.head?_drop, hrest]

theorem Formula.parse_of_lex {text : String} {lexemes : List Lexeme}
    (h : Token.lex text = .ok lexemes) :
    parse text =
      match ofTokens (lexemes.map Lexeme.token) with
      | .error stop => .error ⟨stop.fault, Lexeme.offsetOf lexemes text.utf8ByteSize stop.rest⟩
      | .ok f => .ok f := by
  cases hts : ofTokens (lexemes.map Lexeme.token) with
  | error stop => simp only [parse, h, hts]
  | ok f => simp only [parse, h, hts]

theorem Formula.parse_eq_ok_iff_ofTokens {text : String} {lexemes : List Lexeme}
    (h : Token.lex text = .ok lexemes) {f : Formula} :
    parse text = .ok f ↔ ofTokens (lexemes.map Lexeme.token) = .ok f := by
  rw [parse_of_lex h]
  split
  · next hstop => simp [hstop]
  · next g hg => rw [hg, Except.ok.injEq, Except.ok.injEq]

/-- The tokens of a text that is a formula are derived by the grammar. -/
theorem Formula.derives_of_parse {text : String} {root : Formula} (h : parse text = .ok root) :
    ∃ lexemes, Token.lex text = .ok lexemes ∧
      Derives (.chain .disjunction) (lexemes.map Lexeme.token) root := by
  cases hlex : Token.lex text with
  | error e => simp [parse, hlex] at h
  | ok lexemes =>
      rw [parse_eq_ok_iff_ofTokens hlex, ofTokens_eq_ok_iff] at h
      exact ⟨lexemes, rfl, h.1⟩

/-- Tokens that the grammar derives within the limit are read as it derives them. -/
theorem Formula.parse_of_derives {text : String} {lexemes : List Lexeme}
    (hlex : Token.lex text = .ok lexemes) {f : Formula}
    (h : Derives (.chain .disjunction) (lexemes.map Lexeme.token) f)
    (hlimit : AtMostOpen maxDepth (lexemes.map Lexeme.token)) : parse text = .ok f :=
  (parse_eq_ok_iff_ofTokens hlex).2 (ofTokens_eq_ok_iff.2 ⟨h, hlimit⟩)

end BoolLut
