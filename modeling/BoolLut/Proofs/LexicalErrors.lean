/-
**Characters that begin no token.**

The reading of tokens ends at the first character that begins none.  There are two kinds of such
characters: one half of a connective that is written as the same character twice, without the other
half behind it, and a character with which no token begins at all.  Everything in front of it has
been read into tokens by then, and would be read into the same tokens in front of anything else,
since the next character alone decides whether a token goes on.  So the refusal depends on nothing
behind the character, and on nothing that the tokens in front of it make or fail to make.

Main definitions:

* `BoolLut.Token.Stray` — the characters that begin no token, with what is said about them;
* `BoolLut.Token.StaysHalf` — what follows does not complete a connective.

Main results:

* `BoolLut.Token.stray_of_first` — a character is refused for what it is, and so it is in front of
  everything that does not complete it;
* `BoolLut.Token.lexFrom_eq_error` — where the tokens of a text end before the text does;
* `BoolLut.Formula.parse_eq_lex_error` — **a stray character is refused before anything else**.
-/

import BoolLut.Formula.Parser
import BoolLut.Proofs.Spelling

set_option relaxedAutoImplicit false
set_option autoImplicit false

namespace BoolLut

namespace Token

/-! ### Stray characters -/

/-- No token begins with the character, unless it is one half of a connective and the other half
follows; and this is said about it. -/
inductive Stray : Char → String → Prop
  | iff : Stray '=' "expected '=='"
  | and : Stray '&' "expected '&&'"
  | or : Stray '|' "expected '||'"
  | unknown {c : Char} (hblank : isBlank c = false) (hsign : c ∉ ['(', ')', '!', '=', '&', '|'])
      (hstart : isNameStart c = false) : Stray c ("unexpected character '" ++ c.toString ++ "'")

/-- If the character is one half of a connective, what follows does not begin with the other. -/
def StaysHalf (c : Char) (rest : List Char) : Prop :=
  c ∈ ['=', '&', '|'] → ∀ more, rest ≠ c :: more

theorem doubled_eq_error_iff {op : Connective} {c : Char} {rest : List Char} {fault : Fault} :
    doubled op c rest = .error fault ↔
      fault = .halfConnective op ∧ ∀ more, rest ≠ c :: more := by
  cases rest with
  | nil => simp [doubled, eq_comm]
  | cons d rest =>
      by_cases hd : d = c
      · simp [doubled, hd]
      · simp only [doubled, hd, if_false, Except.error.injEq, ne_eq, List.cons.injEq, false_and,
          not_false_eq_true, implies_true, and_true]
        exact eq_comm

/-- One half of a connective is refused exactly where it stays alone. -/
theorem stray_of_doubled {op : Connective} {c : Char} {rest : List Char} {fault : Fault}
    (hfirst : ∀ more, first c more = doubled op c more)
    (hstray : Stray c (Fault.halfConnective op).message) (hhalf : c ∈ ['=', '&', '|'])
    (h : doubled op c rest = .error fault) :
    Stray c fault.message ∧ StaysHalf c rest ∧
      ∀ rest', StaysHalf c rest' → first c rest' = .error fault := by
  obtain ⟨rfl, hrest⟩ := doubled_eq_error_iff.1 h
  refine ⟨hstray, fun _ => hrest, fun rest' hrest' => ?_⟩
  rw [hfirst]
  exact doubled_eq_error_iff.2 ⟨rfl, hrest' hhalf⟩

theorem first_of_not_mem {c : Char} (h : c ∉ ['(', ')', '!', '=', '&', '|']) (rest : List Char) :
    first c rest =
      if isNameStart c then .ok (word c rest) else .error (.unknownChar c) := by
  unfold first
  split
  · exact absurd (by decide) h
  · exact absurd (by decide) h
  · exact absurd (by decide) h
  · exact absurd (by decide) h
  · exact absurd (by decide) h
  · exact absurd (by decide) h
  · rfl

/-- A character is refused for what it is, and so it is in front of everything that does not
complete it. -/
theorem stray_of_first {c : Char} {rest : List Char} {fault : Fault} (hblank : isBlank c = false)
    (h : first c rest = .error fault) :
    Stray c fault.message ∧ StaysHalf c rest ∧
      ∀ rest', StaysHalf c rest' → first c rest' = .error fault := by
  by_cases hsign : c ∈ ['(', ')', '!', '=', '&', '|']
  · simp only [List.mem_cons, List.not_mem_nil, or_false] at hsign
    rcases hsign with rfl | rfl | rfl | rfl | rfl | rfl
    · cases h
    · cases h
    · cases h
    · exact stray_of_doubled (fun _ => rfl) .iff (by decide) h
    · exact stray_of_doubled (fun _ => rfl) .and (by decide) h
    · exact stray_of_doubled (fun _ => rfl) .or (by decide) h
  · have hhalf : c ∉ ['=', '&', '|'] :=
      fun hmem => hsign (List.mem_append_right ['(', ')', '!'] hmem)
    rw [first_of_not_mem hsign] at h
    split at h
    · cases h
    · next hstart =>
        cases h
        have hstart : isNameStart c = false := Bool.eq_false_iff.2 hstart
        refine ⟨.unknown hblank hsign hstart, fun hmem => absurd hmem hhalf, fun rest' _ => ?_⟩
        rw [first_of_not_mem hsign, hstart]
        rfl

/-! ### Where the tokens end -/

/-- Whether a spelling goes on is decided by the next character. -/
theorem StopsAt.of_head?_eq {cs rest rest' : List Char} (h : StopsAt cs rest)
    (hhead : rest'.head? = rest.head?) : StopsAt cs rest' := by
  have hcons : ∀ {d ds}, rest' = d :: ds → ∃ ds', rest = d :: ds' := by
    rintro d ds rfl
    exact List.head?_eq_some_iff.1 hhead.symm
  constructor
  · intro hword d ds hrest'
    obtain ⟨ds', hrest⟩ := hcons hrest'
    exact h.word hword d ds' hrest
  · intro hbang ds hrest'
    obtain ⟨ds', hrest⟩ := hcons hrest'
    exact h.bang hbang ds' hrest

/-- If the tokens of a text end before the text does, they end at a character that is refused.  What
stands in front of it has tokens of its own, and what stands behind it does not matter as long as
the character is refused. -/
theorem lexFrom_eq_error {offset : Nat} {found : List Lexeme} {text : List Char} {e : ParseError}
    (h : lexFrom offset found text = .error e) :
    ∃ front c rest, text = front ++ c :: rest ∧ e.offset = offset + byteLength front ∧
      isBlank c = false ∧ first c rest = .error e.fault ∧
      (∃ lexemes, lexFrom offset found front = .ok lexemes) ∧
      ∀ rest', first c rest' = .error e.fault →
        lexFrom offset found (front ++ c :: rest') = .error e := by
  fun_induction lexFrom offset found text with
  | case1 => cases h
  | case2 offset found b text hb ih =>
      -- white space goes in front of what the rest is divided into
      obtain ⟨front, c, rest, rfl, hoffset, hblank, hfirst, ⟨lexemes, hfront⟩, hlocal⟩ := ih h
      refine ⟨b :: front, c, rest, rfl, ?_, hblank, hfirst, ⟨lexemes, ?_⟩, fun rest' hrest' => ?_⟩
      · rw [hoffset, byteLength_cons, Nat.add_assoc]
      · rw [lexFrom_blank hb, hfront]
      · rw [List.cons_append, lexFrom_blank hb, hlocal rest' hrest']
  | case3 offset found c rest hblank fault hfirst =>
      cases h
      have hblank : isBlank c = false := Bool.eq_false_iff.2 hblank
      refine ⟨[], c, rest, rfl, rfl, hblank, hfirst, ⟨_, lexFrom_nil offset found⟩, ?_⟩
      intro rest' hrest'
      exact lexFrom_error hblank hrest' offset found
  | case4 offset found d text hd r hr ih =>
      -- and so does a token, which goes no further in front of the same character
      obtain ⟨front, c, rest, hrest, hoffset, hblank, hfirst, ⟨lexemes, hfront⟩, hlocal⟩ := ih h
      obtain ⟨hspells, hstop⟩ := spells_of_first hr
      have hstop' : ∀ rest', StopsAt r.spelling (front ++ c :: rest') := by
        intro rest'
        refine hstop.of_head?_eq ?_
        rw [hrest, List.head?_append, List.head?_append, List.head?_cons, List.head?_cons]
      have hend : StopsAt r.spelling front := by
        cases front with
        | nil => exact stopsAt_of_blank (by simp) r.spelling
        | cons b bs => exact hstop.of_head?_eq (by rw [hrest]; rfl)
      refine ⟨r.spelling ++ front, c, rest, ?_, ?_, hblank, hfirst, ⟨lexemes, ?_⟩, ?_⟩
      · rw [List.append_assoc, ← hrest, first_spelling hr]
      · rw [hoffset, byteLength_append, Nat.add_assoc]
      · rw [lexFrom_spells hspells hend, hfront]
      · intro rest' hrest'
        rw [List.append_assoc, lexFrom_spells hspells (hstop' rest'), hlocal rest' hrest']

end Token

/-! ### Texts -/

theorem Formula.parse_of_lex_error {text : String} {e : ParseError}
    (h : Token.lex text = .error e) : parse text = .error e := by
  rw [parse, h]

/-- **A stray character is refused before anything else.**  If a text does not have tokens up to its
end, it has them up to a stray character, whose place is that of the refusal.  The text is refused
for this character, whatever the tokens in front of it make, and so is every text that goes on
differently behind it, unless the other half of a connective is put there. -/
theorem Formula.parse_eq_lex_error {text : String} {e : ParseError}
    (h : Token.lex text = .error e) :
    ∃ (front : String) (c : Char) (rest : List Char),
      text = front ++ String.ofList (c :: rest) ∧ e.offset = front.utf8ByteSize ∧
      (∃ lexemes, Token.lex front = .ok lexemes) ∧
      Token.Stray c e.fault.message ∧ Token.StaysHalf c rest ∧ parse text = .error e ∧
      ∀ rest', Token.StaysHalf c rest' →
        parse (front ++ String.ofList (c :: rest')) = .error e := by
  obtain ⟨front, c, rest, htext, hoffset, hblank, hfirst, ⟨lexemes, hfront⟩, hlocal⟩ :=
    Token.lexFrom_eq_error h
  obtain ⟨hstray, hhalf, hrefused⟩ := Token.stray_of_first hblank hfirst
  refine ⟨String.ofList front, c, rest, ?_, ?_, ⟨lexemes, ?_⟩, hstray, hhalf,
    parse_of_lex_error h, fun rest' hrest' => parse_of_lex_error ?_⟩
  · rw [← String.toList_inj, String.toList_append, String.toList_ofList, String.toList_ofList,
      htext]
  · rw [hoffset, Nat.zero_add]
    rfl
  · rw [Token.lex, String.toList_ofList, hfront]
  · rw [Token.lex, String.toList_append, String.toList_ofList, String.toList_ofList]
    exact hlocal rest' (hrefused rest' hrest')

/-- In `a`, `b` and a lone `=`, with a blank of three bytes in between, the sign is refused at byte
six, although the second name should not be there either; and so it is if `&&` follows instead. -/
theorem Formula.parse_eq_lex_error_lone_sign :
    parse "a\u3000b " = .error ⟨.unexpected (.name (.ofChars 'b' [])), 4⟩ ∧
    Token.lex "a\u3000b = c" = .error ⟨.halfConnective .iff, 6⟩ ∧
    parse "a\u3000b = c" = .error ⟨.halfConnective .iff, 6⟩ ∧
    parse "a\u3000b =&&" = .error ⟨.halfConnective .iff, 6⟩ := by
  have hlex : Token.lex "a\u3000b = c" = .error ⟨.halfConnective .iff, 6⟩ := by decide +kernel
  obtain ⟨front, c, rest, htext, hoffset, -, -, -, hparse, hlocal⟩ := parse_eq_lex_error hlex
  -- the six bytes in front of the sign are known, and so the sign itself is
  have htext' : front.toList ++ c :: rest = "a\u3000b ".toList ++ "= c".toList := by
    rw [← String.toList_ofList (l := c :: rest), ← String.toList_append, ← htext]
    rfl
  have hbytes : byteLength front.toList = byteLength "a\u3000b ".toList := by
    rw [byteLength_toList, ← hoffset]
    rfl
  obtain ⟨hfront, hrest⟩ := append_inj_of_byteLength htext' hbytes
  obtain rfl := String.toList_inj.1 hfront
  obtain ⟨rfl, -⟩ := List.cons.inj hrest
  refine ⟨by decide +kernel, hlex, hparse, hlocal ['&', '&'] ?_⟩
  rintro - more hmore
  cases hmore

end BoolLut
