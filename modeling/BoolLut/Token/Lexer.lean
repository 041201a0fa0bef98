/-
**Reading the tokens of a text.**

White space is passed over; any other character begins a token, and the token is the longest one
that its characters can spell.  The characters alone decide where it ends, so the tokens of a text
do not depend on whether they make a formula.

Main definitions:

* `BoolLut.Token.Reading` — a token, the characters that spell it, and the characters after it;
* `BoolLut.Token.first` — the token that a character begins;
* `BoolLut.Token.lexFrom` — all tokens of a text that starts at a given byte;
* `BoolLut.Token.lex` — all tokens of a text.

Main results:

* `BoolLut.Token.first_spelling` — a token is spelled by the characters in front of the rest;
* `BoolLut.Token.first_spelling_ne_nil` — every token has a character;
* `BoolLut.Token.lexFrom_blank`, `BoolLut.Token.lexFrom_error`, `BoolLut.Token.lexFrom_ok` — the
  three things that can happen at a character.
-/

import BoolLut.ByteLength
import BoolLut.ParseError
import BoolLut.Token.Blank

set_option relaxedAutoImplicit false
set_option autoImplicit false

namespace BoolLut

namespace Token

/-! ### One token -/

/-- A token that was read from the front of a text. -/
structure Reading where
  /-- The token. -/
  token : Token
  /-- The characters that spell it. -/
  spelling : List Char
  /-- The characters after them. -/
  rest : List Char

/-- The connective `op`, which is written as `c` twice; the first of the two is already read. -/
def doubled (op : Connective) (c : Char) (rest : List Char) : Except Fault Reading :=
  match rest with
  | [] => .error (.halfConnective op)
  | d :: rest =>
      if d = c then .ok ⟨.connective op, [c, c], rest⟩ else .error (.halfConnective op)

/-- The sign `!`, which is already read, or the connective `!=`. -/
def bang (rest : List Char) : Reading :=
  match rest with
  | '=' :: rest => ⟨.connective .xor, ['!', '='], rest⟩
  | rest => ⟨.not, ['!'], rest⟩

/-- The longest word that begins with `c`. -/
def word (c : Char) (rest : List Char) : Reading where
  token := .ofWord c (rest.takeWhile isNameChar)
  spelling := c :: rest.takeWhile isNameChar
  rest := rest.dropWhile isNameChar

/-- The token that begins with the character `c`, which is not white space. -/
def first (c : Char) (rest : List Char) : Except Fault Reading :=
  match c with
  | '(' => .ok ⟨.leftParen, ['('], rest⟩
  | ')' => .ok ⟨.rightParen, [')'], rest⟩
  | '!' => .ok (bang rest)
  | '=' => doubled .iff '=' rest
  | '&' => doubled .and '&' rest
  | '|' => doubled .or '|' rest
  | c => if isNameStart c then .ok (word c rest) else .error (.unknownChar c)

theorem doubled_spelling {op : Connective} {c : Char} {rest : List Char} {r : Reading}
    (h : doubled op c rest = .ok r) : r.spelling ++ r.rest = c :: rest := by
  cases rest with
  | nil => simp [doubled] at h
  | cons d rest =>
      by_cases hd : d = c
      · simp only [doubled, hd, if_true, Except.ok.injEq] at h
        simp [← h, hd]
      · simp [doubled, hd] at h

theorem bang_spelling (rest : List Char) :
    (bang rest).spelling ++ (bang rest).rest = '!' :: rest := by
  unfold bang
  split <;> rfl

@[simp] theorem word_spelling (c : Char) (rest : List Char) :
    (word c rest).spelling ++ (word c rest).rest = c :: rest := by
  simp [word]

/-- A token is spelled by the characters in front of the rest. -/
theorem first_spelling {c : Char} {rest : List Char} {r : Reading} (h : first c rest = .ok r) :
    r.spelling ++ r.rest = c :: rest := by
  unfold first at h
  split at h
  · simp only [Except.ok.injEq] at h; simp [← h]
  · simp only [Except.ok.injEq] at h; simp [← h]
  · simp only [Except.ok.injEq] at h; rw [← h]; exact bang_spelling rest
  · exact doubled_spelling h
  · exact doubled_spelling h
  · exact doubled_spelling h
  · split at h
    · simp only [Except.ok.injEq] at h; simp [← h]
    · simp at h

theorem doubled_spelling_ne_nil {op : Connective} {c : Char} {rest : List Char} {r : Reading}
    (h : doubled op c rest = .ok r) : r.spelling ≠ [] := by
  cases rest with
  | nil => simp [doubled] at h
  | cons d rest =>
      by_cases hd : d = c
      · simp only [doubled, hd, if_true, Except.ok.injEq] at h
        simp [← h]
      · simp [doubled, hd] at h

/-- Every token has a character. -/
theorem first_spelling_ne_nil {c : Char} {rest : List Char} {r : Reading}
    (h : first c rest = .ok r) : r.spelling ≠ [] := by
  unfold first at h
  split at h
  · simp only [Except.ok.injEq] at h; simp [← h]
  · simp only [Except.ok.injEq] at h; simp [← h]
  · simp only [Except.ok.injEq] at h
    rw [← h]
    unfold bang
    split <;> simp
  · exact doubled_spelling_ne_nil h
  · exact doubled_spelling_ne_nil h
  · exact doubled_spelling_ne_nil h
  · split at h
    · simp only [Except.ok.injEq] at h; simp [← h, word]
    · simp at h

/-- Reading a token leaves fewer characters. -/
theorem first_length_lt {c : Char} {rest : List Char} {r : Reading} (h : first c rest = .ok r) :
    r.rest.length < (c :: rest).length := by
  have hlen := congrArg List.length (first_spelling h)
  have hpos := List.length_pos_iff.2 (first_spelling_ne_nil h)
  simp only [List.length_append] at hlen
  omega

/-! ### All tokens -/

/-- The tokens of `text`, which starts at the byte `offset`, after those already `found`, the last
of which is in front. -/
def lexFrom (offset : Nat) (found : List Lexeme) (text : List Char) :
    Except ParseError (List Lexeme) :=
  match text with
  | [] => .ok found.reverse
  | c :: rest =>
      if isBlank c then lexFrom (offset + c.utf8Size) found rest
      else
        match _ : first c rest with
        | .error fault => .error ⟨fault, offset⟩
        | .ok r =>
            lexFrom (offset + byteLength r.spelling) (⟨r.token, offset⟩ :: found) r.rest
termination_by text.length
decreasing_by
  · simp
  · exact first_length_lt ‹_›

@[simp] theorem lexFrom_nil (offset : Nat) (found : List Lexeme) :
    lexFrom offset found [] = .ok found.reverse := by
  rw [lexFrom]

/-- White space is passed over. -/
theorem lexFrom_blank {c : Char} (h : isBlank c = true) (offset : Nat) (found : List Lexeme)
    (rest : List Char) :
    lexFrom offset found (c :: rest) = lexFrom (offset + c.utf8Size) found rest := by
  rw [lexFrom, if_pos h]

/-- Where no token begins, the reading ends. -/
theorem lexFrom_error {c : Char} {rest : List Char} {fault : Fault} (h : isBlank c = false)
    (hfirst : first c rest = .error fault) (offset : Nat) (found : List Lexeme) :
    lexFrom offset found (c :: rest) = .error ⟨fault, offset⟩ := by
  rw [lexFrom, if_neg (by simp [h])]
  split
  · next heq => rw [hfirst, Except.error.injEq] at heq; rw [heq]
  · next heq => rw [hfirst] at heq; simp at heq

/-- A token is filed with its place, and the reading goes on behind its spelling. -/
theorem lexFrom_ok {c : Char} {rest : List Char} {r : Reading} (h : isBlank c = false)
    (hfirst : first c rest = .ok r) (offset : Nat) (found : List Lexeme) :
    lexFrom offset found (c :: rest) =
      lexFrom (offset + byteLength r.spelling) (⟨r.token, offset⟩ :: found) r.rest := by
  rw [lexFrom, if_neg (by simp [h])]
  split
  · next heq => rw [hfirst] at heq; simp at heq
  · next heq => rw [hfirst, Except.ok.injEq] at heq; rw [heq]

/-- The tokens of a text with their places, or the first place where none begins. -/
def lex (text : String) : Except ParseError (List Lexeme) := lexFrom 0 [] text.toList

end Token

end BoolLut
