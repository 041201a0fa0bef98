/-
**How the tokens of a text are spelled.**

A text is a spelling of its tokens: the characters of each token in turn, with white space before,
between and behind them.  Some tokens have several spellings, and between most of them no white
space is needed.  It is needed in two cases, where the characters would otherwise make a longer
token or another one: between two words, and between a `!` and a `==`.

Main definitions:

* `BoolLut.Name.IsWritable` — the names that can be read again;
* `BoolLut.Token.IsWord` — the characters are a word;
* `BoolLut.Token.Spells` — the characters spell a token;
* `BoolLut.Token.Clashes`, `BoolLut.Token.StopsAt` — two spellings may not stand side by side, and
  a spelling goes no further in front of a given rest;
* `BoolLut.Piece`, `BoolLut.Piece.lexemes` — a token with its spelling and the white space before
  it, and the places of such tokens in a text;
* `BoolLut.IsSpelling` — a text is a spelling of tokens at given places.

Main results:

* `BoolLut.Token.spells_of_first`, `BoolLut.Token.first_of_spells` — the token that is read is
  spelled by the characters that were taken for it, and they are taken if they go no further;
* `BoolLut.Piece.stopsAt_iff` — a spelling goes no further in front of the next token exactly when
  the two do not clash or are kept apart;
* `BoolLut.Token.lex_eq_ok_iff_isSpelling` — **a text has exactly the tokens of which it is a
  spelling**;
* `BoolLut.Token.isWritable_of_lex` — the names among the tokens of a text can be read again.
-/

import Mathlib.Data.List.Chain
import BoolLut.Token.Lexer

set_option relaxedAutoImplicit false
set_option autoImplicit false

namespace BoolLut

/-- A name that can be read again: a word, and in no case of its letters an operator. -/
structure Name.IsWritable (n : Name) : Prop where
  word : ∃ c cs, n.text.toList = c :: cs ∧ Token.isNameStart c = true ∧
    ∀ d ∈ cs, Token.isNameChar d = true
  not_operator : n.text.toList.map Char.toUpper ∉ [['A', 'N', 'D'], ['O', 'R'], ['N', 'O', 'T']]

/-- A single letter is too short for an operator. -/
theorem Name.isWritable_letter {c : Char} (h : Token.isNameStart c = true) :
    (ofChars c []).IsWritable := by
  constructor
  · exact ⟨c, [], toList_ofChars c [], h, by simp⟩
  · rw [toList_ofChars]
    simp

namespace Token

/-! ### Words -/

/-- The characters are a word: letters, digits and underscores, without a digit in front. -/
def IsWord (cs : List Char) : Prop :=
  ∃ d ds, cs = d :: ds ∧ isNameStart d = true ∧ ∀ e ∈ ds, isNameChar e = true

theorem isWord_cons_iff {c : Char} {cs : List Char} :
    IsWord (c :: cs) ↔ isNameStart c = true ∧ ∀ d ∈ cs, isNameChar d = true := by
  constructor
  · rintro ⟨d, ds, hcons, hd, hds⟩
    obtain ⟨rfl, rfl⟩ := List.cons.inj hcons
    exact ⟨hd, hds⟩
  · rintro ⟨hc, hcs⟩
    exact ⟨c, cs, rfl, hc, hcs⟩

theorem range_of_isNameStart {c : Char} (h : isNameStart c = true) :
    65 ≤ c.toNat ∧ c.toNat ≤ 122 := by
  have hupper : c.isUpper = true → 65 ≤ c.toNat ∧ c.toNat ≤ 90 := fun hc => of_decide_eq_true hc
  have hlower : c.isLower = true → 97 ≤ c.toNat ∧ c.toNat ≤ 122 := by
    intro hc
    obtain ⟨hlow, hhigh⟩ := Bool.and_eq_true_iff.1 hc
    exact ⟨of_decide_eq_true hlow, of_decide_eq_true hhigh⟩
  rcases Bool.or_eq_true_iff.1 h with hletter | hunderscore
  · rcases Bool.or_eq_true_iff.1 hletter with hc | hc
    · have := hupper hc
      omega
    · have := hlower hc
      omega
  · rw [beq_iff_eq] at hunderscore
    rw [hunderscore]
    decide

theorem isNameStart_of_toUpper {c : Char} (h : c.toUpper.isUpper = true) :
    isNameStart c = true := by
  refine Bool.or_eq_true_iff.2 (.inl (Bool.or_eq_true_iff.2 ?_))
  by_cases hrange : 'a'.val ≤ c.val ∧ c.val ≤ 'z'.val
  · exact .inr (Bool.and_eq_true_iff.2 ⟨decide_eq_true hrange.1, decide_eq_true hrange.2⟩)
  · have hsame : c.toUpper = c := dif_neg hrange
    exact .inl (hsame ▸ h)

/-- What is a word in capital letters is a word in any case of its letters. -/
theorem isWord_of_map_toUpper {cs capitals : List Char} (h : cs.map Char.toUpper = capitals)
    (hne : capitals ≠ []) (hcapitals : capitals.all Char.isUpper = true) : IsWord cs := by
  have hstart : ∀ c ∈ cs, isNameStart c = true := by
    intro c hc
    refine isNameStart_of_toUpper (List.all_eq_true.1 hcapitals _ ?_)
    rw [← h]
    exact List.mem_map_of_mem hc
  cases cs with
  | nil => exact absurd h.symm hne
  | cons c cs =>
      refine isWord_cons_iff.2 ⟨hstart c (by simp), fun d hd => ?_⟩
      exact isNameChar_of_isNameStart (hstart d (by simp [hd]))

theorem reserved?_eq_none {word : List Char}
    (h : word.map Char.toUpper ∉ [['A', 'N', 'D'], ['O', 'R'], ['N', 'O', 'T']]) :
    reserved? word = none := by
  simp only [List.mem_cons, List.not_mem_nil, or_false, not_or] at h
  unfold reserved?
  split
  · next hword => exact absurd hword h.1
  · next hword => exact absurd hword h.2.1
  · next hword => exact absurd hword h.2.2
  · rfl

/-! ### Spellings of one token -/

/-- The characters are the sign for a token. -/
inductive IsSign : List Char → Token → Prop
  | leftParen : IsSign ['('] .leftParen
  | rightParen : IsSign [')'] .rightParen
  | bang : IsSign ['!'] .not
  | symbol (op : Connective) : IsSign op.symbol.toList (.connective op)

/-- The characters spell a token: they are its sign, or a word.  The words that stand for operators
may be written in any case of their letters, and a name is spelled with its own characters. -/
inductive Spells : List Char → Token → Prop
  | sign {cs : List Char} {t : Token} : IsSign cs t → Spells cs t
  | notWord {cs : List Char} : cs.map Char.toUpper = ['N', 'O', 'T'] → Spells cs .not
  | andWord {cs : List Char} : cs.map Char.toUpper = ['A', 'N', 'D'] → Spells cs (.connective .and)
  | orWord {cs : List Char} : cs.map Char.toUpper = ['O', 'R'] → Spells cs (.connective .or)
  | name {n : Name} : n.IsWritable → Spells n.text.toList (.name n)

/-- A word spells the token that is read for it. -/
theorem spells_ofWord {c : Char} {cs : List Char} (h : IsWord (c :: cs)) :
    Spells (c :: cs) (ofWord c cs) := by
  unfold ofWord reserved?
  split
  · next hand => exact .andWord hand
  · next hor => exact .orWord hor
  · next hnot => exact .notWord hnot
  · next hand hor hnot =>
      have hname : (Name.ofChars c cs).IsWritable := by
        constructor
        · rw [Name.toList_ofChars]
          exact h
        · rw [Name.toList_ofChars]
          simp only [List.mem_cons, List.not_mem_nil, or_false, not_or]
          exact ⟨hand, hor, hnot⟩
      have hspells := Spells.name hname
      rwa [Name.toList_ofChars] at hspells

/-- A token is spelled by a sign, or by a word for which it is read. -/
theorem Spells.sign_or_word {cs : List Char} {t : Token} (h : Spells cs t) :
    IsSign cs t ∨ ∃ d ds, cs = d :: ds ∧ IsWord (d :: ds) ∧ t = ofWord d ds := by
  have hreserved : ∀ {capitals}, cs.map Char.toUpper = capitals → capitals ≠ [] →
      capitals.all Char.isUpper = true → reserved? cs = some t →
        ∃ d ds, cs = d :: ds ∧ IsWord (d :: ds) ∧ t = ofWord d ds := by
    intro capitals hcapitals hne hupper hres
    cases cs with
    | nil => exact absurd hcapitals.symm hne
    | cons d ds =>
        have hword := isWord_of_map_toUpper hcapitals hne hupper
        exact ⟨d, ds, rfl, hword, by rw [ofWord, hres, Option.getD_some]⟩
  cases h with
  | sign h => exact .inl h
  | notWord h => exact .inr (hreserved h (by simp) rfl (by simp [reserved?, h]))
  | andWord h => exact .inr (hreserved h (by simp) rfl (by simp [reserved?, h]))
  | orWord h => exact .inr (hreserved h (by simp) rfl (by simp [reserved?, h]))
  | @name n hn =>
      obtain ⟨d, ds, htext, hd, hds⟩ := hn.word
      have hnot := hn.not_operator
      rw [htext] at hnot
      have hname : n = .ofChars d ds :=
        Name.ext (String.toList_inj.1 (by rw [Name.toList_ofChars, htext]))
      exact .inr ⟨d, ds, htext, isWord_cons_iff.2 ⟨hd, hds⟩,
        (ofWord_eq_name_iff.2 ⟨reserved?_eq_none hnot, hname⟩).symm⟩

theorem Spells.isWritable {cs : List Char} {n : Name} (h : Spells cs (.name n)) :
    n.IsWritable := by
  cases h with
  | sign h => cases h
  | name h => exact h

/-- A sign begins with a character that is no part of a word and no white space. -/
theorem IsSign.head {cs : List Char} {t : Token} (h : IsSign cs t) :
    ∃ d ds, cs = d :: ds ∧ isNameChar d = false ∧ isBlank d = false := by
  cases h with
  | leftParen => exact ⟨'(', [], rfl, by decide, by decide⟩
  | rightParen => exact ⟨')', [], rfl, by decide, by decide⟩
  | bang => exact ⟨'!', [], rfl, by decide, by decide⟩
  | symbol op =>
      cases op with
      | iff => exact ⟨'=', ['='], rfl, by decide, by decide⟩
      | xor => exact ⟨'!', ['='], rfl, by decide, by decide⟩
      | and => exact ⟨'&', ['&'], rfl, by decide, by decide⟩
      | or => exact ⟨'|', ['|'], rfl, by decide, by decide⟩

theorem IsSign.not_isWord {cs : List Char} {t : Token} (h : IsSign cs t) : ¬ IsWord cs := by
  intro hword
  obtain ⟨d, ds, rfl, hd, -⟩ := h.head
  rw [isNameChar_of_isNameStart (isWord_cons_iff.1 hword).1] at hd
  simp at hd

/-- The only sign that begins with `=` is `==`. -/
theorem IsSign.eq_of_cons_eq {ds : List Char} {t : Token} (h : IsSign ('=' :: ds) t) :
    ds = ['='] := by
  generalize hcs : '=' :: ds = cs at h
  cases h with
  | leftParen => simp at hcs
  | rightParen => simp at hcs
  | bang => simp at hcs
  | symbol op => cases op <;> simp_all [Connective.symbol]

/-! ### Where a spelling ends -/

/-- What follows does not go on with a word. -/
def EndsWord (rest : List Char) : Prop := ∀ c cs, rest = c :: cs → isNameChar c = false

theorem endsWord_nil : EndsWord [] := by
  intro c cs h
  simp at h

theorem endsWord_cons {c : Char} {rest : List Char} (h : isNameChar c = false) :
    EndsWord (c :: rest) := by
  rintro d ds hcons
  rw [List.cons.injEq] at hcons
  rw [← hcons.1, h]

theorem EndsWord.takeWhile_eq_nil {rest : List Char} (h : EndsWord rest) :
    rest.takeWhile isNameChar = [] := by
  cases rest with
  | nil => rfl
  | cons c cs => rw [List.takeWhile_cons_of_neg (by simp [h c cs rfl])]

theorem EndsWord.dropWhile_eq_self {rest : List Char} (h : EndsWord rest) :
    rest.dropWhile isNameChar = rest := by
  cases rest with
  | nil => rfl
  | cons c cs => rw [List.dropWhile_cons_of_neg (by simp [h c cs rfl])]

/-- Two spellings may not stand side by side: two words, or `!` and `==`. -/
def Clashes (cs ds : List Char) : Prop :=
  (IsWord cs ∧ IsWord ds) ∨ (cs = ['!'] ∧ ds = ['=', '='])

/-- In front of `rest` a spelling goes no further: a word is not continued, and a `!` is not
followed by `=`. -/
structure StopsAt (cs rest : List Char) : Prop where
  word : IsWord cs → EndsWord rest
  bang : cs = ['!'] → ∀ ds, rest ≠ '=' :: ds

theorem stopsAt_of_isWord {cs rest : List Char} (h : IsWord cs) (hrest : EndsWord rest) :
    StopsAt cs rest := by
  refine ⟨fun _ => hrest, ?_⟩
  rintro rfl
  exact absurd h IsSign.bang.not_isWord

theorem stopsAt_bang {rest : List Char} (h : ∀ ds, rest ≠ '=' :: ds) : StopsAt ['!'] rest :=
  ⟨fun hword => absurd hword IsSign.bang.not_isWord, fun _ => h⟩

/-- A sign other than `!` ends wherever it ends. -/
theorem IsSign.stopsAt {cs : List Char} {t : Token} (h : IsSign cs t) (hne : cs ≠ ['!'])
    (rest : List Char) : StopsAt cs rest :=
  ⟨fun hword => absurd hword h.not_isWord, fun hbang => absurd hbang hne⟩

theorem isNameChar_of_isBlank {c : Char} (h : isBlank c = true) : isNameChar c = false := by
  cases hname : isNameChar c with
  | false => rfl
  | true =>
      have hrange : 48 ≤ c.toNat ∧ c.toNat ≤ 122 := by
        rcases Bool.or_eq_true_iff.1 hname with halnum | hunderscore
        · rcases Bool.or_eq_true_iff.1 halnum with halpha | hdigit
          · have := range_of_isNameStart (Bool.or_eq_true_iff.2 (.inl halpha))
            omega
          · have hdigits : 48 ≤ c.toNat ∧ c.toNat ≤ 57 := by
              obtain ⟨hlow, hhigh⟩ := Bool.and_eq_true_iff.1 hdigit
              exact ⟨of_decide_eq_true hlow, of_decide_eq_true hhigh⟩
            omega
        · rw [beq_iff_eq] at hunderscore
          rw [hunderscore]
          decide
      simp only [isBlank, blankRanges, List.any_cons, List.any_nil, Bool.or_false,
        Bool.or_eq_true, Bool.and_eq_true, decide_eq_true_eq] at h
      omega

/-- Every spelling ends before white space, and at the end of a text. -/
theorem stopsAt_of_blank {rest : List Char} (h : ∀ c ∈ rest.head?, isBlank c = true)
    (cs : List Char) : StopsAt cs rest := by
  constructor
  · rintro - c ds rfl
    exact isNameChar_of_isBlank (h c rfl)
  · rintro - ds rfl
    exact absurd (h '=' rfl) (by decide)

/-- Side by side, a spelling goes no further in front of one with which it does not clash. -/
theorem stopsAt_append_iff {cs ds : List Char} {t : Token} (h : Spells ds t)
    (rest : List Char) : StopsAt cs (ds ++ rest) ↔ ¬ Clashes cs ds := by
  rcases h.sign_or_word with hsign | ⟨d, ds, rfl, hword, rfl⟩
  · -- behind a sign every word ends, so only a `!` in front of `==` is left
    obtain ⟨d, ds, rfl, hd, -⟩ := hsign.head
    constructor
    · rintro hstop (⟨-, hds⟩ | ⟨hcs, hds⟩)
      · exact hsign.not_isWord hds
      · exact hstop.bang hcs ('=' :: rest) (by rw [hds]; rfl)
    · intro hclash
      constructor
      · intro _
        exact endsWord_cons hd
      · intro hcs es hes
        rw [List.cons_append, List.cons.injEq] at hes
        obtain ⟨rfl, -⟩ := hes
        exact hclash (.inr ⟨hcs, by rw [hsign.eq_of_cons_eq]⟩)
  · -- a word goes on with any word, and none begins with `=`
    have hstart := (isWord_cons_iff.1 hword).1
    constructor
    · rintro hstop (⟨hcs, -⟩ | ⟨-, hds⟩)
      · have hends := hstop.word hcs d (ds ++ rest) rfl
        rw [isNameChar_of_isNameStart hstart] at hends
        simp at hends
      · rw [List.cons.injEq] at hds
        rw [hds.1] at hstart
        exact absurd hstart (by decide)
    · intro hclash
      constructor
      · intro hcs
        exact absurd (.inl ⟨hcs, hword⟩) hclash
      · rintro - es hes
        rw [List.cons_append, List.cons.injEq] at hes
        rw [hes.1] at hstart
        exact absurd hstart (by decide)

/-! ### Reading one token -/

/-- A word begins with no character that is white space or begins another token. -/
theorem first_of_isNameStart {c : Char} (h : isNameStart c = true) (rest : List Char) :
    isBlank c = false ∧ first c rest = .ok (word c rest) := by
  have hrange := range_of_isNameStart h
  constructor
  · simp only [isBlank, blankRanges, List.any_cons, List.any_nil, Bool.or_false,
      Bool.or_eq_false_iff, Bool.and_eq_false_iff, decide_eq_false_iff_not]
    omega
  · unfold first
    split
    · exact absurd h (by decide)
    · exact absurd h (by decide)
    · exact absurd h (by decide)
    · exact absurd h (by decide)
    · exact absurd h (by decide)
    · exact absurd h (by decide)
    · exact if_pos h

theorem isWord_word {c : Char} (h : isNameStart c = true) (rest : List Char) :
    IsWord (word c rest).spelling :=
  isWord_cons_iff.2 ⟨h, List.all_eq_true.1 List.all_takeWhile⟩

theorem endsWord_word (c : Char) (rest : List Char) : EndsWord (word c rest).rest := by
  intro d ds hrest
  have hhead := List.head?_dropWhile_not isNameChar rest
  rw [show rest.dropWhile isNameChar = d :: ds from hrest] at hhead
  simpa using hhead

private theorem spells_of_doubled {op : Connective} {c : Char} {rest : List Char} {r : Reading}
    (h : doubled op c rest = .ok r) (hsymbol : op.symbol.toList = [c, c]) :
    IsSign r.spelling r.token ∧ r.spelling ≠ ['!'] := by
  cases rest with
  | nil => simp [doubled] at h
  | cons d rest =>
      by_cases hd : d = c
      · simp only [doubled, hd, if_true, Except.ok.injEq] at h
        rw [← h]
        have hsign := IsSign.symbol op
        rw [hsymbol] at hsign
        exact ⟨hsign, by simp⟩
      · simp [doubled, hd] at h

/-- The characters taken for a token spell it, and they go no further. -/
theorem spells_of_first {c : Char} {rest : List Char} {r : Reading} (h : first c rest = .ok r) :
    Spells r.spelling r.token ∧ StopsAt r.spelling r.rest := by
  have hsign : IsSign r.spelling r.token ∧ r.spelling ≠ ['!'] →
      Spells r.spelling r.token ∧ StopsAt r.spelling r.rest :=
    fun ⟨hsign, hne⟩ => ⟨.sign hsign, hsign.stopsAt hne r.rest⟩
  unfold first at h
  split at h
  · rw [Except.ok.injEq] at h
    exact hsign (h ▸ ⟨.leftParen, by simp⟩)
  · rw [Except.ok.injEq] at h
    exact hsign (h ▸ ⟨.rightParen, by simp⟩)
  · rw [Except.ok.injEq] at h
    unfold bang at h
    split at h
    · exact hsign (h ▸ ⟨.symbol .xor, by simp⟩)
    · next hrest =>
        rw [← h]
        exact ⟨.sign .bang, stopsAt_bang hrest⟩
  · exact hsign (spells_of_doubled h rfl)
  · exact hsign (spells_of_doubled h rfl)
  · exact hsign (spells_of_doubled h rfl)
  · split at h
    · next hstart =>
        rw [Except.ok.injEq] at h
        rw [← h]
        have hword := isWord_word hstart rest
        exact ⟨spells_ofWord hword, stopsAt_of_isWord hword (endsWord_word c rest)⟩
    · simp at h

theorem word_of_isWord {d : Char} {ds rest : List Char} (h : IsWord (d :: ds))
    (hrest : EndsWord rest) : word d (ds ++ rest) = ⟨ofWord d ds, d :: ds, rest⟩ := by
  have hds := (isWord_cons_iff.1 h).2
  have htake : (ds ++ rest).takeWhile isNameChar = ds := by
    rw [List.takeWhile_append_of_pos hds, hrest.takeWhile_eq_nil, List.append_nil]
  have hdrop : (ds ++ rest).dropWhile isNameChar = rest := by
    rw [List.dropWhile_append_of_pos hds, hrest.dropWhile_eq_self]
  rw [word, htake, hdrop]

/-- A token is read from its spelling if that goes no further. -/
theorem first_of_spells {cs rest : List Char} {t : Token} (h : Spells cs t)
    (hstop : StopsAt cs rest) :
    ∃ d ds, cs = d :: ds ∧ isBlank d = false ∧ first d (ds ++ rest) = .ok ⟨t, cs, rest⟩ := by
  rcases h.sign_or_word with hsign | ⟨d, ds, rfl, hword, rfl⟩
  · cases hsign with
    | leftParen => exact ⟨'(', [], rfl, by decide, rfl⟩
    | rightParen => exact ⟨')', [], rfl, by decide, rfl⟩
    | bang =>
        have hbang : bang rest = ⟨.not, ['!'], rest⟩ := by
          unfold bang
          split
          · next ds => exact absurd rfl (hstop.bang rfl ds)
          · rfl
        exact ⟨'!', [], rfl, by decide, congrArg Except.ok hbang⟩
    | symbol op =>
        cases op with
        | iff => exact ⟨'=', ['='], rfl, by decide, rfl⟩
        | xor => exact ⟨'!', ['='], rfl, by decide, rfl⟩
        | and => exact ⟨'&', ['&'], rfl, by decide, rfl⟩
        | or => exact ⟨'|', ['|'], rfl, by decide, rfl⟩
  · obtain ⟨hblank, hfirst⟩ := first_of_isNameStart (isWord_cons_iff.1 hword).1 (ds ++ rest)
    exact ⟨d, ds, rfl, hblank, by rw [hfirst, word_of_isWord hword (hstop.word hword)]⟩

/-! ### Reading all tokens -/

theorem lexFrom_blanks {cs : List Char} (h : ∀ c ∈ cs, isBlank c = true) (offset : Nat)
    (found : List Lexeme) (rest : List Char) :
    lexFrom offset found (cs ++ rest) = lexFrom (offset + byteLength cs) found rest := by
  induction cs generalizing offset with
  | nil => simp
  | cons c cs ih =>
      rw [List.cons_append, lexFrom_blank (h c (by simp)), ih fun d hd => h d (by simp [hd]),
        byteLength_cons, Nat.add_assoc]

theorem lexFrom_spells {cs rest : List Char} {t : Token} (h : Spells cs t)
    (hstop : StopsAt cs rest) (offset : Nat) (found : List Lexeme) :
    lexFrom offset found (cs ++ rest) =
      lexFrom (offset + byteLength cs) (⟨t, offset⟩ :: found) rest := by
  obtain ⟨d, ds, rfl, hblank, hfirst⟩ := first_of_spells h hstop
  exact lexFrom_ok hblank hfirst offset found

end Token

/-! ### Texts -/

/-- A token as it stands in a text: the white space before it, and its spelling. -/
structure Piece where
  /-- The white space between the token before and this one. -/
  blanks : List Char
  /-- The characters of the token. -/
  spelling : List Char
  /-- The token. -/
  token : Token
  /-- What stands before the token is white space. -/
  isBlank_blanks : ∀ c ∈ blanks, isBlank c = true
  /-- The characters are a spelling of the token. -/
  spells : Token.Spells spelling token

namespace Piece

/-- All characters of a piece. -/
def chars (p : Piece) : List Char := p.blanks ++ p.spelling

/-- Two tokens that clash are kept apart by white space. -/
def KeptApart (p q : Piece) : Prop := Token.Clashes p.spelling q.spelling → q.blanks ≠ []

/-- The tokens of pieces that stand behind the characters `before`, each with the number of bytes
of everything before its spelling. -/
def lexemes (before : List Char) : List Piece → List Lexeme
  | [] => []
  | p :: ps => ⟨p.token, byteLength (before ++ p.blanks)⟩ :: lexemes (before ++ p.chars) ps

@[simp] theorem lexemes_nil (before : List Char) : lexemes before [] = [] := rfl

@[simp] theorem lexemes_cons (before : List Char) (p : Piece) (ps : List Piece) :
    lexemes before (p :: ps) =
      ⟨p.token, byteLength (before ++ p.blanks)⟩ :: lexemes (before ++ p.chars) ps := rfl

/-- The tokens do not depend on what stands before. -/
theorem tokens_lexemes (before : List Char) (ps : List Piece) :
    (lexemes before ps).map Lexeme.token = ps.map Piece.token := by
  induction ps generalizing before with
  | nil => rfl
  | cons p ps ih => rw [lexemes_cons, List.map_cons, List.map_cons, ih]

/-- A spelling goes no further in front of the next piece exactly when the two are kept apart. -/
theorem stopsAt_iff (p q : Piece) (rest : List Char) :
    Token.StopsAt p.spelling (q.chars ++ rest) ↔ KeptApart p q := by
  unfold KeptApart chars
  cases hblanks : q.blanks with
  | nil =>
      rw [List.nil_append, Token.stopsAt_append_iff q.spells]
      exact ⟨fun h hclash => absurd hclash h, fun h hclash => h hclash rfl⟩
  | cons b bs =>
      have hhead : ∀ c ∈ (b :: bs ++ q.spelling ++ rest).head?, isBlank c = true := by
        intro c hc
        obtain rfl : b = c := Option.some.inj hc
        exact q.isBlank_blanks b (by simp [hblanks])
      exact iff_of_true (Token.stopsAt_of_blank hhead p.spelling) fun _ => List.cons_ne_nil b bs

/-- Pieces that are kept apart are read one by one, and white space at the end is passed over. -/
theorem lexFrom_pieces {ps : List Piece} {tail : List Char} (hps : ps.IsChain KeptApart)
    (htail : ∀ c ∈ tail, isBlank c = true) (before : List Char) (found : List Lexeme) :
    Token.lexFrom (byteLength before) found (ps.flatMap chars ++ tail) =
      .ok (found.reverse ++ lexemes before ps) := by
  induction ps generalizing before found with
  | nil =>
      have hread := Token.lexFrom_blanks htail (byteLength before) found []
      rw [List.append_nil, Token.lexFrom_nil] at hread
      simpa using hread
  | cons p ps ih =>
      have hstop : Token.StopsAt p.spelling (ps.flatMap chars ++ tail) := by
        cases ps with
        | nil =>
            exact Token.stopsAt_of_blank (fun c hc => htail c (List.mem_of_mem_head? hc)) _
        | cons q ps =>
            rw [List.flatMap_cons, List.append_assoc, stopsAt_iff]
            exact (List.isChain_cons_cons.1 hps).1
      have hbytes : byteLength before + byteLength p.blanks + byteLength p.spelling =
          byteLength (before ++ p.chars) := by
        rw [byteLength_append, chars, byteLength_append, Nat.add_assoc]
      rw [List.flatMap_cons, chars, List.append_assoc, List.append_assoc,
        Token.lexFrom_blanks p.isBlank_blanks, Token.lexFrom_spells p.spells hstop, hbytes,
        ih hps.tail, lexemes_cons, byteLength_append]
      simp

/-- One more character of white space in front of the pieces of a text. -/
private theorem exists_pieces_blank {c : Char} (hc : isBlank c = true) {ps : List Piece}
    {tail : List Char} (hps : ps.IsChain KeptApart) (htail : ∀ d ∈ tail, isBlank d = true)
    (before : List Char) :
    ∃ (qs : List Piece) (tail' : List Char),
      c :: (ps.flatMap chars ++ tail) = qs.flatMap chars ++ tail' ∧
      qs.IsChain KeptApart ∧ (∀ d ∈ tail', isBlank d = true) ∧
      lexemes (before ++ [c]) ps = lexemes before qs := by
  cases ps with
  | nil =>
      refine ⟨[], c :: tail, rfl, .nil, ?_, rfl⟩
      simpa [hc] using htail
  | cons p ps =>
      refine ⟨⟨c :: p.blanks, p.spelling, p.token, by simpa [hc] using p.isBlank_blanks,
        p.spells⟩ :: ps, tail, ?_, ?_, htail, ?_⟩
      · simp [chars]
      · rw [List.isChain_cons] at hps ⊢
        exact hps
      · simp [chars]

/-- Where tokens are read, the text is made of pieces that are kept apart. -/
theorem exists_pieces {offset : Nat} {found result : List Lexeme} {text : List Char}
    (h : Token.lexFrom offset found text = .ok result) {before : List Char}
    (hbefore : byteLength before = offset) :
    ∃ (ps : List Piece) (tail : List Char), text = ps.flatMap chars ++ tail ∧
      ps.IsChain KeptApart ∧ (∀ c ∈ tail, isBlank c = true) ∧
      result = found.reverse ++ lexemes before ps := by
  fun_induction Token.lexFrom offset found text generalizing before with
  | case1 offset found =>
      rw [Except.ok.injEq] at h
      exact ⟨[], [], rfl, .nil, by simp, by simp [h]⟩
  | case2 offset found c rest hc ih =>
      have hnext : byteLength (before ++ [c]) = offset + c.utf8Size := by simp [hbefore]
      obtain ⟨ps, tail, rfl, hps, htail, rfl⟩ := ih h hnext
      obtain ⟨qs, tail', htext, hqs, htail', hplaces⟩ := exists_pieces_blank hc hps htail before
      exact ⟨qs, tail', htext, hqs, htail', by rw [hplaces]⟩
  | case3 => simp at h
  | case4 offset found c rest hc r hfirst ih =>
      obtain ⟨hspells, hstop⟩ := Token.spells_of_first hfirst
      have hnext : byteLength (before ++ r.spelling) = offset + byteLength r.spelling := by
        simp [hbefore]
      obtain ⟨ps, tail, hrest, hps, htail, rfl⟩ := ih h hnext
      have hspelling := Token.first_spelling hfirst
      refine ⟨⟨[], r.spelling, r.token, by simp, hspells⟩ :: ps, tail, ?_, ?_, htail, ?_⟩
      · rw [← hspelling, hrest]
        simp [chars]
      · rw [List.isChain_cons]
        refine ⟨fun q hq => ?_, hps⟩
        obtain ⟨ps, rfl⟩ := List.head?_eq_some_iff.1 hq
        rw [hrest, List.flatMap_cons, List.append_assoc] at hstop
        exact (stopsAt_iff ⟨[], r.spelling, r.token, by simp, hspells⟩ q _).1 hstop
      · simp [chars, hbefore]

end Piece

/-- The text is a spelling of the tokens at their places: it is made of their pieces in order, of
which those that clash are kept apart, and of white space behind them. -/
def IsSpelling (text : String) (lexemes : List Lexeme) : Prop :=
  ∃ (ps : List Piece) (tail : List Char), text.toList = ps.flatMap Piece.chars ++ tail ∧
    ps.IsChain Piece.KeptApart ∧ (∀ c ∈ tail, isBlank c = true) ∧ lexemes = Piece.lexemes [] ps

/-- **A text has exactly the tokens of which it is a spelling**, at exactly these places. -/
theorem Token.lex_eq_ok_iff_isSpelling {text : String} {lexemes : List Lexeme} :
    lex text = .ok lexemes ↔ IsSpelling text lexemes := by
  constructor
  · intro h
    obtain ⟨ps, tail, htext, hps, htail, hlexemes⟩ := Piece.exists_pieces h byteLength_nil
    exact ⟨ps, tail, htext, hps, htail, by simpa using hlexemes⟩
  · rintro ⟨ps, tail, htext, hps, htail, rfl⟩
    have hread := Piece.lexFrom_pieces hps htail [] []
    rw [← htext] at hread
    exact hread

/-- The names among the tokens of a text are words that stand for no operator. -/
theorem Token.isWritable_of_lex {text : String} {lexemes : List Lexeme}
    (h : lex text = .ok lexemes) {n : Name} (hn : .name n ∈ lexemes.map Lexeme.token) :
    n.IsWritable := by
  obtain ⟨ps, tail, -, -, -, hlexemes⟩ := Piece.exists_pieces h byteLength_nil
  rw [hlexemes, List.reverse_nil, List.nil_append, Piece.tokens_lexemes, List.mem_map] at hn
  obtain ⟨p, -, hp⟩ := hn
  exact (hp ▸ p.spells).isWritable

end BoolLut
