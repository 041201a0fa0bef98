/-
**What is left of a formula that is written with placeholders.**

A formula that is written with placeholders does not tell its connectives apart, since the word `op`
stands for each of them, and it stands for `!` too.  Nothing else is lost: where an operand is to
come, the word is a `!`, behind an operand it is a connective, and the rest of the tree shows in the
parentheses.  So two formulas are written alike exactly if they are the same once all connectives are
made one.

This needs that the word is no name.  A variable with the name `op` cannot be told from the
placeholder, and then a `!` may seem to stand on either side of a connective.

Main definitions:

* `BoolLut.Formula.withConnective` — a formula with one connective in the place of all others;
* `BoolLut.Formula.AvoidsPlaceholder` — the names are words, and none of them is `op`.

Main results:

* `BoolLut.Formula.placeholders_withConnective` — connectives do not show;
* `BoolLut.Token.append_inj_of_isWord` — a word ends where it is followed by something else;
* `BoolLut.Formula.placeholders_append_inj` — **all else shows**, also in front of other characters;
* `BoolLut.Formula.placeholders_misread` — a name `op` that hides where a `!` stands;
* `BoolLut.Formula.placeholders_eq_iff_withConnective` — **formulas are written alike exactly if
  they differ in connectives only**.
-/

import BoolLut.Proofs.Renaming
import BoolLut.Proofs.WrittenTokens

set_option relaxedAutoImplicit false
set_option autoImplicit false

namespace BoolLut

namespace Formula

/-! ### Connectives do not show -/

/-- The formula with `op` in the place of every connective. -/
def withConnective (op : Connective) : Formula → Formula
  | var n => var n
  | not f => not (f.withConnective op)
  | binary _ l r => binary op (l.withConnective op) (r.withConnective op)

@[simp] theorem withConnective_var (op : Connective) (n : Name) :
    (var n).withConnective op = var n := rfl

@[simp] theorem withConnective_not (op : Connective) (f : Formula) :
    (not f).withConnective op = not (f.withConnective op) := rfl

@[simp] theorem withConnective_binary (op op' : Connective) (l r : Formula) :
    (binary op' l r).withConnective op =
      binary op (l.withConnective op) (r.withConnective op) := rfl

/-- Which connectives a formula has does not show. -/
theorem placeholders_withConnective (op : Connective) (f : Formula) :
    (f.withConnective op).placeholders = f.placeholders := by
  induction f with
  | var n => rfl
  | not f ih => rw [withConnective_not, placeholders_not, ih, placeholders_not]
  | binary op' l r ihl ihr =>
      rw [withConnective_binary, placeholders_binary, ihl, ihr, placeholders_binary]

end Formula

/-! ### Words -/

namespace Token

theorem isWord_of_all {c : Char} {cs : List Char} (hc : isNameStart c = true)
    (hcs : cs.all isNameChar = true) : IsWord (c :: cs) :=
  isWord_cons_iff.2 ⟨hc, List.all_eq_true.1 hcs⟩

theorem isNameChar_of_mem_word {word : List Char} (h : IsWord word) :
    ∀ c ∈ word, isNameChar c = true := by
  obtain ⟨d, ds, rfl, hd, hds⟩ := h
  exact List.forall_mem_cons.2 ⟨isNameChar_of_isNameStart hd, hds⟩

/-- A word ends where something else follows. -/
theorem append_inj_of_isWord {word word' rest rest' : List Char} (hword : IsWord word)
    (hword' : IsWord word') (hrest : EndsWord rest) (hrest' : EndsWord rest')
    (h : word ++ rest = word' ++ rest') : word = word' ∧ rest = rest' := by
  have hfront : ∀ {w r : List Char}, IsWord w → EndsWord r →
      (w ++ r).takeWhile isNameChar = w := by
    intro w r hw hr
    rw [List.takeWhile_append_of_pos (isNameChar_of_mem_word hw), hr.takeWhile_eq_nil,
      List.append_nil]
  have hwords : word = word' := by
    rw [← hfront hword hrest, h, hfront hword' hrest']
  rw [hwords] at h
  exact ⟨hwords, List.append_cancel_left h⟩

end Token

namespace Formula

open Token

/-! ### All else shows -/

/-- The names of the formula are words, and none of them is the placeholder. -/
def AvoidsPlaceholder (f : Formula) : Prop :=
  ∀ n ∈ f.leaves, IsWord n.text.toList ∧ n.text ≠ "op"

theorem avoidsPlaceholder_not {f : Formula} :
    (not f).AvoidsPlaceholder ↔ f.AvoidsPlaceholder := Iff.rfl

theorem avoidsPlaceholder_binary {op : Connective} {l r : Formula} :
    (binary op l r).AvoidsPlaceholder ↔ l.AvoidsPlaceholder ∧ r.AvoidsPlaceholder := by
  simp only [AvoidsPlaceholder, leaves_binary, List.forall_mem_append]

/-- A negation is written with the placeholder in front. -/
theorem toList_placeholders_not (f : Formula) (rest : List Char) :
    (not f).placeholders.toList ++ rest =
      ['o', 'p'] ++ ' ' :: (f.placeholders.toList ++ rest) := by
  simp

/-- A connective is written with the placeholder between two blanks. -/
theorem toList_placeholders_binary (op : Connective) (l r : Formula) (rest : List Char) :
    (binary op l r).placeholders.toList ++ rest =
      '(' :: (l.placeholders.toList ++
        ' ' :: 'o' :: 'p' :: ' ' :: (r.placeholders.toList ++ ')' :: rest)) := by
  simp

section word

variable {n : Name} {rest : List Char}

/-- A name that is not the placeholder does not begin a negation. -/
theorem text_append_ne_not (hword : IsWord n.text.toList) (hop : n.text ≠ "op")
    (hrest : EndsWord rest) (cs : List Char) :
    n.text.toList ++ rest ≠ ['o', 'p'] ++ ' ' :: cs := by
  intro h
  have hplaceholder : IsWord ['o', 'p'] := isWord_of_all (by decide) (by decide)
  obtain ⟨htext, -⟩ :=
    append_inj_of_isWord hword hplaceholder hrest (endsWord_cons (by decide)) h
  exact hop (String.toList_inj.1 htext)

/-- A name does not begin with a parenthesis. -/
theorem text_append_ne_paren (hword : IsWord n.text.toList) (cs : List Char) :
    n.text.toList ++ rest ≠ '(' :: cs := by
  intro h
  obtain ⟨d, ds, htext, hd, -⟩ := hword
  rw [htext, List.cons_append] at h
  obtain ⟨rfl, -⟩ := List.cons.inj h
  exact absurd hd (by decide)

end word

/-- Where something follows that is no part of a word, the characters show the formula up to its
connectives, and what follows. -/
theorem placeholders_append_inj {f g : Formula} (hf : f.AvoidsPlaceholder)
    (hg : g.AvoidsPlaceholder) {rest rest' : List Char} (hrest : EndsWord rest)
    (hrest' : EndsWord rest')
    (h : f.placeholders.toList ++ rest = g.placeholders.toList ++ rest') (op : Connective) :
    f.withConnective op = g.withConnective op ∧ rest = rest' := by
  -- the first characters tell which kind of node is written: a name, the placeholder or a `(`
  induction f generalizing g rest rest' with
  | var n =>
      obtain ⟨hn, hnop⟩ := hf n (by simp)
      cases g with
      | var m =>
          obtain ⟨hm, -⟩ := hg m (by simp)
          obtain ⟨htext, htail⟩ := append_inj_of_isWord hn hm hrest hrest' h
          have hname : n = m := Name.ext (String.toList_inj.1 htext)
          exact ⟨by rw [hname], htail⟩
      | not g =>
          rw [toList_placeholders_not] at h
          exact absurd h (text_append_ne_not hn hnop hrest _)
      | binary op' l r =>
          rw [toList_placeholders_binary] at h
          exact absurd h (text_append_ne_paren hn _)
  | not f ih =>
      rw [toList_placeholders_not] at h
      cases g with
      | var m =>
          obtain ⟨hm, hmop⟩ := hg m (by simp)
          exact absurd h.symm (text_append_ne_not hm hmop hrest' _)
      | not g =>
          rw [toList_placeholders_not] at h
          have hoperands := (List.cons.inj (List.append_cancel_left h)).2
          obtain ⟨htree, htail⟩ := ih (avoidsPlaceholder_not.1 hf) (avoidsPlaceholder_not.1 hg)
            hrest hrest' hoperands
          exact ⟨by rw [withConnective_not, htree, withConnective_not], htail⟩
      | binary op' l r =>
          rw [toList_placeholders_binary] at h
          simp at h
  | binary op₁ l₁ r₁ ihl ihr =>
      rw [toList_placeholders_binary] at h
      obtain ⟨hl₁, hr₁⟩ := avoidsPlaceholder_binary.1 hf
      cases g with
      | var m =>
          obtain ⟨hm, -⟩ := hg m (by simp)
          exact absurd h.symm (text_append_ne_paren hm _)
      | not g =>
          rw [toList_placeholders_not] at h
          simp at h
      | binary op₂ l₂ r₂ =>
          rw [toList_placeholders_binary] at h
          obtain ⟨hl₂, hr₂⟩ := avoidsPlaceholder_binary.1 hg
          -- a blank ends the last name of a left side, and a `)` that of a right side
          obtain ⟨hleft, hbetween⟩ := ihl hl₁ hl₂ (endsWord_cons (by decide))
            (endsWord_cons (by decide)) (List.cons.inj h).2
          simp only [List.cons.injEq, true_and] at hbetween
          obtain ⟨hright, htail⟩ := ihr hr₁ hr₂ (endsWord_cons (by decide))
            (endsWord_cons (by decide)) hbetween
          exact ⟨by rw [withConnective_binary, hleft, hright, withConnective_binary],
            (List.cons.inj htail).2⟩

theorem withConnective_eq_of_placeholders_eq {f g : Formula} (hf : f.AvoidsPlaceholder)
    (hg : g.AvoidsPlaceholder) (h : f.placeholders = g.placeholders) (op : Connective) :
    f.withConnective op = g.withConnective op := by
  have hchars : f.placeholders.toList ++ [] = g.placeholders.toList ++ [] := by rw [h]
  exact (placeholders_append_inj hf hg endsWord_nil endsWord_nil hchars op).1

/-! ### The placeholder as a name -/

/-- With a name `op` on its left side, a connective does not show on which side a `!` stands. -/
theorem placeholders_misread {n : Name} (hn : n.text = "op") (op op' : Connective) (f : Formula) :
    (binary op (var n) (not f)).placeholders = (binary op' (not (var n)) f).placeholders := by
  simp only [placeholders_binary, placeholders_var, placeholders_not, hn, ← String.append_assoc]
  rfl

/-- **Formulas are written alike exactly if they differ in connectives only**, as long as their names
are words and none of them is the placeholder.  That none of them is the placeholder is needed: there
are texts that are read as formulas with such a name, which are written alike, and no choice of names
and of a connective makes the trees the same. -/
theorem placeholders_eq_iff_withConnective :
    (∀ f g : Formula, (∀ n ∈ f.leaves, IsWord n.text.toList ∧ n.text ≠ "op") →
      (∀ n ∈ g.leaves, IsWord n.text.toList ∧ n.text ≠ "op") → ∀ op : Connective,
        (f.placeholders = g.placeholders ↔ f.withConnective op = g.withConnective op)) ∧
    ∃ (text text' : String) (f g : Formula), parse text = .ok f ∧ parse text' = .ok g ∧
      (∃ n ∈ f.leaves, n.text = "op") ∧ (∃ n ∈ g.leaves, n.text = "op") ∧
      f.placeholders = g.placeholders ∧
      ∀ (op op' : Connective) (names names' : Name → Name),
        (f.withConnective op).rename names ≠ (g.withConnective op').rename names' := by
  constructor
  · intro f g hf hg op
    constructor
    · intro h
      exact withConnective_eq_of_placeholders_eq hf hg h op
    · intro h
      rw [← placeholders_withConnective op f, h, placeholders_withConnective]
  · let n := Name.ofChars 'o' ['p']
    let b := var (.ofChars 'b' [])
    have htext : n.text = "op" := by decide
    refine ⟨"op && !b", "!op && b", binary .and (var n) (not b), binary .and (not (var n)) b,
      by decide +kernel, by decide +kernel, ⟨n, by simp, htext⟩, ⟨n, by simp, htext⟩,
      placeholders_misread htext .and .and b, ?_⟩
    intro op op' names names' hsame
    simp at hsame

/-- A word that could not be read again as a name is no obstacle: `!AND == b` and `!AND || b` are
written alike, and `!(AND || b)` is not. -/
theorem placeholders_eq_iff_withConnective_reserved_word :
    let a := Name.ofChars 'A' ['N', 'D']
    let b := Name.ofChars 'b' []
    let f := Formula.binary .iff (.not (.var a)) (.var b)
    let g := Formula.binary .or (.not (.var a)) (.var b)
    let h := Formula.not (.binary .or (.var a) (.var b))
    (∀ n ∈ [a, b], IsWord n.text.toList ∧ n.text ≠ "op") ∧ f.placeholders = g.placeholders ∧
      g.placeholders ≠ h.placeholders := by
  intro a b f g h
  have hword : ∀ c cs, isNameStart c = true → cs.all isNameChar = true →
      IsWord (Name.ofChars c cs).text.toList := by
    intro c cs hc hcs
    rw [Name.toList_ofChars]
    exact isWord_of_all hc hcs
  have hnames : ∀ n ∈ [a, b], IsWord n.text.toList ∧ n.text ≠ "op" := by
    intro n hn
    rcases List.mem_pair.1 hn with rfl | rfl
    · exact ⟨hword _ _ (by decide) (by decide), by decide⟩
    · exact ⟨hword _ _ (by decide) (by decide), by decide⟩
  have halike := placeholders_eq_iff_withConnective.1
  refine ⟨hnames, (halike f g hnames hnames .and).2 rfl, ?_⟩
  rw [Ne, halike g h hnames hnames .and]
  simp [g, h]

end Formula

end BoolLut
