/-
**Names in a row.**

Names that are joined by one connective, and by nothing else, make a formula that needs neither `!`
nor `(`.  At no place in its text is a sign open, and so the limit on open signs does not matter: a
row of any length is read, as a tree that goes down on its left side with one level for each
connective.  This is why trees that are read may be deeper than the limit.

Main definitions:

* `BoolLut.Formula.chain` — a formula and names after it, joined from left to right;
* `BoolLut.chainTokens`, `BoolLut.chainText` — the tokens and a text of names in a row.

Main results:

* `BoolLut.Formula.depth_chain` — every name makes the tree one level deeper;
* `BoolLut.atMostOpen_of_forall` — where no token opens a sign, no sign is open;
* `BoolLut.lex_chainText` — the tokens of a row;
* `BoolLut.Formula.parse_chain` — **names in a row are read, however many there are**.
-/

import BoolLut.Proofs.Reading
import BoolLut.Proofs.WrittenTokens

set_option relaxedAutoImplicit false
set_option autoImplicit false

namespace BoolLut

open Opener

variable {op : Connective}

/-! ### Trees and tokens -/

namespace Formula

/-- The formula `f` and the names after it, joined by one connective from left to right. -/
def chain (op : Connective) (f : Formula) (names : List Name) : Formula :=
  names.foldl (fun f n => binary op f (var n)) f

@[simp] theorem chain_nil (op : Connective) (f : Formula) : chain op f [] = f := rfl

@[simp] theorem chain_cons (op : Connective) (f : Formula) (n : Name) (names : List Name) :
    chain op f (n :: names) = chain op (binary op f (var n)) names := rfl

/-- Every name makes the tree one level deeper. -/
theorem depth_chain (op : Connective) (f : Formula) (names : List Name) :
    (chain op f names).depth = f.depth + names.length := by
  induction names generalizing f with
  | nil => rfl
  | cons n names ih =>
      rw [chain_cons, ih, depth_binary, depth_var, List.length_cons]
      omega

@[simp] theorem leaves_chain (op : Connective) (f : Formula) (names : List Name) :
    (chain op f names).leaves = f.leaves ++ names := by
  induction names generalizing f with
  | nil => simp
  | cons n names ih => simp [ih]

end Formula

/-- The tokens of names that are joined to what stands before them. -/
def chainTokens (op : Connective) (names : List Name) : List Token :=
  names.flatMap fun n => [.connective op, .name n]

@[simp] theorem chainTokens_nil (op : Connective) : chainTokens op [] = [] := rfl

@[simp] theorem chainTokens_cons (op : Connective) (n : Name) (names : List Name) :
    chainTokens op (n :: names) = .connective op :: .name n :: chainTokens op names := rfl

/-- Names are joined to a chain of the same level. -/
theorem Derives.chain {ts : List Token} {f : Formula} (h : Derives (.chain op.level) ts f)
    (names : List Name) :
    Derives (.chain op.level) (ts ++ chainTokens op names) (f.chain op names) := by
  induction names generalizing ts f with
  | nil => simpa using h
  | cons n names ih =>
      have hname := (Derives.atom (.name n)).item_of_operand op.level
      have hchain := ih (.join rfl h hname)
      simpa using hchain

/-- Where no token opens a sign, no sign is open. -/
theorem atMostOpen_of_forall {ts : List Token} (h : ∀ t ∈ ts, t ≠ .not ∧ t ≠ .leftParen)
    (limit : Nat) : AtMostOpen limit ts := by
  have hnone : ∀ us : List Token, (∀ t ∈ us, t ≠ .not ∧ t ≠ .leftParen) → openSigns us = [] := by
    intro us hus
    induction us with
    | nil => rfl
    | cons t us ih =>
        obtain ⟨⟨hnot, hparen⟩, hrest⟩ := List.forall_mem_cons.1 hus
        have hfirst : track [] t = [] := by cases t <;> simp_all [track]
        rw [openSigns, List.foldl_cons, hfirst]
        exact ih hrest
  intro before hbefore
  rw [hnone before fun t ht => h t (hbefore.subset ht)]
  exact Nat.zero_le limit

/-- Names in a row need no sign that is opened. -/
theorem ne_of_mem_chainTokens {n : Name} {names : List Name} {t : Token}
    (ht : t ∈ .name n :: chainTokens op names) : t ≠ .not ∧ t ≠ .leftParen := by
  rw [List.mem_cons, chainTokens, List.mem_flatMap] at ht
  rcases ht with rfl | ⟨m, -, ht⟩
  · simp
  · rcases List.mem_pair.1 ht with rfl | rfl
    · simp
    · simp

theorem atMostOpen_chainTokens (limit : Nat) (op : Connective) (n : Name) (names : List Name) :
    AtMostOpen limit (.name n :: chainTokens op names) :=
  atMostOpen_of_forall (fun _ ht => ne_of_mem_chainTokens ht) limit

/-! ### Texts -/

/-- A text of names in a row, with `sign` and two blanks between any two of them. -/
def chainText (sign : String) (n : Name) (names : List Name) : String :=
  n.text ++ String.join (names.map fun m => " " ++ sign ++ " " ++ m.text)

/-- The characters behind the first name of a row. -/
private def chainRest (sign : String) (names : List Name) : List Char :=
  names.flatMap fun m => ' ' :: (sign.toList ++ ' ' :: m.text.toList)

private theorem toList_chainText (sign : String) (n : Name) (names : List Name) :
    (chainText sign n names).toList = n.text.toList ++ chainRest sign names := by
  simp [chainText, chainRest, List.flatMap_map]

/-- A text of names in a row has nothing in it but the names, the sign and blanks. -/
theorem mem_toList_chainText {sign : String} {n : Name} {names : List Name} {c : Char}
    (hc : c ∈ (chainText sign n names).toList) :
    c = ' ' ∨ c ∈ sign.toList ∨ ∃ m ∈ n :: names, c ∈ m.text.toList := by
  rw [toList_chainText, List.mem_append, chainRest, List.mem_flatMap] at hc
  rcases hc with hc | ⟨m, hm, hc⟩
  · exact .inr (.inr ⟨n, List.mem_cons_self, hc⟩)
  · rw [List.mem_cons, List.mem_append, List.mem_cons] at hc
    rcases hc with hc | hc | hc | hc
    · exact .inl hc
    · exact .inr (.inl hc)
    · exact .inl hc
    · exact .inr (.inr ⟨m, List.mem_cons_of_mem _ hm, hc⟩)

private theorem endsWord_chainRest (sign : String) (names : List Name) :
    Token.EndsWord (chainRest sign names ++ []) := by
  rw [List.append_nil]
  cases names with
  | nil => exact Token.endsWord_nil
  | cons m names => exact Token.endsWord_cons (by decide)

private theorem readAs_chainRest {sign : String}
    (hsign : Token.Spells sign.toList (.connective op)) {names : List Name}
    (hnames : ∀ n ∈ names, n.IsWritable) :
    Token.ReadAs (chainRest sign names) [] (chainTokens op names) := by
  induction names with
  | nil => exact Token.readAs_nil []
  | cons n names ih =>
      obtain ⟨hn, hrest⟩ := List.forall_mem_cons.1 hnames
      have hchars : chainRest sign (n :: names) =
          ' ' :: (sign.toList ++ [' ']) ++ (n.text.toList ++ chainRest sign names) := by
        simp [chainRest]
      rw [hchars]
      exact (Token.readAs_spelled hsign _).append
        ((Token.readAs_name hn (endsWord_chainRest sign names)).append (ih hrest))

/-- The tokens of a row are its names with connectives between them. -/
theorem lex_chainText {sign : String} (hsign : Token.Spells sign.toList (.connective op)) {n : Name}
    (hn : n.IsWritable) {names : List Name} (hnames : ∀ m ∈ names, m.IsWritable) :
    ∃ lexemes, Token.lex (chainText sign n names) = .ok lexemes ∧
      lexemes.map Lexeme.token = .name n :: chainTokens op names := by
  refine Token.ReadAs.exists_lex ?_
  rw [toList_chainText]
  exact (Token.readAs_name hn (endsWord_chainRest sign names)).append
    (readAs_chainRest hsign hnames)

/-- **Names in a row are read, however many there are**, and joined from left to right. -/
theorem Formula.parse_chain {sign : String} (hsign : Token.Spells sign.toList (.connective op))
    {n : Name} (hn : n.IsWritable) {names : List Name} (hnames : ∀ m ∈ names, m.IsWritable) :
    parse (chainText sign n names) = .ok ((var n).chain op names) := by
  obtain ⟨lexemes, hlex, htokens⟩ := lex_chainText hsign hn hnames
  have hname := (Derives.atom (.name n)).item_of_operand op.level
  have hderives := ((Derives.item hname).chain names).formula_of_chain
  refine parse_of_derives hlex ?_ ?_
  · rw [htokens]
    exact hderives
  · rw [htokens]
    exact atMostOpen_chainTokens maxDepth op n names

end BoolLut
