/-
**The tokens of a text in its tree.**

Reading a tree in order, the left side of a connective before the connective and the right side
after it, and `!` before its operand, gives tokens.  For the tree of a text they are the tokens of
the text without the parentheses: reading a text loses nothing else, and neither doubles a token nor
moves one.  The names at the leaves are therefore the names in the text, and the table of names
counts how often each of them stands there.

Main definitions:

* `BoolLut.Token.isParen` — the two tokens that leave no node;
* `BoolLut.Formula.inOrder` — the tokens of a tree, read in order.

Main results:

* `BoolLut.Derives.inOrder_eq` — the tokens of a phrase without the parentheses are those of its
  tree, read in order;
* `BoolLut.Token.length_le_of_lex` — a text has at most as many tokens as bytes;
* `BoolLut.Formula.counts_nameTable` — the table of a formula counts its leaves;
* `BoolLut.Formula.inOrder_of_parse` — **reading a text loses, doubles and moves no token** but the
  parentheses.
-/

import BoolLut.Proofs.Multimap
import BoolLut.Proofs.Reading
import BoolLut.Proofs.Spelling

set_option relaxedAutoImplicit false
set_option autoImplicit false

namespace BoolLut

/-! ### Tokens in order -/

/-- The tokens that leave no node in a tree. -/
def Token.isParen : Token → Bool
  | .leftParen => true
  | .rightParen => true
  | _ => false

namespace Formula

/-- The tokens of a tree, read in order. -/
def inOrder : Formula → List Token
  | var n => [.name n]
  | not f => .not :: f.inOrder
  | binary op f g => f.inOrder ++ .connective op :: g.inOrder

@[simp] theorem inOrder_var (n : Name) : (var n).inOrder = [.name n] := rfl

@[simp] theorem inOrder_not (f : Formula) : (not f).inOrder = .not :: f.inOrder := rfl

@[simp] theorem inOrder_binary (op : Connective) (f g : Formula) :
    (binary op f g).inOrder = f.inOrder ++ .connective op :: g.inOrder := rfl

/-- Every node has one token. -/
theorem length_inOrder (f : Formula) : f.inOrder.length = f.size := by
  induction f with
  | var n => rfl
  | not f ih => simp only [inOrder_not, List.length_cons, size_not, ih]; omega
  | binary op f g ihf ihg =>
      simp only [inOrder_binary, List.length_append, List.length_cons, size_binary, ihf, ihg]
      omega

/-- The table of a formula counts its leaves. -/
theorem counts_nameTable (f : Formula) :
    f.nameTable.counts = f.leaves.eraseDups.map fun n => (n, f.leaves.count n) := by
  rw [nameTable, NameTable.counts_ofList, map_name_occurrences]

end Formula

/-- The tokens of a phrase without the parentheses are those of its tree, read in order. -/
theorem Derives.inOrder_eq {p : Phrase} {ts : List Token} {f : Formula} (h : Derives p ts f) :
    f.inOrder = ts.filter fun t => !t.isParen := by
  induction h with
  | item _ ih => exact ih
  | join _ _ _ ihf ihg => simp [ihf, ihg, Token.isParen]
  | atom _ ih => exact ih
  | not _ ih => simp [ih, Token.isParen]
  | name n => rfl
  | group _ ih => simp [ih, Token.isParen]

/-! ### Tokens and bytes -/

namespace Token

/-- A spelling has a character. -/
theorem Spells.ne_nil {cs : List Char} {t : Token} (h : Spells cs t) : cs ≠ [] := by
  rcases h.sign_or_word with hsign | ⟨d, ds, rfl, -, -⟩
  · obtain ⟨d, ds, rfl, -, -⟩ := hsign.head
    exact List.cons_ne_nil d ds
  · exact List.cons_ne_nil d ds

/-- A text has at most as many tokens as bytes. -/
theorem length_le_of_lex {text : String} {lexemes : List Lexeme} (h : lex text = .ok lexemes) :
    lexemes.length ≤ text.utf8ByteSize := by
  obtain ⟨ps, tail, htext, -, -, rfl⟩ := Piece.exists_pieces h byteLength_nil
  have hpieces : ps.length ≤ (ps.flatMap Piece.chars).length := by
    clear htext h
    induction ps with
    | nil => exact Nat.le_refl 0
    | cons p ps ih =>
        have hpos := List.length_pos_iff.2 p.spells.ne_nil
        rw [List.flatMap_cons, List.length_append, List.length_cons, Piece.chars,
          List.length_append]
        omega
  have hlexemes : (Piece.lexemes [] ps).length = ps.length := by
    rw [← List.length_map (f := Lexeme.token), Piece.tokens_lexemes, List.length_map]
  calc (Piece.lexemes [] ps).length
    _ ≤ (ps.flatMap Piece.chars).length := by rw [hlexemes]; exact hpieces
    _ ≤ text.toList.length := by rw [htext, List.length_append]; exact Nat.le_add_right ..
    _ ≤ byteLength text.toList := length_le_byteLength _
    _ = text.utf8ByteSize := byteLength_toList text

end Token

/-! ### Texts -/

/-- **Reading a text loses, doubles and moves no token** but the parentheses.  The tree of a text,
read in order, has the tokens of the text without the parentheses.  So the leaves are the names in
the text, the table lists each of them once in the order of their first occurrences and counts how
often it stands in the text, the nodes are as many as the tokens without the parentheses, and the
depth is less than their number, which is at most the number of bytes. -/
theorem Formula.inOrder_of_parse {text : String} {root : Formula} (h : parse text = .ok root) :
    ∃ lexemes, Token.lex text = .ok lexemes ∧
      root.inOrder = (lexemes.map Lexeme.token).filter (fun t => !t.isParen) ∧
      root.leaves = Token.names (lexemes.map Lexeme.token) ∧
      root.nameTable.names = (Token.names (lexemes.map Lexeme.token)).eraseDups ∧
      root.nameTable.counts = (Token.names (lexemes.map Lexeme.token)).eraseDups.map (fun n =>
        (n, (Token.names (lexemes.map Lexeme.token)).count n)) ∧
      root.size = ((lexemes.map Lexeme.token).filter fun t => !t.isParen).length ∧
      root.depth < root.size ∧ root.size ≤ text.utf8ByteSize := by
  obtain ⟨lexemes, hlex, hderives⟩ := derives_of_parse h
  have hleaves := hderives.leaves_eq
  have hsize : root.size = ((lexemes.map Lexeme.token).filter fun t => !t.isParen).length := by
    rw [← hderives.inOrder_eq, length_inOrder]
  refine ⟨lexemes, hlex, hderives.inOrder_eq, hleaves, ?_, ?_, hsize, root.depth_lt_size, ?_⟩
  · rw [names_nameTable, hleaves]
  · rw [counts_nameTable, hleaves]
  · have hfilter := List.length_filter_le (fun t : Token => !t.isParen) (lexemes.map Lexeme.token)
    rw [List.length_map] at hfilter
    calc root.size
      _ ≤ lexemes.length := by rw [hsize]; exact hfilter
      _ ≤ text.utf8ByteSize := Token.length_le_of_lex hlex

/-- Reading a group with a name that stands twice in the text, a word for a connective, and a blank
of three bytes. -/
theorem Formula.inOrder_of_parse_group :
    let a := Name.ofChars 'a' []
    let b := Name.ofChars 'b' []
    ∃ root, parse "(b OR\u2003!a) && b" = .ok root ∧
      root.inOrder =
        [.name b, .connective .or, .not, .name a, .connective .and, .name b] ∧
      root.leaves = [b, a, b] ∧ root.nameTable.counts = [(b, 2), (a, 1)] ∧
      root.size = 6 ∧ root.depth < 6 ∧ 6 ≤ "(b OR\u2003!a) && b".utf8ByteSize := by
  intro a b
  have hlex : Token.lex "(b OR\u2003!a) && b" =
      .ok [⟨.leftParen, 0⟩, ⟨.name b, 1⟩, ⟨.connective .or, 3⟩, ⟨.not, 8⟩, ⟨.name a, 9⟩,
        ⟨.rightParen, 10⟩, ⟨.connective .and, 12⟩, ⟨.name b, 15⟩] := by decide +kernel
  have hname : ∀ n, Derives .operand [.name n] (.var n) := fun n => .atom (.name n)
  have hor : Connective.or.level = .disjunction := rfl
  have hand : Connective.and.level = .conjunction := rfl
  have hgroup := Derives.group
    (.join hor (.item ((hname b).item_of_operand _)) ((hname a).not.item_of_operand _))
  have hconjunction : Derives (.chain .conjunction) _ _ :=
    .join hand (.item ((Derives.atom hgroup).item_of_operand _)) ((hname b).item_of_operand _)
  have hformula := hconjunction.formula_of_chain
  have hparse := parse_of_derives hlex hformula ((hformula.scan_eq_none_iff maxDepth).1 rfl)
  obtain ⟨lexemes, hlex', hinOrder, hleaves, -, hcounts, hsize, hdepth, hbytes⟩ :=
    inOrder_of_parse hparse
  rw [hlex, Except.ok.injEq] at hlex'
  subst hlex'
  rw [hsize] at hdepth hbytes
  exact ⟨_, hparse, hinOrder, hleaves, hcounts.trans (by decide), hsize, hdepth, hbytes⟩

end BoolLut
