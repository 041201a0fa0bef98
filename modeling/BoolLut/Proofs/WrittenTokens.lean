/-
**The tokens of a formula that is written with symbols.**

A formula that is written with symbols can be read again if its names can: if each of them is a
word of letters, digits and underscores that does not begin with a digit, and none of the three
words that stand for operators.  The tokens of the text are then those of the tree, each at the
byte where its spelling starts.  That no two of them run into each other rests on what follows a
name, which is a blank, a `)` or the end, and on what follows a `!`, which is never a `=`.

Main definitions:

* `BoolLut.Formula.IsWritable` — the formulas with names that can be read again;
* `BoolLut.Token.ReadAs` — characters that are read as some tokens, wherever they stand;
* `BoolLut.Formula.bytes` — the number of bytes of a written formula;
* `BoolLut.Formula.lexemes`, `BoolLut.Formula.tokens` — the tokens of a written formula, with their
  places and without.

Main results:

* `BoolLut.Formula.lex_symbols` — **reading a written formula gives its tokens**, at their places;
* `BoolLut.Formula.derives_tokens` — the tokens of a formula are an operand of the grammar with the
  formula as its tree.
-/

import BoolLut.Formula.Text
import BoolLut.Proofs.Grammar
import BoolLut.Proofs.Spelling

set_option relaxedAutoImplicit false
set_option autoImplicit false

namespace BoolLut

/-- All names of the formula can be read again. -/
def Formula.IsWritable (f : Formula) : Prop := ∀ n ∈ f.leaves, n.IsWritable

theorem Formula.isWritable_not {f : Formula} : (Formula.not f).IsWritable ↔ f.IsWritable := Iff.rfl

theorem Formula.isWritable_binary {op : Connective} {l r : Formula} :
    (binary op l r).IsWritable ↔ l.IsWritable ∧ r.IsWritable := by
  simp only [IsWritable, leaves_binary, List.mem_append]
  constructor
  · intro h
    exact ⟨fun n hn => h n (.inl hn), fun n hn => h n (.inr hn)⟩
  · rintro ⟨hl, hr⟩ n (hn | hn)
    · exact hl n hn
    · exact hr n hn

/-! ### The tokens around operands -/

theorem Connective.utf8ByteSize_symbol (op : Connective) : op.symbol.utf8ByteSize = 2 := by
  cases op <;> rfl

namespace Token

theorem lexFrom_name {n : Name} (hn : n.IsWritable) (offset : Nat) (found : List Lexeme)
    {rest : List Char} (hrest : EndsWord rest) :
    lexFrom offset found (n.text.toList ++ rest) =
      lexFrom (offset + byteLength n.text.toList) (⟨.name n, offset⟩ :: found) rest :=
  lexFrom_spells (.name hn) (stopsAt_of_isWord hn.word hrest) offset found

theorem lexFrom_leftParen (offset : Nat) (found : List Lexeme) (rest : List Char) :
    lexFrom offset found ('(' :: rest) =
      lexFrom (offset + 1) (⟨.leftParen, offset⟩ :: found) rest :=
  lexFrom_spells (.sign .leftParen) (IsSign.leftParen.stopsAt (by simp) rest) offset found

theorem lexFrom_rightParen (offset : Nat) (found : List Lexeme) (rest : List Char) :
    lexFrom offset found (')' :: rest) =
      lexFrom (offset + 1) (⟨.rightParen, offset⟩ :: found) rest :=
  lexFrom_spells (.sign .rightParen) (IsSign.rightParen.stopsAt (by simp) rest) offset found

/-- A `!` is read for itself unless a `=` follows. -/
theorem lexFrom_not {rest : List Char} (h : ∀ cs, rest ≠ '=' :: cs) (offset : Nat)
    (found : List Lexeme) :
    lexFrom offset found ('!' :: rest) = lexFrom (offset + 1) (⟨.not, offset⟩ :: found) rest :=
  lexFrom_spells (.sign .bang) (stopsAt_bang h) offset found

/-- A connective is read between its two blanks. -/
theorem lexFrom_connective (op : Connective) (offset : Nat) (found : List Lexeme)
    (rest : List Char) :
    lexFrom offset found (' ' :: (op.symbol.toList ++ ' ' :: rest)) =
      lexFrom (offset + 4) (⟨.connective op, offset + 1⟩ :: found) rest := by
  have hblank : isBlank ' ' = true := by decide
  have hspace : ' '.utf8Size = 1 := by decide
  have hbytes : byteLength op.symbol.toList = 2 := by
    rw [byteLength_toList, op.utf8ByteSize_symbol]
  have hne : op.symbol.toList ≠ ['!'] := by cases op <;> simp [Connective.symbol]
  rw [lexFrom_blank hblank, lexFrom_spells (.sign (.symbol op)) ((IsSign.symbol op).stopsAt hne _),
    lexFrom_blank hblank, hspace, hbytes]

/-! ### Characters that are read as tokens -/

/-- In front of the characters `rest`, the characters `cs` are read as the tokens `ts`. -/
def ReadAs (cs rest : List Char) (ts : List Token) : Prop :=
  ∀ (offset : Nat) (found : List Lexeme), ∃ (offset' : Nat) (lexemes : List Lexeme),
    lexFrom offset found (cs ++ rest) = lexFrom offset' (lexemes.reverse ++ found) rest ∧
      lexemes.map Lexeme.token = ts

section readAs

variable {cs ds rest : List Char} {ts us : List Token}

theorem readAs_nil (rest : List Char) : ReadAs [] rest [] :=
  fun offset _ => ⟨offset, [], rfl, rfl⟩

theorem ReadAs.append (h : ReadAs cs (ds ++ rest) ts) (h' : ReadAs ds rest us) :
    ReadAs (cs ++ ds) rest (ts ++ us) := by
  intro offset found
  obtain ⟨offset₁, lexemes₁, hcs, rfl⟩ := h offset found
  obtain ⟨offset₂, lexemes₂, hds, rfl⟩ := h' offset₁ (lexemes₁.reverse ++ found)
  refine ⟨offset₂, lexemes₁ ++ lexemes₂, ?_, List.map_append⟩
  rw [List.append_assoc, hcs, hds, List.reverse_append, List.append_assoc]

theorem readAs_name {n : Name} (hn : n.IsWritable) (hrest : EndsWord rest) :
    ReadAs n.text.toList rest [.name n] :=
  fun offset found => ⟨_, [⟨.name n, offset⟩], lexFrom_name hn offset found hrest, rfl⟩

/-- Between two blanks a connective may be spelled in any way. -/
theorem readAs_spelled {op : Connective} (h : Spells cs (.connective op)) (rest : List Char) :
    ReadAs (' ' :: (cs ++ [' '])) rest [.connective op] := by
  intro offset found
  have hblank : isBlank ' ' = true := by decide
  have hstop : StopsAt cs (' ' :: rest) := stopsAt_of_blank (by simp [hblank]) _
  refine ⟨offset + ' '.utf8Size + byteLength cs + ' '.utf8Size,
    [⟨.connective op, offset + ' '.utf8Size⟩], ?_, rfl⟩
  rw [List.cons_append, List.append_assoc, List.singleton_append, lexFrom_blank hblank,
    lexFrom_spells h hstop, lexFrom_blank hblank]
  rfl

theorem readAs_leftParen (rest : List Char) : ReadAs ['('] rest [.leftParen] :=
  fun offset found => ⟨_, [⟨.leftParen, offset⟩], lexFrom_leftParen offset found rest, rfl⟩

theorem readAs_rightParen (rest : List Char) : ReadAs [')'] rest [.rightParen] :=
  fun offset found => ⟨_, [⟨.rightParen, offset⟩], lexFrom_rightParen offset found rest, rfl⟩

/-- A text that is read up to its end. -/
theorem ReadAs.exists_lex {text : String} (h : ReadAs text.toList [] ts) :
    ∃ lexemes, lex text = .ok lexemes ∧ lexemes.map Lexeme.token = ts := by
  obtain ⟨offset, lexemes, hlex, htokens⟩ := h 0 []
  rw [List.append_nil, List.append_nil, lexFrom_nil, List.reverse_reverse] at hlex
  exact ⟨lexemes, hlex, htokens⟩

end readAs

end Token

namespace Formula

/-! ### The tokens of a formula -/

/-- The number of bytes of a formula that is written with symbols. -/
def bytes (f : Formula) : Nat := f.symbols.utf8ByteSize

@[simp] theorem bytes_var (name : Name) : (var name).bytes = name.text.utf8ByteSize := rfl

@[simp] theorem bytes_not (operand : Formula) : (not operand).bytes = 1 + operand.bytes := by
  simp only [bytes, symbols_not, String.utf8ByteSize_append]
  rfl

@[simp] theorem bytes_binary (op : Connective) (lhs rhs : Formula) :
    (binary op lhs rhs).bytes = lhs.bytes + rhs.bytes + 6 := by
  have hblank : " ".utf8ByteSize = 1 := rfl
  have hleft : "(".utf8ByteSize = 1 := rfl
  have hright : ")".utf8ByteSize = 1 := rfl
  simp only [bytes, symbols_binary, String.utf8ByteSize_append, op.utf8ByteSize_symbol, hblank,
    hleft, hright]
  omega

theorem bytes_pos (f : Formula) : 0 < f.bytes := by
  cases f with
  | var name =>
      have hname := name.text_ne_empty
      rw [bytes_var, Nat.pos_iff_ne_zero]
      intro hzero
      exact hname (String.utf8ByteSize_eq_zero_iff.1 hzero)
  | not operand => rw [bytes_not]; omega
  | binary op lhs rhs => rw [bytes_binary]; omega

/-- The tokens of a formula that is written with symbols, from the byte `offset` on. -/
def lexemes : Formula → Nat → List Lexeme
  | var name, offset => [⟨.name name, offset⟩]
  | not operand, offset => ⟨.not, offset⟩ :: operand.lexemes (offset + 1)
  | binary op lhs rhs, offset =>
      ⟨.leftParen, offset⟩ ::
        ((lhs.lexemes (offset + 1) ++ ⟨.connective op, offset + lhs.bytes + 2⟩ ::
          rhs.lexemes (offset + lhs.bytes + 5)) ++
            [⟨.rightParen, offset + lhs.bytes + rhs.bytes + 5⟩])

@[simp] theorem lexemes_var (name : Name) (offset : Nat) :
    (var name).lexemes offset = [⟨.name name, offset⟩] := rfl

@[simp] theorem lexemes_not (operand : Formula) (offset : Nat) :
    (not operand).lexemes offset = ⟨.not, offset⟩ :: operand.lexemes (offset + 1) := rfl

@[simp] theorem lexemes_binary (op : Connective) (lhs rhs : Formula) (offset : Nat) :
    (binary op lhs rhs).lexemes offset =
      ⟨.leftParen, offset⟩ ::
        ((lhs.lexemes (offset + 1) ++ ⟨.connective op, offset + lhs.bytes + 2⟩ ::
          rhs.lexemes (offset + lhs.bytes + 5)) ++
            [⟨.rightParen, offset + lhs.bytes + rhs.bytes + 5⟩]) := rfl

/-- The tokens of a formula that is written with symbols. -/
def tokens : Formula → List Token
  | var name => [.name name]
  | not operand => .not :: operand.tokens
  | binary op lhs rhs =>
      .leftParen :: ((lhs.tokens ++ .connective op :: rhs.tokens) ++ [.rightParen])

@[simp] theorem tokens_var (name : Name) : (var name).tokens = [.name name] := rfl

@[simp] theorem tokens_not (operand : Formula) :
    (not operand).tokens = .not :: operand.tokens := rfl

@[simp] theorem tokens_binary (op : Connective) (lhs rhs : Formula) :
    (binary op lhs rhs).tokens =
      .leftParen :: ((lhs.tokens ++ .connective op :: rhs.tokens) ++ [.rightParen]) := rfl

@[simp] theorem map_token_lexemes (f : Formula) (offset : Nat) :
    (f.lexemes offset).map Lexeme.token = f.tokens := by
  induction f generalizing offset with
  | var name => rfl
  | not operand ih => simp [ih]
  | binary op lhs rhs ihl ihr => simp [ihl, ihr]

/-- A written formula does not begin with a `=`. -/
theorem symbols_ne_cons_eq {f : Formula} (h : f.IsWritable) (cs : List Char) :
    ∀ rest, f.symbols.toList ++ rest ≠ '=' :: cs := by
  intro rest hcons
  cases f with
  | var name =>
      obtain ⟨c, ds, htext, hc, -⟩ := (h name (by simp)).word
      rw [symbols_var, htext, List.cons_append, List.cons.injEq] at hcons
      rw [hcons.1] at hc
      exact absurd hc (by decide)
  | not operand => simp [notSymbol] at hcons
  | binary op lhs rhs => simp at hcons

/-- The tokens of a written formula are read in front of anything that is no part of a word. -/
theorem lexFrom_symbols {f : Formula} (h : f.IsWritable) :
    ∀ offset found rest, Token.EndsWord rest →
      Token.lexFrom offset found (f.symbols.toList ++ rest) =
        Token.lexFrom (offset + f.bytes) ((f.lexemes offset).reverse ++ found) rest := by
  induction f with
  | var name =>
      intro offset found rest hrest
      rw [symbols_var, Token.lexFrom_name (h name (by simp)) offset found hrest, byteLength_toList]
      rfl
  | not operand ih =>
      intro offset found rest hrest
      have hoperand : operand.IsWritable := isWritable_not.1 h
      -- the `!` is not taken for the first half of a `!=`
      have hbang : ∀ cs, operand.symbols.toList ++ rest ≠ '=' :: cs :=
        fun cs => symbols_ne_cons_eq hoperand cs rest
      have htext : (not operand).symbols.toList ++ rest =
          '!' :: (operand.symbols.toList ++ rest) := by
        simp [notSymbol]
      rw [htext, Token.lexFrom_not hbang, ih hoperand _ _ rest hrest, lexemes_not, bytes_not,
        List.reverse_cons, List.append_assoc, List.singleton_append, Nat.add_assoc]
  | binary op lhs rhs ihl ihr =>
      intro offset found rest hrest
      obtain ⟨hl, hr⟩ := isWritable_binary.1 h
      have htext : (binary op lhs rhs).symbols.toList ++ rest =
          '(' :: (lhs.symbols.toList ++ ' ' :: (op.symbol.toList ++ ' ' ::
            (rhs.symbols.toList ++ ')' :: rest))) := by
        simp
      have hsign : offset + 1 + lhs.bytes + 1 = offset + lhs.bytes + 2 := by omega
      have hright : offset + 1 + lhs.bytes + 4 = offset + lhs.bytes + 5 := by omega
      have hclose : offset + lhs.bytes + 5 + rhs.bytes = offset + lhs.bytes + rhs.bytes + 5 := by
        omega
      have hend : offset + lhs.bytes + rhs.bytes + 5 + 1 = offset + (binary op lhs rhs).bytes := by
        rw [bytes_binary]
        omega
      -- a blank ends the last name of the left side, and a `)` the last one of the right side
      rw [htext, Token.lexFrom_leftParen, ihl hl _ _ _ (Token.endsWord_cons (by decide)),
        Token.lexFrom_connective, hsign, hright, ihr hr _ _ _ (Token.endsWord_cons (by decide)),
        hclose, Token.lexFrom_rightParen, hend]
      simp

/-- **Reading a written formula gives its tokens**, each at the byte where it was written. -/
theorem lex_symbols {f : Formula} (h : f.IsWritable) :
    Token.lex f.symbols = .ok (f.lexemes 0) := by
  have hread := lexFrom_symbols h 0 [] [] Token.endsWord_nil
  rw [List.append_nil, List.append_nil] at hread
  rw [Token.lex, hread, Token.lexFrom_nil, List.reverse_reverse]

/-- The tokens of a formula are an operand of the grammar, with the formula as its tree. -/
theorem derives_tokens (f : Formula) : Derives .operand f.tokens f := by
  induction f with
  | var name => exact .atom (.name name)
  | not operand ih => exact .not ih
  | binary op lhs rhs ihl ihr =>
      have hlhs : Derives (.chain op.level) lhs.tokens lhs := .item (ihl.item_of_operand op.level)
      have hrhs : Derives op.level.item rhs.tokens rhs := ihr.item_of_operand op.level
      exact .atom (.group (Derives.join rfl hlhs hrhs).formula_of_chain)

end Formula

end BoolLut
