/-
**Writing a formula and reading it again.**

A formula that is written with symbols shows every node that is no leaf by one sign, a `!` or a
`(`, and the sign is open for as long as the text is inside the node.  So the signs that are open
at a place are the ancestors of the node that is written there, and the limit on open signs is a
limit on the depth of the tree.  A formula within it is read back as it was; any other one is
refused at the first node that is written with too many ancestors.

Main definitions:

* `BoolLut.Stands` — the nodes of a formula, with the number of their ancestors and the bytes
  before them in the written formula;
* `BoolLut.Formula.Leftmost` — the first node with a given number of ancestors that is no leaf;
* `BoolLut.TooDeepAt` — a lexeme is the first that opens a sign too many.

Main results:

* `BoolLut.Stands.symbols_eq` — a node is written at its place;
* `BoolLut.Formula.admits_tokens_iff` — the signs that are open around a formula and its depth are
  what the limit is about;
* `BoolLut.Formula.exists_tooDeepAt` — where a formula is too deep, the first sign too many is that
  of the leftmost node with too many ancestors;
* `BoolLut.Formula.parse_symbols` — **a written formula is read back up to exactly the limit**.
-/

import BoolLut.Proofs.Reading
import BoolLut.Proofs.WrittenTokens

set_option relaxedAutoImplicit false
set_option autoImplicit false

namespace BoolLut

open Opener Place

/-! ### Nodes -/

/-- `Stands f g ancestors offset` says that `g` is a node of `f` with so many nodes above it, and
that `offset` bytes stand before it when `f` is written with symbols. -/
inductive Stands : Formula → Formula → Nat → Nat → Prop
  | root (f : Formula) : Stands f f 0 0
  | operand {f g : Formula} {ancestors offset : Nat} :
      Stands f g ancestors offset → Stands (.not f) g (ancestors + 1) (offset + 1)
  | lhs {op : Connective} {f f' g : Formula} {ancestors offset : Nat} :
      Stands f g ancestors offset → Stands (.binary op f f') g (ancestors + 1) (offset + 1)
  | rhs {op : Connective} {f f' g : Formula} {ancestors offset : Nat} :
      Stands f' g ancestors offset →
        Stands (.binary op f f') g (ancestors + 1) (offset + f.bytes + 5)

/-- The formula is a variable. -/
def Formula.IsLeaf (f : Formula) : Prop := ∃ name, f = var name

/-- `g` is the first node of `f` that has so many ancestors and is no leaf. -/
structure Formula.Leftmost (f : Formula) (ancestors : Nat) (g : Formula) (offset : Nat) : Prop where
  stands : Stands f g ancestors offset
  not_isLeaf : ¬ g.IsLeaf
  le_offset : ∀ g' offset', Stands f g' ancestors offset' → ¬ g'.IsLeaf → offset ≤ offset'

namespace Stands

variable {f g : Formula} {ancestors offset : Nat}

/-- A node is written at its place. -/
theorem symbols_eq (h : Stands f g ancestors offset) :
    ∃ before after, f.symbols = before ++ g.symbols ++ after ∧ before.utf8ByteSize = offset := by
  induction h with
  | root f => exact ⟨"", "", by simp, rfl⟩
  | operand _ ih =>
      obtain ⟨before, after, htext, hbefore⟩ := ih
      refine ⟨Formula.notSymbol ++ before, after, ?_, ?_⟩
      · rw [Formula.symbols_not, htext]
        simp only [String.append_assoc]
      · rw [String.utf8ByteSize_append, hbefore, Nat.add_comm]
        rfl
  | @lhs op f f' _ _ _ _ ih =>
      obtain ⟨before, after, htext, hbefore⟩ := ih
      refine ⟨"(" ++ before, after ++ " " ++ op.symbol ++ " " ++ f'.symbols ++ ")", ?_, ?_⟩
      · rw [Formula.symbols_binary, htext]
        simp only [String.append_assoc]
      · rw [String.utf8ByteSize_append, hbefore, Nat.add_comm]
        rfl
  | @rhs op f f' _ _ _ _ ih =>
      obtain ⟨before, after, htext, hbefore⟩ := ih
      refine ⟨"(" ++ f.symbols ++ " " ++ op.symbol ++ " " ++ before, after ++ ")", ?_, ?_⟩
      · rw [Formula.symbols_binary, htext]
        simp only [String.append_assoc]
      · have hblank : " ".utf8ByteSize = 1 := rfl
        have hleft : "(".utf8ByteSize = 1 := rfl
        simp only [String.utf8ByteSize_append, op.utf8ByteSize_symbol, hblank, hleft, hbefore,
          Formula.bytes]
        omega

/-- A node stands above as many levels as it is deep. -/
theorem ancestors_add_depth_le (h : Stands f g ancestors offset) :
    ancestors + g.depth ≤ f.depth := by
  induction h with
  | root f => simp
  | operand _ ih => rw [Formula.depth_not]; omega
  | lhs _ ih => rw [Formula.depth_binary]; omega
  | rhs _ ih => rw [Formula.depth_binary]; omega

/-- A node begins before the end of the text. -/
theorem offset_lt (h : Stands f g ancestors offset) : offset < f.bytes := by
  induction h with
  | root f => exact f.bytes_pos
  | operand _ ih => rw [Formula.bytes_not]; omega
  | lhs _ ih => rw [Formula.bytes_binary]; omega
  | rhs _ ih => rw [Formula.bytes_binary]; omega

theorem ancestors_lt_depth (h : Stands f g ancestors offset) (hg : ¬ g.IsLeaf) :
    ancestors < f.depth := by
  have hdepth := h.ancestors_add_depth_le
  cases g with
  | var name => exact absurd ⟨name, rfl⟩ hg
  | not operand => rw [Formula.depth_not] at hdepth; omega
  | binary op lhs rhs => rw [Formula.depth_binary] at hdepth; omega

end Stands

namespace Formula

namespace Leftmost

variable {f f' g : Formula} {op : Connective} {ancestors offset : Nat}

/-- Without ancestors there is only the root. -/
theorem root (h : ¬ f.IsLeaf) : f.Leftmost 0 f 0 where
  stands := .root f
  not_isLeaf := h
  le_offset _ _ _ _ := Nat.zero_le _

theorem operand (h : f.Leftmost ancestors g offset) :
    (not f).Leftmost (ancestors + 1) g (offset + 1) where
  stands := .operand h.stands
  not_isLeaf := h.not_isLeaf
  le_offset g' offset' hstands hleaf := by
    cases hstands with
    | operand hoperand =>
        have := h.le_offset _ _ hoperand hleaf
        omega

theorem lhs (h : f.Leftmost ancestors g offset) :
    (binary op f f').Leftmost (ancestors + 1) g (offset + 1) where
  stands := .lhs h.stands
  not_isLeaf := h.not_isLeaf
  le_offset g' offset' hstands hleaf := by
    cases hstands with
    | lhs hlhs =>
        have := h.le_offset _ _ hlhs hleaf
        omega
    | rhs _ =>
        have := h.stands.offset_lt
        omega

/-- On the right only if there is none on the left. -/
theorem rhs (hf : f.depth ≤ ancestors) (h : f'.Leftmost ancestors g offset) :
    (binary op f f').Leftmost (ancestors + 1) g (offset + f.bytes + 5) where
  stands := .rhs h.stands
  not_isLeaf := h.not_isLeaf
  le_offset g' offset' hstands hleaf := by
    cases hstands with
    | lhs hlhs =>
        have := hlhs.ancestors_lt_depth hleaf
        omega
    | rhs hrhs =>
        have := h.le_offset _ _ hrhs hleaf
        omega

end Leftmost

end Formula

/-! ### Too many signs -/

section TooDeep

variable {limit : Nat} {q : Place} {lexemes : List Lexeme} {sign : Lexeme}

/-- Among the lexemes that come at the place `q`, `sign` is the first that opens a sign too
many, and nothing before it is at fault. -/
def TooDeepAt (limit : Nat) (q : Place) (lexemes : List Lexeme) (sign : Lexeme) : Prop :=
  ∃ before after, lexemes = before ++ sign :: after ∧ q.Admits limit (before.map Lexeme.token) ∧
    (q.afterAll (before.map Lexeme.token)).refusal limit sign.token = some .tooDeep

theorem TooDeepAt.here (h : q.refusal limit sign.token = some .tooDeep) :
    TooDeepAt limit q (sign :: lexemes) sign :=
  ⟨[], lexemes, rfl, admits_nil, h⟩

theorem TooDeepAt.append (h : TooDeepAt limit q lexemes sign) (more : List Lexeme) :
    TooDeepAt limit q (lexemes ++ more) sign := by
  obtain ⟨before, after, rfl, hbefore, hsign⟩ := h
  exact ⟨before, after ++ more, by simp, hbefore, hsign⟩

theorem TooDeepAt.behind (first : List Lexeme) (hfirst : q.Admits limit (first.map Lexeme.token))
    (h : TooDeepAt limit (q.afterAll (first.map Lexeme.token)) lexemes sign) :
    TooDeepAt limit q (first ++ lexemes) sign := by
  obtain ⟨before, after, rfl, hbefore, hsign⟩ := h
  refine ⟨first ++ before, after, by simp, ?_, ?_⟩
  · rw [List.map_append, admits_append_iff]
    exact ⟨hfirst, hbefore⟩
  · rw [List.map_append, afterAll_append]
    exact hsign

/-- A text is refused at the first sign too many. -/
theorem TooDeepAt.parse_eq {text : String} (hlex : Token.lex text = .ok lexemes)
    (h : TooDeepAt maxDepth start lexemes sign) :
    Formula.parse text = .error ⟨.tooDeep, sign.offset⟩ := by
  obtain ⟨before, after, rfl, hbefore, hsign⟩ := h
  have htokens : (before ++ sign :: after).map Lexeme.token =
      before.map Lexeme.token ++ sign.token :: after.map Lexeme.token := by simp
  have hscan : scan maxDepth start ((before ++ sign :: after).map Lexeme.token) =
      some ⟨.tooDeep, sign.token :: after.map Lexeme.token⟩ := by
    rw [htokens, scan_append hbefore]
    exact scan_of_refuses hsign
  rw [Formula.parse_of_lex hlex, Formula.ofTokens_eq_error_iff.2 hscan]
  simp only [Lexeme.offsetOf_eq htokens]
  simp

end TooDeep

namespace Formula

/-! ### The limit -/

variable {limit : Nat} {signs : List Opener}

/-- The sign of a group is still open behind each of its two sides. -/
theorem afterAll_tokens_group (f : Formula) :
    Place.afterAll ⟨.group :: signs, false⟩ f.tokens = ⟨.group :: signs, true⟩ :=
  f.derives_tokens.afterAll (.group :: signs)

theorem admits_tokens_not_iff {f : Formula} :
    Admits limit ⟨signs, false⟩ (not f).tokens ↔
      signs.length < limit ∧ Admits limit ⟨.negation :: signs, false⟩ f.tokens := by
  constructor
  · rintro ⟨hsign, hf⟩
    exact ⟨lt_of_refusal_eq_none (.inl rfl) hsign, hf⟩
  · rintro ⟨hroom, hf⟩
    exact ⟨(refusal_of_lt hroom).1, hf⟩

theorem admits_tokens_binary_iff {op : Connective} {f g : Formula} :
    Admits limit ⟨signs, false⟩ (binary op f g).tokens ↔
      signs.length < limit ∧ Admits limit ⟨.group :: signs, false⟩ f.tokens ∧
        Admits limit ⟨.group :: signs, false⟩ g.tokens := by
  have hop : Place.after ⟨.group :: signs, true⟩ (.connective op) = ⟨.group :: signs, false⟩ := rfl
  have hinner : Admits limit ⟨.group :: signs, false⟩
      ((f.tokens ++ .connective op :: g.tokens) ++ [.rightParen]) ↔
        Admits limit ⟨.group :: signs, false⟩ f.tokens ∧
          Admits limit ⟨.group :: signs, false⟩ g.tokens := by
    rw [admits_append_iff, admits_append_iff, afterAll_append, afterAll_tokens_group,
      admits_cons_iff, hop, afterAll_cons, hop, afterAll_tokens_group]
    simp [admits_cons_iff, admits_nil, refusal]
  rw [tokens_binary, admits_cons_iff]
  constructor
  · rintro ⟨hsign, h⟩
    exact ⟨lt_of_refusal_eq_none (.inr rfl) hsign, hinner.1 h⟩
  · rintro ⟨hroom, h⟩
    exact ⟨(refusal_of_lt hroom).2, hinner.2 h⟩

/-- The tokens of a formula may come exactly if the signs that are open before it and its own
depth do not go beyond the limit. -/
theorem admits_tokens_iff {f : Formula} (h : signs.length ≤ limit) :
    Admits limit ⟨signs, false⟩ f.tokens ↔ signs.length + f.depth ≤ limit := by
  induction f generalizing signs with
  | var name => exact ⟨fun _ => h, fun _ => ⟨rfl, trivial⟩⟩
  | not operand ih =>
      rw [admits_tokens_not_iff, depth_not]
      constructor
      · rintro ⟨hroom, hoperand⟩
        rw [ih (by exact hroom), List.length_cons] at hoperand
        omega
      · intro hdepth
        have hroom : signs.length < limit := by omega
        rw [ih (by exact hroom), List.length_cons]
        omega
  | binary op lhs rhs ihl ihr =>
      rw [admits_tokens_binary_iff, depth_binary]
      constructor
      · rintro ⟨hroom, hlhs, hrhs⟩
        rw [ihl (by exact hroom), List.length_cons] at hlhs
        rw [ihr (by exact hroom), List.length_cons] at hrhs
        omega
      · intro hdepth
        have hroom : signs.length < limit := by omega
        rw [ihl (by exact hroom), ihr (by exact hroom), List.length_cons]
        omega

/-- Where a formula is too deep, the first sign too many is that of the leftmost node with too many
ancestors that is no leaf. -/
theorem exists_tooDeepAt {f : Formula} {room : Nat} (hroom : signs.length + room = limit)
    (hdepth : room < f.depth) (start : Nat) :
    ∃ g offset sign, f.Leftmost room g offset ∧ sign.offset = start + offset ∧
      TooDeepAt limit ⟨signs, false⟩ (f.lexemes start) sign := by
  induction f generalizing signs room start with
  | var name => simp at hdepth
  | not operand ih =>
      -- without room the sign of the node itself is refused; otherwise one ancestor is added
      cases room with
      | zero =>
          have hfull := (refusal_of_le (Nat.le_of_eq hroom.symm)).1
          exact ⟨_, 0, ⟨.not, start⟩, .root (by simp [IsLeaf]), rfl, .here hfull⟩
      | succ room =>
          have hopen : signs.length < limit := by omega
          rw [depth_not] at hdepth
          obtain ⟨g, offset, sign, hg, hoffset, hsign⟩ :=
            @ih (.negation :: signs) room (by rw [List.length_cons]; omega) (by omega) (start + 1)
          refine ⟨g, offset + 1, sign, hg.operand, by omega, ?_⟩
          exact .behind [⟨.not, start⟩] ⟨(refusal_of_lt hopen).1, admits_nil⟩ hsign
  | binary op lhs rhs ihl ihr =>
      cases room with
      | zero =>
          have hfull := (refusal_of_le (Nat.le_of_eq hroom.symm)).2
          exact ⟨_, 0, ⟨.leftParen, start⟩, .root (by simp [IsLeaf]), rfl, .here hfull⟩
      | succ room =>
          have hopen : signs.length < limit := by omega
          have hinner : (Opener.group :: signs).length + room = limit := by
            rw [List.length_cons]
            omega
          rw [depth_binary] at hdepth
          rcases Nat.lt_or_ge room lhs.depth with hleft | hleft
          · obtain ⟨g, offset, sign, hg, hoffset, hsign⟩ := ihl hinner hleft (start + 1)
            refine ⟨g, offset + 1, sign, hg.lhs, by omega, ?_⟩
            refine .behind [⟨.leftParen, start⟩] ⟨(refusal_of_lt hopen).2, admits_nil⟩ ?_
            exact (hsign.append _).append _
          · -- the left side is within the limit, so all of its tokens may come
            obtain ⟨g, offset, sign, hg, hoffset, hsign⟩ :=
              ihr hinner (by omega) (start + lhs.bytes + 5)
            have hlhs : Admits limit ⟨.group :: signs, false⟩
                ((lhs.lexemes (start + 1)).map Lexeme.token) := by
              rw [map_token_lexemes, admits_tokens_iff (by omega)]
              omega
            refine ⟨g, offset + lhs.bytes + 5, sign, hg.rhs hleft, by omega, ?_⟩
            refine .behind [⟨.leftParen, start⟩] ⟨(refusal_of_lt hopen).2, admits_nil⟩ ?_
            refine TooDeepAt.append (.behind _ hlhs ?_) _
            rw [map_token_lexemes, afterAll_tokens_group]
            exact .behind [⟨.connective op, _⟩] ⟨rfl, admits_nil⟩ hsign

/-! ### Texts -/

/-- **A written formula is read back up to exactly the limit.**  A formula of at most that depth is
read back as it was; any other one is refused at the leftmost node that is no leaf and has as many
ancestors as signs may be open. -/
theorem parse_symbols {f : Formula} (h : f.IsWritable) :
    (parse f.symbols = .ok f ↔ f.depth ≤ maxDepth) ∧
    (maxDepth < f.depth → ∃ e g, parse f.symbols = .error e ∧
      e.diagnostic.message = "expression nested too deeply" ∧
      f.Leftmost maxDepth g e.diagnostic.offset ∧
      ∃ before after, f.symbols = before ++ g.symbols ++ after ∧
        before.utf8ByteSize = e.diagnostic.offset) := by
  have hlex := lex_symbols h
  constructor
  · have hderives : Derives (.chain .disjunction) f.tokens f :=
      .item (f.derives_tokens.item_of_operand .disjunction)
    have hend : (start.afterAll f.tokens).atEnd = none := by
      rw [start, f.derives_tokens.afterAll]
      rfl
    have hadmits : Admits maxDepth start f.tokens ↔ 0 + f.depth ≤ maxDepth :=
      admits_tokens_iff (Nat.zero_le maxDepth)
    rw [parse_eq_ok_iff_ofTokens hlex, map_token_lexemes, ofTokens_eq_ok_iff,
      and_iff_right hderives, ← hderives.scan_eq_none_iff, scan_eq_none_iff, and_iff_left hend,
      hadmits, Nat.zero_add]
  · intro hdepth
    obtain ⟨g, offset, sign, hg, hoffset, hsign⟩ :=
      @exists_tooDeepAt maxDepth [] f maxDepth (Nat.zero_add maxDepth) hdepth 0
    rw [Nat.zero_add] at hoffset
    rw [← hoffset] at hg
    exact ⟨⟨.tooDeep, sign.offset⟩, g, hsign.parse_eq hlex, rfl, hg, hg.stands.symbols_eq⟩

theorem depth_repeat_not (n : Nat) (f : Formula) : (Nat.repeat not n f).depth = n + f.depth := by
  induction n with
  | zero => simp [Nat.repeat]
  | succ n ih =>
      rw [Nat.repeat, depth_not, ih]
      omega

theorem leaves_repeat_not (n : Nat) (f : Formula) : (Nat.repeat not n f).leaves = f.leaves := by
  induction n with
  | zero => rfl
  | succ n ih => exact ih

/-- Before a node under nothing but `!` stands one byte for each ancestor. -/
theorem offset_eq_of_repeat_not {n : Nat} {name : Name} {g : Formula} {ancestors offset : Nat}
    (h : Stands (Nat.repeat not n (var name)) g ancestors offset) : offset = ancestors := by
  induction n generalizing ancestors offset with
  | zero =>
      cases h with
      | root => rfl
  | succ n ih =>
      cases h with
      | root => rfl
      | operand hoperand => rw [ih hoperand]

/-- As many signs `!` as may be open are read back, and one more is refused where it stands. -/
theorem parse_symbols_negations :
    parse (Nat.repeat not 256 (var (.ofChars 'a' []))).symbols =
      .ok (Nat.repeat not 256 (var (.ofChars 'a' []))) ∧
    ∃ e, parse (Nat.repeat not 257 (var (.ofChars 'a' []))).symbols = .error e ∧
      e.diagnostic = ⟨"expression nested too deeply", 256⟩ := by
  have hname : (Name.ofChars 'a' []).IsWritable :=
    ⟨⟨'a', [], by simp, by decide, by simp⟩, by decide⟩
  have hwritable : ∀ n, (Nat.repeat not n (var (.ofChars 'a' []))).IsWritable := by
    intro n m hm
    rw [leaves_repeat_not, leaves_var, List.mem_singleton] at hm
    rwa [hm]
  constructor
  · exact (parse_symbols (hwritable 256)).1.2 (by rw [depth_repeat_not, depth_var]; decide)
  · obtain ⟨e, g, hparse, hmessage, hg, -⟩ :=
      (parse_symbols (hwritable 257)).2 (by rw [depth_repeat_not, depth_var]; decide)
    have hoffset : e.diagnostic.offset = 256 := offset_eq_of_repeat_not hg.stands
    exact ⟨e, hparse, by rw [← hmessage, ← hoffset]⟩

end Formula

end BoolLut
