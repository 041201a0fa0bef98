/-
**From tokens to a formula.**

The connectives bind at three levels: `==` and `!=` tightest, then `&&`, then `||`.  Within a level
they group to the left, and `!` binds tighter than any of them.  A *parser* here is a function that
takes tokens from the front of a list and returns a formula with the tokens that it left; it must
take at least one, which is what lets a chain of operands be read in a loop.

An operand of `!` and a group are read by a parser with one level of *room* less, and at room zero
neither may be opened.  The room is a number that counts down, so no text, however nested, makes
the reading go deeper than `BoolLut.maxDepth` levels.

Main definitions:

* `BoolLut.Level`, `BoolLut.Connective.level` — how tightly a connective binds;
* `BoolLut.Stop` — a fault and the tokens from which on it is seen;
* `BoolLut.Parser` — a function that takes tokens, with the proof that it takes one;
* `BoolLut.Parser.chain` — operands joined by the connectives of one level;
* `BoolLut.Parser.comparison`, `BoolLut.Parser.conjunction`, `BoolLut.Parser.disjunction` — the
  three levels over a given kind of operand;
* `BoolLut.Parser.atom`, `BoolLut.Parser.operand` — a name or a group, and one of these under any
  number of `!`;
* `BoolLut.Formula.ofTokens`, `BoolLut.Formula.parse` — the formula that a list of tokens, or a
  text, stands for.

Main results:

* `BoolLut.Parser.chainTail_ok`, `BoolLut.Parser.chainTail_stop` — how a chain goes on, and where it
  ends;
* `BoolLut.Parser.chainTail_length_le` — a chain never gives back more tokens than it was given.
-/

import BoolLut.Token.Lexer

set_option relaxedAutoImplicit false
set_option autoImplicit false

namespace BoolLut

/-! ### Binding -/

/-- How tightly a connective binds. -/
inductive Level where
  /-- The tightest. -/
  | comparison
  /-- Between the other two. -/
  | conjunction
  /-- The loosest. -/
  | disjunction
deriving DecidableEq, Repr

/-- The level at which a connective binds. -/
def Connective.level : Connective → Level
  | iff => .comparison
  | xor => .comparison
  | and => .conjunction
  | or => .disjunction

/-! ### Parsers -/

/-- Why reading cannot go on. -/
structure Stop where
  /-- The cause. -/
  fault : Fault
  /-- The tokens from the offending one on; none if it is the end of the text. -/
  rest : List Token
deriving DecidableEq

/-- A formula and the tokens after it, or the reason why there is none. -/
abbrev Parsed := Except Stop (Formula × List Token)

/-- A way to read a formula from the front of a list of tokens. -/
structure Parser where
  /-- The formula in front and the tokens after it. -/
  run : List Token → Parsed
  /-- A formula takes at least one token. -/
  progress : ∀ {tokens f rest}, run tokens = .ok (f, rest) → rest.length < tokens.length

namespace Parser

/-! ### Chains -/

/-- The rest of a chain of which `lhs` has been read: as long as a connective of the level comes
next, it joins what was read so far with one more item. -/
def chainTail (level : Level) (item : Parser) (lhs : Formula) (tokens : List Token) : Parsed :=
  match tokens with
  | .connective op :: rest =>
      if op.level = level then
        match _ : item.run rest with
        | .error stop => .error stop
        | .ok (rhs, rest) => chainTail level item (.binary op lhs rhs) rest
      else .ok (lhs, .connective op :: rest)
  | tokens => .ok (lhs, tokens)
termination_by tokens.length
decreasing_by
  have := item.progress ‹_›
  simp only [List.length_cons]
  omega

/-- A connective of the level and an item after it join the chain. -/
theorem chainTail_ok {level : Level} {item : Parser} {op : Connective} {rest rest' : List Token}
    {rhs : Formula} (hlevel : op.level = level) (hitem : item.run rest = .ok (rhs, rest'))
    (lhs : Formula) :
    chainTail level item lhs (.connective op :: rest) =
      chainTail level item (.binary op lhs rhs) rest' := by
  rw [chainTail, if_pos hlevel]
  split
  · next heq => rw [hitem] at heq; simp at heq
  · next heq =>
      rw [hitem, Except.ok.injEq, Prod.mk.injEq] at heq
      rw [heq.1, heq.2]

/-- A chain ends where no connective of its level comes next. -/
theorem chainTail_stop {level : Level} {tokens : List Token}
    (h : ∀ op rest, tokens = .connective op :: rest → op.level ≠ level) (item : Parser)
    (lhs : Formula) : chainTail level item lhs tokens = .ok (lhs, tokens) := by
  rw [chainTail.eq_def]
  split
  · next op rest => rw [if_neg (h op rest rfl)]
  · rfl

/-- A chain never gives back more tokens than it was given. -/
theorem chainTail_length_le {level : Level} {item : Parser} {lhs f : Formula}
    {tokens rest : List Token} (h : chainTail level item lhs tokens = .ok (f, rest)) :
    rest.length ≤ tokens.length := by
  fun_induction chainTail level item lhs tokens with
  | case1 => simp at h
  | case2 lhs op rest' _ rhs rest'' hitem ih =>
      have := item.progress hitem
      have := ih h
      simp only [List.length_cons]
      omega
  | case3 =>
      simp only [Except.ok.injEq, Prod.mk.injEq] at h
      simp [← h.2]
  | case4 =>
      simp only [Except.ok.injEq, Prod.mk.injEq] at h
      simp [← h.2]

/-- Items joined by the connectives of one level, grouped to the left. -/
def chain (level : Level) (item : Parser) : Parser where
  run tokens :=
    match item.run tokens with
    | .error stop => .error stop
    | .ok (lhs, rest) => chainTail level item lhs rest
  progress h := by
    split at h
    · simp at h
    · next hitem =>
        have := item.progress hitem
        have := chainTail_length_le h
        omega

/-- Operands joined by `==` and `!=`. -/
def comparison (operand : Parser) : Parser := chain .comparison operand

/-- Comparisons joined by `&&`. -/
def conjunction (operand : Parser) : Parser := chain .conjunction (comparison operand)

/-- Conjunctions joined by `||`. -/
def disjunction (operand : Parser) : Parser := chain .disjunction (conjunction operand)

/-! ### Operands -/

/-- The rest of a group after its opening sign: a formula and the closing sign. -/
def group (inner : Parser) (tokens : List Token) : Parsed :=
  match inner.run tokens with
  | .error stop => .error stop
  | .ok (f, .rightParen :: rest) => .ok (f, rest)
  | .ok (_, rest) => .error ⟨.unclosedGroup, rest⟩

theorem group_length_lt {inner : Parser} {tokens rest : List Token} {f : Formula}
    (h : group inner tokens = .ok (f, rest)) : rest.length < tokens.length := by
  unfold group at h
  split at h
  · simp at h
  · next hinner =>
      have := inner.progress hinner
      simp only [Except.ok.injEq, Prod.mk.injEq] at h
      simp only [List.length_cons, h.2] at this
      omega
  · simp at h

/-- A name, or a group around a formula whose operands are read by `deeper`.  Without `deeper` no
group may be opened. -/
def atom (deeper : Option Parser) : Parser where
  run
    | [] => .error ⟨.unexpectedEnd, []⟩
    | .name n :: rest => .ok (.var n, rest)
    | .leftParen :: rest =>
        match deeper with
        | none => .error ⟨.tooDeep, .leftParen :: rest⟩
        | some operand => group operand.disjunction rest
    | token :: rest => .error ⟨.unexpected token, token :: rest⟩
  progress h := by
    split at h
    · simp at h
    · simp only [Except.ok.injEq, Prod.mk.injEq] at h
      simp [← h.2]
    · split at h
      · simp at h
      · have := group_length_lt h
        simp only [List.length_cons]
        omega
    · simp at h

/-- The rest of a negation after its sign. -/
def negation (operand : Parser) (tokens : List Token) : Parsed :=
  match operand.run tokens with
  | .error stop => .error stop
  | .ok (f, rest) => .ok (.not f, rest)

theorem negation_length_lt {operand : Parser} {tokens rest : List Token} {f : Formula}
    (h : negation operand tokens = .ok (f, rest)) : rest.length < tokens.length := by
  unfold negation at h
  split at h
  · simp at h
  · next hoperand =>
      have := operand.progress hoperand
      simp only [Except.ok.injEq, Prod.mk.injEq] at h
      rw [← h.2]
      exact this

/-- An atom, or the negation of an operand that is read by `deeper`.  Without `deeper` nothing may
be negated. -/
def operandOver (deeper : Option Parser) : Parser where
  run
    | .not :: rest =>
        match deeper with
        | none => .error ⟨.tooDeep, .not :: rest⟩
        | some operand => negation operand rest
    | tokens => (atom deeper).run tokens
  progress h := by
    split at h
    · split at h
      · simp at h
      · have := negation_length_lt h
        simp only [List.length_cons]
        omega
    · exact (atom deeper).progress h

/-- An operand in which at most `room` signs `!` and groups are open at once. -/
def operand : Nat → Parser
  | 0 => operandOver none
  | room + 1 => operandOver (some (operand room))

@[simp] theorem operand_zero : operand 0 = operandOver none := rfl

@[simp] theorem operand_succ (room : Nat) :
    operand (room + 1) = operandOver (some (operand room)) := rfl

end Parser

/-! ### Formulas -/

/-- How many `!` and groups may be open at once. -/
def maxDepth : Nat := 256

/-- The place of the first of the last `rest.length` lexemes, or `stop` if there is none. -/
def Lexeme.offsetOf (lexemes : List Lexeme) (stop : Nat) (rest : List Token) : Nat :=
  match lexemes.drop (lexemes.length - rest.length) with
  | [] => stop
  | lexeme :: _ => lexeme.offset

namespace Formula

/-- The formula that a whole list of tokens stands for. -/
def ofTokens (tokens : List Token) : Except Stop Formula :=
  match (Parser.operand maxDepth).disjunction.run tokens with
  | .error stop => .error stop
  | .ok (f, []) => .ok f
  | .ok (_, token :: rest) => .error ⟨.unexpected token, token :: rest⟩

/-- The formula that a text stands for. -/
def parse (text : String) : Except ParseError Formula :=
  match Token.lex text with
  | .error e => .error e
  | .ok lexemes =>
      match ofTokens (lexemes.map Lexeme.token) with
      | .error stop => .error ⟨stop.fault, Lexeme.offsetOf lexemes text.utf8ByteSize stop.rest⟩
      | .ok f => .ok f

end Formula

end BoolLut
