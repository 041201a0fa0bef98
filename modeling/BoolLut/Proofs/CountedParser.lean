/-
**Reading with a position and a counter.**

The parsers of `BoolLut/Formula/Parser.lean` hand on the tokens that are left and know how much room
they have.  A reader that moves along one fixed list instead needs a position in it and a counter of
the signs that are open; it raises the counter at each sign and lowers it when the sign is complete.
This module writes such a reader with every step checked, and shows that it reads what the parsers
read: where the counter and the room add up to the limit, it stops in front of the same tokens with
the counter as it was, or refuses the text for the same cause at the same place.

Main definitions:

* `BoolLut.Checked.State` — a position and the number of open signs;
* `BoolLut.Checked.enter`, `BoolLut.Checked.leave` — raising and lowering the counter;
* `BoolLut.Checked.chainTail`, `BoolLut.Checked.atom`, `BoolLut.Checked.operand` — the readers;
* `BoolLut.Checked.parseLexemes` — the formula of a whole list;
* `BoolLut.Checked.At`, `BoolLut.Checked.Follows` — which tokens are left, and that a reader does
  what a parser does.

Main results:

* `BoolLut.Checked.follows_operand` — the reader of operands does what the parser of operands does;
* `BoolLut.Checked.parseLexemes_eq` — **no condition fails** while a formula is read, and the result
  is the one of the parsers.
-/

import BoolLut.Formula.Parser
import BoolLut.Proofs.Checks

set_option relaxedAutoImplicit false
set_option autoImplicit false

namespace BoolLut

namespace Checked

/-- Where a reader is: a position in the list of lexemes, and the number of open signs. -/
structure State where
  /-- The number of lexemes that were taken. -/
  pos : Nat
  /-- The number of signs that are open. -/
  depth : Nat

/-- Something that reads a formula from a state on. -/
abbrev Walk := State → Step (Formula × State)

variable (lexemes : List Lexeme) (stop : Nat)

/-! ### One token -/

/-- The next token. -/
def peek (s : State) : Option Token := lexemes[s.pos]?.map Lexeme.token

/-- The place of the next token, or of the end. -/
def offset (s : State) : Nat := (lexemes[s.pos]?.map Lexeme.offset).getD stop

/-- Takes the next token, if there is one. -/
def bump (s : State) : State := if s.pos < lexemes.length then { s with pos := s.pos + 1 } else s

/-- Counts a sign that is opened at a place, unless too many are open. -/
def enter (place : Nat) (s : State) : Step State :=
  if maxDepth ≤ s.depth then throw ⟨.tooDeep, place⟩
  else do
    demand (s.depth + 1 ≤ maxDepth) .depthAboveLimit
    return { s with depth := s.depth + 1 }

/-- Counts a sign as complete. -/
def leave (s : State) : Step State := do
  demand (0 < s.depth) .depthBelowZero
  return { s with depth := s.depth - 1 }

/-- The name with a given text. -/
def newName (text : String) : Step Name :=
  match Name.ofText text with
  | .ok n => return n
  | .error _ => giveUp .emptyName

/-! ### Chains -/

/-- The rest of a chain of which `lhs` has been read. -/
def chainTail (level : Level) (item : Walk) (lhs : Formula) (s : State) : Step (Formula × State) :=
  match peek lexemes s with
  | some (.connective op) =>
      if op.level = level then do
        let (rhs, s') ← item (bump lexemes s)
        if _ : lexemes.length - s'.pos < lexemes.length - s.pos then
          chainTail level item (.binary op lhs rhs) s'
        else giveUp .noProgress
      else return (lhs, s)
  | _ => return (lhs, s)
termination_by lexemes.length - s.pos

/-- Items joined by the connectives of one level. -/
def chain (level : Level) (item : Walk) : Walk := fun s => do
  let (lhs, s) ← item s
  chainTail lexemes level item lhs s

/-- Operands joined by connectives of all levels. -/
def disjunction (operand : Walk) : Walk :=
  chain lexemes .disjunction (chain lexemes .conjunction (chain lexemes .comparison operand))

/-! ### Operands -/

/-- The rest of a group that was opened at a place. -/
def group (inner : Walk) (place : Nat) (s : State) : Step (Formula × State) := do
  let s ← enter place s
  let (f, s) ← inner s
  match peek lexemes s with
  | some .rightParen => do
      let s ← leave (bump lexemes s)
      return (f, s)
  | _ => throw ⟨.unclosedGroup, offset lexemes stop s⟩

/-- A name or a group. -/
def atom (deeper : Walk) (s : State) : Step (Formula × State) :=
  match peek lexemes s with
  | none => throw ⟨.unexpectedEnd, offset lexemes stop s⟩
  | some (.name n) => do
      let n ← newName n.text
      return (.var n, bump lexemes s)
  | some .leftParen =>
      group lexemes stop (disjunction lexemes deeper) (offset lexemes stop s) (bump lexemes s)
  | some t => throw ⟨.unexpected t, offset lexemes stop s⟩

/-- A negation, whose sign comes next. -/
def negation (deeper : Walk) (s : State) : Step (Formula × State) := do
  let s ← enter (offset lexemes stop s) s
  let (f, s) ← deeper (bump lexemes s)
  let s ← leave s
  return (.not f, s)

/-- An atom or a negation. -/
def operandOver (deeper : Walk) (s : State) : Step (Formula × State) :=
  match peek lexemes s with
  | some .not => negation lexemes stop deeper s
  | _ => atom lexemes stop deeper s

/-- An operand, with signs one inside the other up to a given number. -/
def operand : Nat → Walk
  | 0 => fun _ => giveUp .nestingAboveLimit
  | fuel + 1 => operandOver lexemes stop (operand fuel)

/-- The formula that a whole list of lexemes stands for. -/
def parseLexemes : Step Formula := do
  let (f, s) ← disjunction lexemes (operand lexemes stop (maxDepth + 1)) ⟨0, 0⟩
  match peek lexemes s with
  | none => return f
  | some t => throw ⟨.unexpected t, offset lexemes stop s⟩

/-! ### The tokens that are left -/

/-- In the state `s`, the tokens `ts` are left. -/
structure At (s : State) (ts : List Token) : Prop where
  pos_le : s.pos ≤ lexemes.length
  drop_eq : (lexemes.drop s.pos).map Lexeme.token = ts

variable {lexemes stop} {s : State} {t : Token} {ts : List Token}

theorem at_start : At lexemes ⟨0, 0⟩ (lexemes.map Lexeme.token) := ⟨Nat.zero_le _, rfl⟩

theorem At.length_eq (h : At lexemes s ts) : lexemes.length - s.pos = ts.length := by
  rw [← h.drop_eq, List.length_map, List.length_drop]

/-- The next token is the first that is left. -/
theorem At.peek_eq (h : At lexemes s ts) : peek lexemes s = ts.head? := by
  rw [← h.drop_eq, List.head?_map, List.head?_drop, peek]

theorem At.bump_cons (h : At lexemes s (t :: ts)) : At lexemes (bump lexemes s) ts := by
  have hlength := h.length_eq
  rw [List.length_cons] at hlength
  have hpos : s.pos < lexemes.length := by omega
  rw [bump, if_pos hpos]
  refine ⟨hpos, ?_⟩
  have htail := congrArg List.tail h.drop_eq
  rwa [← List.map_tail, List.tail_drop] at htail

/-- The counter has no part in which tokens are left. -/
theorem At.count (h : At lexemes s ts) (depth : Nat) : At lexemes { s with depth } ts :=
  ⟨h.pos_le, h.drop_eq⟩

@[simp] theorem depth_bump (s : State) : (bump lexemes s).depth = s.depth := by
  unfold bump
  split <;> rfl

/-- The place of the next token depends on the tokens that are left alone. -/
theorem At.offset_eq (h : At lexemes s ts) :
    offset lexemes stop s = Lexeme.offsetOf lexemes stop ts := by
  have hpos := h.pos_le
  have hlength := h.length_eq
  have hdrop : lexemes.length - ts.length = s.pos := by omega
  rw [Lexeme.offsetOf, hdrop, offset, ← List.head?_drop]
  cases lexemes.drop s.pos with
  | nil => rfl
  | cons lexeme rest => rfl

/-! ### Readers that do what parsers do -/

variable (lexemes stop)

/-- A reader's result is the one of a parser: it refuses the text for the same cause and at the same
place, or it returns the same formula in front of the same tokens, with `depth` signs open. -/
def Matches (depth : Nat) : Parsed → Step (Formula × State) → Prop
  | .error e, r => r = throw ⟨e.fault, Lexeme.offsetOf lexemes stop e.rest⟩
  | .ok (f, rest), r => ∃ s, r = pure (f, s) ∧ At lexemes s rest ∧ s.depth = depth

/-- Where `depth` signs are open, the reader does what the parser does. -/
def Follows (depth : Nat) (walk : Walk) (parser : Parser) : Prop :=
  ∀ s ts, At lexemes s ts → s.depth = depth →
    Matches lexemes stop depth (parser.run ts) (walk s)

variable {lexemes stop} {depth : Nat} {item deeper : Walk} {parser : Parser}

theorem matches_throw {e : Stop} {place : Nat} (h : place = Lexeme.offsetOf lexemes stop e.rest) :
    Matches lexemes stop depth (.error e) (throw ⟨e.fault, place⟩) := by
  rw [h]
  rfl

theorem matches_pure {f : Formula} (h : At lexemes s ts) (hdepth : s.depth = depth) :
    Matches lexemes stop depth (.ok (f, ts)) (pure (f, s)) := ⟨s, rfl, h, hdepth⟩

/-- What can be said of a reader and a parser that have the same result. -/
theorem Matches.refuses_or_reads {p : Parsed} {r : Step (Formula × State)}
    (h : Matches lexemes stop depth p r) :
    (∃ e, p = .error e ∧ r = throw ⟨e.fault, Lexeme.offsetOf lexemes stop e.rest⟩) ∨
      ∃ f rest s, p = .ok (f, rest) ∧ r = pure (f, s) ∧ At lexemes s rest ∧ s.depth = depth := by
  cases p with
  | error e => exact .inl ⟨e, rfl, h⟩
  | ok result =>
      obtain ⟨f, rest⟩ := result
      obtain ⟨s, hr, hat, hdepth⟩ := h
      exact .inr ⟨f, rest, s, rfl, hr, hat, hdepth⟩

/-! ### Chains -/

theorem chainTail_matches {level : Level} (hitem : Follows lexemes stop depth item parser)
    {lhs : Formula} (h : At lexemes s ts) (hdepth : s.depth = depth) :
    Matches lexemes stop depth (Parser.chainTail level parser lhs ts)
      (chainTail lexemes level item lhs s) := by
  fun_induction Parser.chainTail level parser lhs ts generalizing s with
  | case1 lhs op rest hop e hrun =>
      have hmatch := hitem _ _ h.bump_cons ((depth_bump s).trans hdepth)
      rw [hrun] at hmatch
      rw [chainTail, h.peek_eq, List.head?_cons]
      simp only [hop, if_true]
      rw [show item (bump lexemes s) = _ from hmatch, throw_bind]
      exact matches_throw rfl
  | case2 lhs op rest hop rhs rest' hrun ih =>
      have hmatch := hitem _ _ h.bump_cons ((depth_bump s).trans hdepth)
      rw [hrun] at hmatch
      obtain ⟨s', hs', hat, hdepth'⟩ := hmatch
      -- an item takes a token, so the loop never comes round to the same place
      have hprogress := parser.progress hrun
      have hless : lexemes.length - s'.pos < lexemes.length - s.pos := by
        rw [hat.length_eq, h.length_eq, List.length_cons]
        omega
      rw [chainTail, h.peek_eq, List.head?_cons]
      simp only [hop, if_true, hs', pure_bind, hless, dif_pos]
      exact ih hat hdepth'
  | case3 lhs op rest hop =>
      rw [chainTail, h.peek_eq, List.head?_cons]
      simp only [hop, if_false]
      exact matches_pure h hdepth
  | case4 lhs ts hts =>
      rw [chainTail]
      split
      · next op hpeek =>
          rw [h.peek_eq] at hpeek
          obtain ⟨rest, rfl⟩ := List.head?_eq_some_iff.1 hpeek
          exact absurd rfl (hts op rest)
      · exact matches_pure h hdepth

/-- A chain is read as by a parser if its items are. -/
theorem Follows.chain {level : Level} (hitem : Follows lexemes stop depth item parser) :
    Follows lexemes stop depth (chain lexemes level item) (Parser.chain level parser) := by
  intro s ts h hdepth
  simp only [Parser.chain, Checked.chain]
  rcases (hitem s ts h hdepth).refuses_or_reads with
    ⟨e, hrun, hwalk⟩ | ⟨lhs, rest, s', hrun, hwalk, hat, hdepth'⟩
  · rw [hrun, hwalk, throw_bind]
    exact matches_throw rfl
  · rw [hrun, hwalk, pure_bind]
    exact chainTail_matches hitem hat hdepth'

/-- A formula is read as by a parser if its operands are. -/
theorem Follows.disjunction (hitem : Follows lexemes stop depth item parser) :
    Follows lexemes stop depth (disjunction lexemes item) parser.disjunction :=
  hitem.chain.chain.chain

/-! ### Operands -/

theorem enter_of_lt (h : s.depth < maxDepth) (place : Nat) :
    enter place s = pure { s with depth := s.depth + 1 } := by
  have hlimit : s.depth + 1 ≤ maxDepth := h
  rw [enter, if_neg (Nat.not_le.2 h), demand_eq_pure hlimit, pure_bind]

theorem enter_of_le (h : maxDepth ≤ s.depth) (place : Nat) :
    enter place s = throw ⟨.tooDeep, place⟩ := if_pos h

theorem leave_of_pos (h : 0 < s.depth) : leave s = pure { s with depth := s.depth - 1 } := by
  rw [leave, demand_eq_pure h, pure_bind]

theorem newName_text (n : Name) : newName n.text = pure n := by
  rw [newName, Name.ofText_text]

/-- A group is read behind its opening sign, and the sign is complete behind it. -/
theorem group_matches (hroom : depth < maxDepth)
    (hinner : Follows lexemes stop (depth + 1) item parser) (place : Nat)
    (h : At lexemes s ts) (hdepth : s.depth = depth) :
    Matches lexemes stop depth (Parser.group parser ts) (group lexemes stop item place s) := by
  unfold Parser.group group
  rw [enter_of_lt (hdepth ▸ hroom), pure_bind]
  rcases (hinner _ ts (h.count (s.depth + 1)) (by rw [hdepth])).refuses_or_reads with
    ⟨e, hrun, hwalk⟩ | ⟨f, rest, s', hrun, hwalk, hat, hdepth'⟩
  · rw [hrun, hwalk, throw_bind]
    exact matches_throw rfl
  · rw [hrun, hwalk, pure_bind]
    simp only
    rw [hat.peek_eq]
    cases rest with
    | nil => exact matches_throw hat.offset_eq
    | cons t rest =>
        cases t with
        | rightParen =>
            have hopen : 0 < (bump lexemes s').depth := by
              rw [depth_bump, hdepth']
              exact Nat.succ_pos depth
            simp only [List.head?_cons]
            rw [leave_of_pos hopen, pure_bind]
            exact matches_pure (hat.bump_cons.count _) (by rw [depth_bump, hdepth']; rfl)
        | name n => exact matches_throw hat.offset_eq
        | connective op => exact matches_throw hat.offset_eq
        | not => exact matches_throw hat.offset_eq
        | leftParen => exact matches_throw hat.offset_eq

/-- A negation is read at its sign, and the sign is complete behind it. -/
theorem negation_matches (hroom : depth < maxDepth)
    (hdeeper : Follows lexemes stop (depth + 1) deeper parser)
    (h : At lexemes s (.not :: ts)) (hdepth : s.depth = depth) :
    Matches lexemes stop depth (Parser.negation parser ts) (negation lexemes stop deeper s) := by
  unfold Parser.negation negation
  rw [enter_of_lt (hdepth ▸ hroom), pure_bind]
  have hnext := (h.count (s.depth + 1)).bump_cons
  rcases (hdeeper _ ts hnext (by rw [depth_bump, hdepth])).refuses_or_reads with
    ⟨e, hrun, hwalk⟩ | ⟨f, rest, s', hrun, hwalk, hat, hdepth'⟩
  · rw [hrun, hwalk, throw_bind]
    exact matches_throw rfl
  · have hopen : 0 < s'.depth := by omega
    rw [hrun, hwalk, pure_bind]
    simp only
    rw [leave_of_pos hopen, pure_bind]
    exact matches_pure (hat.count _) (by rw [hdepth']; rfl)

/-- What reads one sign further in follows a parser; there is none where too many are open. -/
def DeeperFollows (lexemes : List Lexeme) (stop depth : Nat) (deeper : Walk) :
    Option Parser → Prop
  | none => maxDepth ≤ depth
  | some parser => depth < maxDepth ∧ Follows lexemes stop (depth + 1) deeper parser

theorem atom_matches {inner : Option Parser}
    (hdeeper : DeeperFollows lexemes stop depth deeper inner) (h : At lexemes s ts)
    (hdepth : s.depth = depth) :
    Matches lexemes stop depth ((Parser.atom inner).run ts) (atom lexemes stop deeper s) := by
  unfold atom
  rw [h.peek_eq]
  cases ts with
  | nil => exact matches_throw h.offset_eq
  | cons t ts =>
      cases t with
      | name n =>
          simp only [List.head?_cons]
          rw [newName_text, pure_bind]
          exact matches_pure h.bump_cons ((depth_bump s).trans hdepth)
      | leftParen =>
          simp only [List.head?_cons]
          cases inner with
          | none =>
              rw [group, enter_of_le (by rw [depth_bump, hdepth]; exact hdeeper), throw_bind]
              exact matches_throw h.offset_eq
          | some parser =>
              exact group_matches hdeeper.1 hdeeper.2.disjunction _ h.bump_cons
                ((depth_bump s).trans hdepth)
      | connective op => exact matches_throw h.offset_eq
      | not => exact matches_throw h.offset_eq
      | rightParen => exact matches_throw h.offset_eq

theorem follows_operandOver {inner : Option Parser}
    (hdeeper : DeeperFollows lexemes stop depth deeper inner) :
    Follows lexemes stop depth (operandOver lexemes stop deeper) (Parser.operandOver inner) := by
  intro s ts h hdepth
  simp only [Parser.operandOver, operandOver]
  split
  · next rest =>
      rw [h.peek_eq, List.head?_cons]
      cases inner with
      | none =>
          simp only
          rw [negation, enter_of_le (hdepth ▸ hdeeper), throw_bind]
          exact matches_throw h.offset_eq
      | some parser => exact negation_matches hdeeper.1 hdeeper.2 h hdepth
  · next hnot =>
      have hatom := atom_matches hdeeper h hdepth
      split
      · next hpeek =>
          rw [h.peek_eq] at hpeek
          obtain ⟨rest, rfl⟩ := List.head?_eq_some_iff.1 hpeek
          exact absurd rfl (hnot rest)
      · exact hatom

/-- Where the counter and the room add up to the limit, an operand is read as by the parser. -/
theorem follows_operand {fuel room : Nat} (hfuel : room < fuel) (hroom : depth + room = maxDepth) :
    Follows lexemes stop depth (operand lexemes stop fuel) (Parser.operand room) := by
  induction fuel generalizing room depth with
  | zero => omega
  | succ fuel ih =>
      cases room with
      | zero => exact follows_operandOver (Nat.le_of_eq hroom.symm)
      | succ room =>
          -- one sign further in, the counter is one higher and there is one level of room less
          exact follows_operandOver ⟨by omega, ih (by omega) (by omega)⟩

/-! ### Whole texts -/

/-- No condition fails while a list of lexemes is read, and the result is the one of the parsers. -/
theorem parseLexemes_eq (lexemes : List Lexeme) (stop : Nat) :
    parseLexemes lexemes stop =
      match Formula.ofTokens (lexemes.map Lexeme.token) with
      | .error e => throw ⟨e.fault, Lexeme.offsetOf lexemes stop e.rest⟩
      | .ok f => pure f := by
  have hfollows : Follows lexemes stop 0 (operand lexemes stop (maxDepth + 1))
      (.operand maxDepth) := follows_operand (Nat.lt_succ_self _) (Nat.zero_add _)
  unfold parseLexemes Formula.ofTokens
  rcases (hfollows.disjunction ⟨0, 0⟩ _ at_start rfl).refuses_or_reads with
    ⟨e, hrun, hwalk⟩ | ⟨f, rest, s, hrun, hwalk, hat, -⟩
  · rw [hrun, hwalk, throw_bind]
  · rw [hrun, hwalk, pure_bind]
    simp only
    rw [hat.peek_eq]
    cases rest with
    | nil => rfl
    | cons t rest =>
        simp only [List.head?_cons]
        rw [hat.offset_eq]

/-- The formula that a text stands for. -/
def parse (text : String) : Step Formula :=
  match Token.lex text with
  | .error e => throw e
  | .ok lexemes => parseLexemes lexemes text.utf8ByteSize

/-- **No condition fails while a text is read**, and the result is the formula of the text, or its
refusal. -/
theorem run_parse (text : String) : (parse text).run = .ok (Formula.parse text) := by
  unfold parse Formula.parse
  cases Token.lex text with
  | error e => rfl
  | ok lexemes =>
      simp only
      rw [parseLexemes_eq]
      cases Formula.ofTokens (lexemes.map Lexeme.token) with
      | error e => rfl
      | ok f => rfl

end Checked

end BoolLut
