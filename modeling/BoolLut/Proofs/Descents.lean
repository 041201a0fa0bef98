/-
**Ways down the trees that are read.**

The limit on open signs is a limit on text, and what it says about trees depends on which way one
goes down.  Each `!` that a way passes is open in the text at its end, so there are no more of them
than signs may be open.  A step to the right side of a connective leads to an operand of a tighter
one, and after three of them only a sign leads any further; so the steps to right sides and into
negations are limited as well, and the limit is met by a row of groups, each at the end of three
such steps.  Steps to left sides are not limited at all: names in a row make a tree as deep as one
likes without any sign.

Every function that visits a formula calls itself at both sides of a node, and so needs as many
calls at once as the tree is deep, and one more.  The limit on signs does not limit these.

Main definitions:

* `BoolLut.Formula.negationDepth`, `BoolLut.Formula.sideDepth` — the most negations, and the most
  steps to right sides and into negations, on one way down;
* `BoolLut.Formula.Within`, `BoolLut.Parser.Bounds` — bounds on both, and parsers that keep them;
* `BoolLut.Formula.nested`, `BoolLut.nestedText` — groups at the ends of three steps each;
* `BoolLut.Walk`, `BoolLut.Walk.runWithin` — functions that visit a formula, and the same with a
  limit on the calls that are open at once.

Main results:

* `BoolLut.Formula.count_le`, `BoolLut.Formula.exists_leaf` — the two measures are what they say;
* `BoolLut.Parser.bounds_operand` — what is read with some room keeps the bounds of the room;
* `BoolLut.Formula.parse_nested` — groups within groups are read, up to the limit;
* `BoolLut.Walk.runWithin_of_lt`, `BoolLut.Walk.runWithin_of_le` — a visit needs one call more than
  the formula is deep;
* `BoolLut.Formula.descents_of_parse` — **what the limit on signs says about ways down a tree**, and
  what it does not.
-/

import BoolLut.Proofs.Chains
import BoolLut.Proofs.Leaves
import BoolLut.Formula.Value

set_option relaxedAutoImplicit false
set_option autoImplicit false

namespace BoolLut

open Opener Place

/-! ### Ways down -/

namespace Formula

/-- The most negations that one way down passes. -/
def negationDepth : Formula → Nat
  | var _ => 0
  | not f => 1 + f.negationDepth
  | binary _ f g => max f.negationDepth g.negationDepth

@[simp] theorem negationDepth_var (name : Name) : (var name).negationDepth = 0 := rfl

@[simp] theorem negationDepth_not (f : Formula) :
    (not f).negationDepth = 1 + f.negationDepth := rfl

@[simp] theorem negationDepth_binary (op : Connective) (f g : Formula) :
    (binary op f g).negationDepth = max f.negationDepth g.negationDepth := rfl

/-- The most steps to right sides and into negations on one way down. -/
def sideDepth : Formula → Nat
  | var _ => 0
  | not f => 1 + f.sideDepth
  | binary _ f g => max f.sideDepth (1 + g.sideDepth)

@[simp] theorem sideDepth_var (name : Name) : (var name).sideDepth = 0 := rfl

@[simp] theorem sideDepth_not (f : Formula) : (not f).sideDepth = 1 + f.sideDepth := rfl

@[simp] theorem sideDepth_binary (op : Connective) (f g : Formula) :
    (binary op f g).sideDepth = max f.sideDepth (1 + g.sideDepth) := rfl

/-- The steps of a way down to right sides and into negations. -/
def sideSteps (turns : List Turn) : Nat := turns.count .operand + turns.count .rhs

@[simp] theorem sideSteps_nil : sideSteps [] = 0 := rfl

@[simp] theorem sideSteps_operand (turns : List Turn) :
    sideSteps (.operand :: turns) = 1 + sideSteps turns := by
  simp only [sideSteps, List.count_cons_self, ne_eq, reduceCtorEq, not_false_eq_true,
    List.count_cons_of_ne]
  omega

@[simp] theorem sideSteps_lhs (turns : List Turn) :
    sideSteps (.lhs :: turns) = sideSteps turns := by
  simp [sideSteps]

@[simp] theorem sideSteps_rhs (turns : List Turn) :
    sideSteps (.rhs :: turns) = 1 + sideSteps turns := by
  simp only [sideSteps, List.count_cons_self, ne_eq, reduceCtorEq, not_false_eq_true,
    List.count_cons_of_ne]
  omega

/-- No way down passes more negations, or takes more such steps, than the two measures say. -/
theorem count_le {f g : Formula} {turns : List Turn} (h : f.subformula? turns = some g) :
    turns.count .operand ≤ f.negationDepth ∧ sideSteps turns ≤ f.sideDepth := by
  induction f generalizing turns with
  | var name =>
      cases turns with
      | nil => simp
      | cons turn turns => simp [subformula?] at h
  | not f ih =>
      rcases turns with _ | ⟨_ | _ | _, turns⟩ <;> simp only [subformula?, reduceCtorEq] at h
      · simp
      · obtain ⟨hnegations, hsides⟩ := ih h
        simp only [List.count_cons_self, sideSteps_operand, negationDepth_not, sideDepth_not]
        omega
  | binary op f₁ f₂ ih₁ ih₂ =>
      rcases turns with _ | ⟨_ | _ | _, turns⟩ <;> simp only [subformula?, reduceCtorEq] at h
      · simp
      · obtain ⟨hnegations, hsides⟩ := ih₁ h
        simp only [ne_eq, reduceCtorEq, not_false_eq_true, List.count_cons_of_ne, sideSteps_lhs,
          negationDepth_binary, sideDepth_binary]
        omega
      · obtain ⟨hnegations, hsides⟩ := ih₂ h
        simp only [ne_eq, reduceCtorEq, not_false_eq_true, List.count_cons_of_ne, sideSteps_rhs,
          negationDepth_binary, sideDepth_binary]
        omega

/-- Some way down to a leaf takes as many such steps. -/
theorem exists_leaf (f : Formula) :
    ∃ turns name, f.subformula? turns = some (var name) ∧ sideSteps turns = f.sideDepth := by
  induction f with
  | var name => exact ⟨[], name, rfl, rfl⟩
  | not f ih =>
      obtain ⟨turns, name, hleaf, hsteps⟩ := ih
      exact ⟨.operand :: turns, name, hleaf, by rw [sideSteps_operand, hsteps, sideDepth_not]⟩
  | binary op f₁ f₂ ih₁ ih₂ =>
      obtain ⟨turns₁, name₁, hleaf₁, hsteps₁⟩ := ih₁
      obtain ⟨turns₂, name₂, hleaf₂, hsteps₂⟩ := ih₂
      rcases Nat.le_total f₁.sideDepth (1 + f₂.sideDepth) with hle | hle
      · exact ⟨.rhs :: turns₂, name₂, hleaf₂, by
          rw [sideSteps_rhs, hsteps₂, sideDepth_binary, Nat.max_eq_right hle]⟩
      · exact ⟨.lhs :: turns₁, name₁, hleaf₁, by
          rw [sideSteps_lhs, hsteps₁, sideDepth_binary, Nat.max_eq_left hle]⟩

/-- Bounds on a formula that is read with some room: one negation, or three steps, for each sign
that may be opened, and `more` steps besides. -/
structure Within (room more : Nat) (f : Formula) : Prop where
  negationDepth_le : f.negationDepth ≤ room
  sideDepth_le : f.sideDepth ≤ more + 3 * room

end Formula

/-! ### What is read with some room -/

namespace Parser

variable {room more : Nat} {parser item : Parser} {ts rest : List Token} {f : Formula}

/-- The formulas that a parser reads keep the bounds. -/
def Bounds (room more : Nat) (parser : Parser) : Prop :=
  ∀ ts f rest, parser.run ts = .ok (f, rest) → f.Within room more

/-- An item may have one step more around it: the step to a right side that leads to it. -/
theorem Bounds.chainTail (h : item.Bounds room more) {level : Level} {lhs : Formula}
    (hlhs : lhs.Within room (more + 1)) (hrun : chainTail level item lhs ts = .ok (f, rest)) :
    f.Within room (more + 1) := by
  fun_induction Parser.chainTail level item lhs ts with
  | case1 => simp at hrun
  | case2 lhs op rest' hop rhs rest'' hitem ih =>
      have hrhs := h _ _ _ hitem
      refine ih ⟨?_, ?_⟩ hrun
      · exact Nat.max_le.2 ⟨hlhs.negationDepth_le, hrhs.negationDepth_le⟩
      · have hsides := hrhs.sideDepth_le
        refine Nat.max_le.2 ⟨hlhs.sideDepth_le, ?_⟩
        omega
  | case3 =>
      rw [Except.ok.injEq, Prod.mk.injEq] at hrun
      exact hrun.1 ▸ hlhs
  | case4 =>
      rw [Except.ok.injEq, Prod.mk.injEq] at hrun
      exact hrun.1 ▸ hlhs

theorem Bounds.chain (h : item.Bounds room more) (level : Level) :
    (Parser.chain level item).Bounds room (more + 1) := by
  intro ts f rest hrun
  simp only [Parser.chain] at hrun
  cases hitem : item.run ts with
  | error stop => simp [hitem] at hrun
  | ok first =>
      rw [hitem] at hrun
      have hfirst := h _ _ _ hitem
      have hsides := hfirst.sideDepth_le
      exact h.chainTail ⟨hfirst.negationDepth_le, by omega⟩ hrun

/-- There are three levels of chains around an operand. -/
theorem Bounds.disjunction (h : parser.Bounds room 0) : parser.disjunction.Bounds room 3 :=
  ((h.chain .comparison).chain .conjunction).chain .disjunction

/-- What is read one sign further in keeps the bounds of one level of room less. -/
def DeeperBounds (room : Nat) : Option Parser → Prop
  | none => True
  | some parser => ∃ less, room = less + 1 ∧ parser.Bounds less 0

theorem bounds_atom {inner : Option Parser} (h : DeeperBounds room inner) :
    (atom inner).Bounds room 0 := by
  intro ts f rest hrun
  simp only [atom] at hrun
  split at hrun
  · simp at hrun
  · rw [Except.ok.injEq, Prod.mk.injEq] at hrun
    rw [← hrun.1]
    exact ⟨Nat.zero_le _, Nat.zero_le _⟩
  · split at hrun
    · simp at hrun
    · next parser =>
        obtain ⟨less, rfl, hparser⟩ := h
        unfold group at hrun
        split at hrun
        · simp at hrun
        · next g rest' hinner =>
            obtain rfl : g = f := by simp at hrun; exact hrun.1
            obtain ⟨hnegations, hsides⟩ := hparser.disjunction _ _ _ hinner
            exact ⟨by omega, by omega⟩
        · simp at hrun
  · simp at hrun

theorem bounds_operandOver {inner : Option Parser} (h : DeeperBounds room inner) :
    (operandOver inner).Bounds room 0 := by
  intro ts f rest hrun
  simp only [operandOver] at hrun
  split at hrun
  · split at hrun
    · simp at hrun
    · next parser =>
        obtain ⟨less, rfl, hparser⟩ := h
        unfold negation at hrun
        split at hrun
        · simp at hrun
        · next g rest' hoperand =>
            obtain rfl : .not g = f := by simp at hrun; exact hrun.1
            obtain ⟨hnegations, hsides⟩ := hparser _ _ _ hoperand
            exact ⟨by rw [Formula.negationDepth_not]; omega,
              by rw [Formula.sideDepth_not]; omega⟩
  · exact bounds_atom h _ _ _ hrun

/-- What is read with some room keeps the bounds of the room. -/
theorem bounds_operand (room : Nat) : (operand room).Bounds room 0 := by
  induction room with
  | zero => exact bounds_operandOver trivial
  | succ room ih => exact bounds_operandOver ⟨room, rfl, ih⟩

end Parser

/-- A text that is a formula keeps the bounds of the limit. -/
theorem Formula.within_of_parse {text : String} {f : Formula} (h : parse text = .ok f) :
    f.Within maxDepth 3 := by
  cases hlex : Token.lex text with
  | error e => simp [parse, hlex] at h
  | ok lexemes =>
      rw [parse_eq_ok_iff_ofTokens hlex] at h
      unfold ofTokens at h
      split at h
      · simp at h
      · next g hrun =>
          rw [Except.ok.injEq] at h
          rw [← h]
          exact (Parser.bounds_operand maxDepth).disjunction _ _ _ hrun
      · simp at h

/-! ### Groups at the ends of right sides -/

variable {x : Name} {op : Connective}

/-- A name, a connective, and what stands on its right side. -/
def besideText (x : Name) (op : Connective) (inner : String) : String :=
  x.text ++ " " ++ op.symbol ++ " " ++ inner

/-- Three steps to right sides, one for each level, with a text at their end. -/
def threeText (x : Name) (inner : String) : String :=
  besideText x .or (besideText x .and (besideText x .iff inner))

/-- Three steps, and at their end a group with three steps in it, and so on. -/
def nestedText (x : Name) : Nat → String
  | 0 => threeText x x.text
  | groups + 1 => threeText x ("(" ++ nestedText x groups ++ ")")

/-- The tokens of three steps. -/
def threeTokens (x : Name) (inner : List Token) : List Token :=
  [.name x] ++ .connective .or ::
    ([.name x] ++ .connective .and :: ([.name x] ++ .connective .iff :: inner))

/-- The tokens of groups at the ends of three steps each. -/
def nestedTokens (x : Name) : Nat → List Token
  | 0 => threeTokens x [.name x]
  | groups + 1 => threeTokens x (.leftParen :: (nestedTokens x groups ++ [.rightParen]))

namespace Formula

/-- The tree of three steps. -/
def three (x : Name) (inner : Formula) : Formula :=
  binary .or (var x) (binary .and (var x) (binary .iff (var x) inner))

/-- The tree of groups at the ends of three steps each. -/
def nested (x : Name) : Nat → Formula
  | 0 => three x (var x)
  | groups + 1 => three x (nested x groups)

/-- Every group has three steps more on one way down. -/
theorem sideDepth_nested (x : Name) (groups : Nat) :
    (nested x groups).sideDepth = 3 * (groups + 1) := by
  have hthree : ∀ inner, (three x inner).sideDepth = 3 + inner.sideDepth := by
    intro inner
    simp only [three, sideDepth_binary, sideDepth_var]
    omega
  induction groups with
  | zero => rw [nested, hthree, sideDepth_var]
  | succ groups ih =>
      rw [nested, hthree, ih]
      omega

end Formula

theorem readAs_besideText (hx : x.IsWritable) {inner : String} {rest : List Char}
    {ts : List Token} (h : Token.ReadAs inner.toList rest ts) :
    Token.ReadAs (besideText x op inner).toList rest ([.name x] ++ .connective op :: ts) := by
  have hchars : (besideText x op inner).toList =
      x.text.toList ++ (' ' :: (op.symbol.toList ++ [' ']) ++ inner.toList) := by
    simp [besideText]
  rw [hchars]
  have hop : Token.Spells op.symbol.toList (.connective op) := .sign (.symbol op)
  refine (Token.readAs_name hx ?_).append ((Token.readAs_spelled hop _).append h)
  exact Token.endsWord_cons (by decide)

theorem readAs_threeText (hx : x.IsWritable) {inner : String} {rest : List Char}
    {ts : List Token} (h : Token.ReadAs inner.toList rest ts) :
    Token.ReadAs (threeText x inner).toList rest (threeTokens x ts) :=
  readAs_besideText hx (readAs_besideText hx (readAs_besideText hx h))

theorem readAs_nestedText (hx : x.IsWritable) {groups : Nat} :
    ∀ {rest : List Char}, Token.EndsWord rest →
      Token.ReadAs (nestedText x groups).toList rest (nestedTokens x groups) := by
  induction groups with
  | zero => exact fun hrest => readAs_threeText hx (Token.readAs_name hx hrest)
  | succ groups ih =>
      intro rest hrest
      refine readAs_threeText hx ?_
      have hchars : ("(" ++ nestedText x groups ++ ")").toList =
          ['('] ++ ((nestedText x groups).toList ++ [')']) := by simp
      rw [hchars]
      refine (Token.readAs_leftParen _).append (.append (ih ?_) (Token.readAs_rightParen rest))
      exact Token.endsWord_cons (by decide)

theorem derives_threeTokens {ts : List Token} {f : Formula} (h : Derives .operand ts f) :
    Derives (.chain .disjunction) (threeTokens x ts) (.three x f) := by
  have hname : Derives .operand [.name x] (.var x) := .atom (.name x)
  have hiff : Connective.iff.level = .comparison := rfl
  have hand : Connective.and.level = .conjunction := rfl
  have hcomparison : Derives (.chain .comparison) _ _ := .join hiff (.item hname) h
  have hconjunction : Derives (.chain .conjunction) _ _ :=
    .join hand (.item (.item hname)) hcomparison
  exact .join rfl (.item (.item (.item hname))) hconjunction

theorem derives_nestedTokens (x : Name) (groups : Nat) :
    Derives (.chain .disjunction) (nestedTokens x groups) (.nested x groups) := by
  induction groups with
  | zero => exact derives_threeTokens (.atom (.name x))
  | succ groups ih => exact derives_threeTokens (.atom (.group ih))

theorem admits_threeTokens_iff {limit : Nat} {signs : List Opener} (hsigns : settle signs = signs)
    {ts : List Token} :
    Admits limit ⟨signs, false⟩ (threeTokens x ts) ↔ Admits limit ⟨signs, false⟩ ts := by
  simp [threeTokens, admits_cons_iff, refusal, Place.after, track, hsigns, Token.endsOperand]

/-- The groups are the only signs, each inside the one before. -/
theorem admits_nestedTokens {limit groups : Nat} {signs : List Opener}
    (hsigns : settle signs = signs) (hroom : signs.length + groups ≤ limit) :
    Admits limit ⟨signs, false⟩ (nestedTokens x groups) := by
  induction groups generalizing signs with
  | zero =>
      rw [nestedTokens, admits_threeTokens_iff hsigns]
      exact ⟨rfl, admits_nil⟩
  | succ groups ih =>
      rw [nestedTokens, admits_threeTokens_iff hsigns]
      have hinner : Admits limit ⟨.group :: signs, false⟩ (nestedTokens x groups) :=
        ih rfl (by rw [List.length_cons]; omega)
      have hplace : afterAll ⟨.group :: signs, false⟩ (nestedTokens x groups) =
          ⟨.group :: signs, true⟩ := (derives_nestedTokens x groups).afterAll _
      exact ⟨(refusal_of_lt (by omega)).2,
        admits_append_iff.2 ⟨hinner, hplace.symm ▸ ⟨rfl, admits_nil⟩⟩⟩

/-- Groups within groups are read, as long as no more of them are open than signs may be. -/
theorem Formula.parse_nested (hx : x.IsWritable) {groups : Nat} (h : groups ≤ maxDepth) :
    parse (nestedText x groups) = .ok (nested x groups) := by
  obtain ⟨lexemes, hlex, htokens⟩ := (readAs_nestedText hx Token.endsWord_nil).exists_lex
  have hderives := derives_nestedTokens x groups
  have hadmits : Admits maxDepth start (nestedTokens x groups) :=
    admits_nestedTokens rfl (by simpa using h)
  have hend : (start.afterAll (nestedTokens x groups)).atEnd = none := by
    rw [show start = ⟨[], false⟩ from rfl, hderives.afterAll]
    rfl
  refine parse_of_derives hlex ?_ ?_
  · rw [htokens]
    exact hderives
  · rw [htokens]
    exact (hderives.scan_eq_none_iff maxDepth).1 (Place.scan_eq_none_iff.2 ⟨hadmits, hend⟩)

/-! ### Visits -/

/-- A function that visits a formula: it calls itself at both sides of a node, one after the other,
and takes along a state that leaves may change. -/
structure Walk (σ α : Type) where
  /-- The result at a leaf, and the state behind it. -/
  leaf : Name → σ → α × σ
  /-- The result at a negation, from that at its operand. -/
  negation : α → α
  /-- The result at a connective, from those at its sides. -/
  joined : Connective → α → α → α

namespace Walk

variable {σ α : Type}

/-- A visit to a formula. -/
def run (w : Walk σ α) : Formula → σ → α × σ
  | .var name, s => w.leaf name s
  | .not f, s =>
      let (x, s) := w.run f s
      (w.negation x, s)
  | .binary op f g, s =>
      let (x, s) := w.run f s
      let (y, s) := w.run g s
      (w.joined op x y, s)

/-- A visit to a formula in which no more than `calls` calls may be open at once. -/
def runWithin (w : Walk σ α) : Nat → Formula → σ → Option (α × σ)
  | 0, _, _ => none
  | _ + 1, .var name, s => some (w.leaf name s)
  | calls + 1, .not f, s => do
      let (x, s) ← w.runWithin calls f s
      return (w.negation x, s)
  | calls + 1, .binary op f g, s => do
      let (x, s) ← w.runWithin calls f s
      let (y, s) ← w.runWithin calls g s
      return (w.joined op x y, s)

/-- One call more than the formula is deep is enough. -/
theorem runWithin_of_lt (w : Walk σ α) {calls : Nat} {f : Formula} (h : f.depth < calls) (s : σ) :
    w.runWithin calls f s = some (w.run f s) := by
  induction calls generalizing f s with
  | zero => omega
  | succ calls ih =>
      cases f with
      | var name => rfl
      | not f =>
          rw [Formula.depth_not] at h
          have hf : f.depth < calls := by omega
          simp only [runWithin, ih hf]
          rfl
      | binary op f g =>
          rw [Formula.depth_binary] at h
          have hf : f.depth < calls := by omega
          have hg : g.depth < calls := by omega
          simp only [runWithin, ih hf, ih hg]
          rfl

/-- So many calls as the formula is deep are not. -/
theorem runWithin_of_le (w : Walk σ α) {calls : Nat} {f : Formula} (h : calls ≤ f.depth) (s : σ) :
    w.runWithin calls f s = none := by
  induction calls generalizing f s with
  | zero => cases f <;> rfl
  | succ calls ih =>
      cases f with
      | var name => simp at h
      | not f =>
          rw [Formula.depth_not] at h
          have hf : calls ≤ f.depth := by omega
          simp only [runWithin, ih hf]
          rfl
      | binary op f g =>
          rw [Formula.depth_binary] at h
          -- it is the deeper side that lacks a call, and the other one may go well
          rcases Nat.lt_or_ge f.depth calls with hf | hf
          · have hg : calls ≤ g.depth := by omega
            simp only [runWithin, w.runWithin_of_lt hf, ih hg]
            rfl
          · simp only [runWithin, ih hf]
            rfl

/-- The visit that measures how deep a formula is. -/
def depth : Walk Unit Nat := ⟨fun _ s => (0, s), (1 + ·), fun _ x y => 1 + max x y⟩

/-- The visit that counts the nodes. -/
def size : Walk Unit Nat := ⟨fun _ s => (1, s), (1 + ·), fun _ x y => 1 + x + y⟩

/-- The visit that writes a formula with placeholders. -/
def placeholders : Walk Unit String :=
  ⟨fun name s => (name.text, s), ("op " ++ ·), fun _ x y => "(" ++ x ++ " op " ++ y ++ ")"⟩

/-- The visit that writes a formula with symbols. -/
def symbols : Walk Unit String :=
  ⟨fun name s => (name.text, s), (Formula.notSymbol ++ ·),
    fun op x y => "(" ++ x ++ " " ++ op.symbol ++ " " ++ y ++ ")"⟩

/-- The visit that finds the value of a formula. -/
def value (value : String → Bool) : Walk Unit Bool :=
  ⟨fun name s => (value name.text, s), (!·), Connective.apply⟩

/-- The visit that files the leaves in a table. -/
def fileLeaves : Walk (NameTable × Nat) Unit :=
  ⟨fun name s => ((), s.1.insert ⟨name, s.2⟩, s.2 + 1), id, fun _ _ _ => ()⟩

theorem run_depth (f : Formula) : (depth.run f ()).1 = f.depth := by
  induction f with
  | var name => rfl
  | not f ih => exact congrArg (1 + ·) ih
  | binary op f g ihf ihg => rw [Formula.depth_binary, ← ihf, ← ihg]; rfl

theorem run_size (f : Formula) : (size.run f ()).1 = f.size := by
  induction f with
  | var name => rfl
  | not f ih => exact congrArg (1 + ·) ih
  | binary op f g ihf ihg => rw [Formula.size_binary, ← ihf, ← ihg]; rfl

theorem run_placeholders (f : Formula) : (placeholders.run f ()).1 = f.placeholders := by
  induction f with
  | var name => rfl
  | not f ih => exact congrArg ("op " ++ ·) ih
  | binary op f g ihf ihg => rw [Formula.placeholders_binary, ← ihf, ← ihg]; rfl

theorem run_symbols (f : Formula) : (symbols.run f ()).1 = f.symbols := by
  induction f with
  | var name => rfl
  | not f ih => exact congrArg (Formula.notSymbol ++ ·) ih
  | binary op f g ihf ihg => rw [Formula.symbols_binary, ← ihf, ← ihg]; rfl

theorem run_value (v : String → Bool) (f : Formula) : ((value v).run f ()).1 = f.eval v := by
  induction f with
  | var name => rfl
  | not f ih => exact congrArg (!·) ih
  | binary op f g ihf ihg => rw [Formula.eval_binary, ← ihf, ← ihg]; rfl

theorem run_fileLeaves (f : Formula) (s : NameTable × Nat) :
    (fileLeaves.run f s).2 = f.fileLeaves s := by
  induction f generalizing s with
  | var name => rfl
  | not f ih => exact ih s
  | binary op f g ihf ihg => rw [Formula.fileLeaves, ← ihf, ← ihg]; rfl

end Walk

/-! ### Names in a row -/

namespace Formula

/-- The way to the left sides of a row ends at its first name. -/
theorem subformula?_chain (op : Connective) (f : Formula) (names : List Name) :
    (f.chain op names).subformula? (List.replicate names.length .lhs) = some f := by
  induction names using List.reverseRecOn with
  | nil => cases f <;> rfl
  | append_singleton names n ih =>
      rw [chain, List.foldl_append, List.length_append, List.length_singleton,
        List.replicate_succ]
      exact ih

end Formula

/-- One name, as often as one likes, in a text without any sign that is opened. -/
theorem exists_row (depth : Nat) :
    ∃ text lexemes, (∀ c ∈ text.toList, c ≠ '!' ∧ c ≠ '(') ∧ Token.lex text = .ok lexemes ∧
      (∀ l ∈ lexemes, l.token ≠ .not ∧ l.token ≠ .leftParen) ∧
      Formula.parse text = .ok
        ((Formula.var (.ofChars 'a' [])).chain .and (List.replicate depth (.ofChars 'a' []))) := by
  have ha : (Name.ofChars 'a' []).IsWritable := Name.isWritable_letter (by decide)
  have hnames : ∀ m ∈ List.replicate depth (Name.ofChars 'a' []), m.IsWritable := by
    intro m hm
    rw [List.eq_of_mem_replicate hm]
    exact ha
  have hsign : Token.Spells "&&".toList (.connective .and) := .sign (.symbol .and)
  obtain ⟨lexemes, hlex, htokens⟩ := lex_chainText hsign ha hnames
  refine ⟨_, lexemes, ?_, hlex, ?_, Formula.parse_chain hsign ha hnames⟩
  · intro c hc
    rcases mem_toList_chainText hc with rfl | hc | ⟨m, hm, hc⟩
    · decide
    · obtain rfl : c = '&' := by simpa using hc
      decide
    · rw [← List.replicate_succ] at hm
      rw [List.eq_of_mem_replicate hm] at hc
      obtain rfl : c = 'a' := by simpa using hc
      decide
  · intro l hl
    exact ne_of_mem_chainTokens (htokens ▸ List.mem_map_of_mem hl)

/-- **What the limit on signs says about ways down a tree.**  On the way from the root of a formula
that was read to any leaf there are no more negations than signs may be open, and no more steps to
right sides and into negations than three for each of these signs and three besides; some formula
that is read has as many.  Steps to left sides are not limited: for any number there is a text
without `!` and `(` that is read as a tree of this depth, down its left sides.  The functions that
visit a formula at both sides of each node need more calls at once than the tree is deep, so that
no number of calls is enough for all texts that are read. -/
theorem Formula.descents_of_parse :
    (∀ text f, parse text = .ok f → ∀ turns name, f.subformula? turns = some (.var name) →
      turns.count .operand ≤ maxDepth ∧
      turns.count .operand + turns.count .rhs ≤ 3 * (maxDepth + 1)) ∧
    (∃ text f turns name, parse text = .ok f ∧ f.subformula? turns = some (.var name) ∧
      turns.count .operand + turns.count .rhs = 3 * (maxDepth + 1)) ∧
    (∀ n, ∃ text lexemes f, (∀ c ∈ text.toList, c ≠ '!' ∧ c ≠ '(') ∧
      Token.lex text = .ok lexemes ∧ (∀ l ∈ lexemes, l.token ≠ .not ∧ l.token ≠ .leftParen) ∧
      parse text = .ok f ∧ f.depth = n ∧
      (∃ name, f.subformula? (List.replicate n .lhs) = some (.var name)) ∧
      ∀ (σ α : Type) (w : Walk σ α) (s : σ),
        w.runWithin n f s = none ∧ w.runWithin (n + 1) f s = some (w.run f s)) ∧
    ∀ f : Formula, f.depth = (Walk.depth.run f ()).1 ∧ f.size = (Walk.size.run f ()).1 ∧
      f.placeholders = (Walk.placeholders.run f ()).1 ∧
      f.symbols = (Walk.symbols.run f ()).1 ∧
      f.nameTable = (Walk.fileLeaves.run f (.empty, 0)).2.1 ∧
      ∀ value, f.eval value = ((Walk.value value).run f ()).1 := by
  refine ⟨?_, ?_, ?_, ?_⟩
  · intro text f hparse turns name hleaf
    obtain ⟨hnegations, hsides⟩ := within_of_parse hparse
    obtain ⟨hcount, hsteps⟩ := count_le hleaf
    unfold sideSteps at hsteps
    exact ⟨by omega, by omega⟩
  · have ha : (Name.ofChars 'a' []).IsWritable := Name.isWritable_letter (by decide)
    obtain ⟨turns, name, hleaf, hsteps⟩ := (nested (.ofChars 'a' []) maxDepth).exists_leaf
    rw [sideDepth_nested] at hsteps
    exact ⟨_, _, turns, name, parse_nested ha (Nat.le_refl _), hleaf, hsteps⟩
  · intro n
    obtain ⟨text, lexemes, hchars, hlex, htokens, hparse⟩ := exists_row n
    have hdepth := depth_chain .and (var (.ofChars 'a' [])) (List.replicate n (.ofChars 'a' []))
    rw [depth_var, List.length_replicate, Nat.zero_add] at hdepth
    have hleft := subformula?_chain .and (var (.ofChars 'a' []))
      (List.replicate n (.ofChars 'a' []))
    rw [List.length_replicate] at hleft
    refine ⟨text, lexemes, _, hchars, hlex, htokens, hparse, hdepth, ⟨_, hleft⟩, ?_⟩
    intro σ α w s
    exact ⟨w.runWithin_of_le (Nat.le_of_eq hdepth.symm) s,
      w.runWithin_of_lt (Nat.lt_succ_of_le (Nat.le_of_eq hdepth)) s⟩
  · intro f
    refine ⟨(Walk.run_depth f).symm, (Walk.run_size f).symm, (Walk.run_placeholders f).symm,
      (Walk.run_symbols f).symm, ?_, fun value => (Walk.run_value value f).symm⟩
    rw [nameTable_eq_fileLeaves, Walk.run_fileLeaves]

/-- In `!a == !(b || !c)` the way to `c` takes two steps to right sides and passes two negations. -/
theorem Formula.descents_of_parse_two_negations :
    let c := Name.ofChars 'c' []
    let f := binary .iff (not (var (.ofChars 'a' [])))
      (not (binary .or (var (.ofChars 'b' [])) (not (var c))))
    let turns : List Turn := [.rhs, .operand, .rhs, .operand]
    parse "!a == !(b || !c)" = .ok f ∧ f.subformula? turns = some (.var c) ∧
      turns.count .operand = 2 ∧ turns.count .operand ≤ maxDepth ∧
      turns.count .operand + turns.count .rhs ≤ 3 * (maxDepth + 1) := by
  intro c f turns
  have hlex : Token.lex "!a == !(b || !c)" =
      .ok [⟨.not, 0⟩, ⟨.name (.ofChars 'a' []), 1⟩, ⟨.connective .iff, 3⟩, ⟨.not, 6⟩,
        ⟨.leftParen, 7⟩, ⟨.name (.ofChars 'b' []), 8⟩, ⟨.connective .or, 10⟩, ⟨.not, 13⟩,
        ⟨.name c, 14⟩, ⟨.rightParen, 15⟩] := by decide +kernel
  have hname : ∀ n, Derives .operand [.name n] (.var n) := fun n => .atom (.name n)
  have hor : Connective.or.level = .disjunction := rfl
  have hiff : Connective.iff.level = .comparison := rfl
  have hb : Derives (.chain .disjunction) _ _ :=
    .item (.item (.item (hname (.ofChars 'b' []))))
  have hgroup := Derives.group (.join hor hb (.item (.item (.not (hname c)))))
  have ha : Derives (.chain .comparison) _ _ := .item (.not (hname (.ofChars 'a' [])))
  have hformula := (Derives.join hiff ha (.not (.atom hgroup))).formula_of_chain
  have hparse : parse "!a == !(b || !c)" = .ok f :=
    parse_of_derives hlex hformula ((hformula.scan_eq_none_iff maxDepth).1 rfl)
  have hleaf : f.subformula? turns = some (.var c) := rfl
  exact ⟨hparse, hleaf, rfl, descents_of_parse.1 _ f hparse turns c hleaf⟩

end BoolLut
