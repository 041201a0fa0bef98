/-
**The grammar of formulas.**

The grammar has five phrases, each written in terms of the next:

```
or    :=  and ('||' and)*
and   :=  cmp ('&&' cmp)*
cmp   :=  unary (('==' | '!=') unary)*
unary :=  '!' unary  |  atom
atom  :=  name  |  '(' or ')'
```

The first three are chains at one level each, which differ only in the connectives that join their
items, so here they are one phrase with the level as a parameter.  A chain is folded to the left,
and parentheses leave no node.  The grammar knows of no limit: how many signs are open at once is
a matter of `BoolLut/Proofs/OpenSigns.lean`.

Main definitions:

* `BoolLut.Phrase`, `BoolLut.Level.item` — the phrases, and what the items of a chain are;
* `BoolLut.Derives` — the tokens that make a phrase, with the tree that they stand for;
* `BoolLut.Sentence` — the tokens that make a formula;
* `BoolLut.Token.names` — the names in a list of tokens.

Main results:

* `BoolLut.Derives.leaves_eq` — the leaves of the tree are the names in the tokens, in order;
* `BoolLut.Derives.group_of_rightParen` — a `)` stands behind a formula that a `(` opened;
* `BoolLut.Derives.run_append` — with room to spare, the parser of a phrase reads what the
  grammar derives;
* `BoolLut.Derives.unique` — **no list of tokens has two trees**.
-/

import BoolLut.Formula.Parser

set_option relaxedAutoImplicit false
set_option autoImplicit false

namespace BoolLut

/-! ### Phrases -/

/-- The phrases of the grammar. -/
inductive Phrase where
  | chain (level : Level)
  | operand
  | atom
deriving DecidableEq

/-- What the connectives of a level join. -/
def Level.item : Level → Phrase
  | comparison => .operand
  | conjunction => .chain .comparison
  | disjunction => .chain .conjunction

/-- `Derives phrase tokens f` says that `tokens` make a `phrase`, and that `f` is their tree. -/
inductive Derives : Phrase → List Token → Formula → Prop
  | item {level : Level} {ts : List Token} {f : Formula} :
      Derives level.item ts f → Derives (.chain level) ts f
  | join {level : Level} {op : Connective} {ts us : List Token} {f g : Formula} :
      op.level = level → Derives (.chain level) ts f → Derives level.item us g →
        Derives (.chain level) (ts ++ .connective op :: us) (.binary op f g)
  | atom {ts : List Token} {f : Formula} : Derives .atom ts f → Derives .operand ts f
  | not {ts : List Token} {f : Formula} :
      Derives .operand ts f → Derives .operand (.not :: ts) (.not f)
  | name (n : Name) : Derives .atom [.name n] (.var n)
  | group {ts : List Token} {f : Formula} :
      Derives (.chain .disjunction) ts f →
        Derives .atom (.leftParen :: (ts ++ [.rightParen])) f

/-- The tokens make a formula. -/
def Sentence (ts : List Token) : Prop := ∃ f, Derives (.chain .disjunction) ts f

/-- An operand is an item of every chain by itself. -/
theorem Derives.item_of_operand {ts : List Token} {f : Formula} (h : Derives .operand ts f)
    (level : Level) : Derives level.item ts f := by
  have hcomparison : Derives (.chain .comparison) ts f := .item h
  have hconjunction : Derives (.chain .conjunction) ts f := .item hcomparison
  cases level with
  | comparison => exact h
  | conjunction => exact hcomparison
  | disjunction => exact hconjunction

/-- A chain of any level is a formula. -/
theorem Derives.formula_of_chain {level : Level} {ts : List Token} {f : Formula}
    (h : Derives (.chain level) ts f) : Derives (.chain .disjunction) ts f := by
  have hconjunction : ∀ {us g}, Derives (.chain .conjunction) us g →
      Derives (.chain .disjunction) us g := fun hg => .item hg
  cases level with
  | comparison => exact hconjunction (.item h)
  | conjunction => exact hconjunction h
  | disjunction => exact h

/-! ### Names and groups -/

/-- The names in a list of tokens, in order. -/
def Token.names (ts : List Token) : List Name :=
  ts.filterMap fun
    | .name n => some n
    | _ => none

@[simp] theorem Token.names_nil : names [] = [] := rfl

@[simp] theorem Token.names_append (ts us : List Token) : names (ts ++ us) = names ts ++ names us :=
  List.filterMap_append

@[simp] theorem Token.names_cons_name (n : Name) (ts : List Token) :
    names (.name n :: ts) = n :: names ts := rfl

@[simp] theorem Token.names_cons_connective (op : Connective) (ts : List Token) :
    names (.connective op :: ts) = names ts := rfl

@[simp] theorem Token.names_cons_not (ts : List Token) : names (.not :: ts) = names ts := rfl

@[simp] theorem Token.names_cons_leftParen (ts : List Token) :
    names (.leftParen :: ts) = names ts := rfl

@[simp] theorem Token.names_cons_rightParen (ts : List Token) :
    names (.rightParen :: ts) = names ts := rfl

/-- The leaves of the tree are the names in the tokens. -/
theorem Derives.leaves_eq {p : Phrase} {ts : List Token} {f : Formula} (h : Derives p ts f) :
    f.leaves = Token.names ts := by
  induction h with
  | item _ ih => exact ih
  | join _ _ _ ihf ihg => simp [ihf, ihg]
  | atom _ ih => exact ih
  | not _ ih => simpa using ih
  | name n => rfl
  | group _ ih => simpa using ih

/-- An element of a joined list stands in the first list or in the second. -/
private theorem append_eq_append_cons {xs ys before after : List Token} {t : Token}
    (h : xs ++ ys = before ++ t :: after) :
    (∃ mid, xs = before ++ t :: mid) ∨ ∃ mid, before = xs ++ mid ∧ ys = mid ++ t :: after := by
  rcases List.append_eq_append_iff.1 h with ⟨mid, hbefore, hys⟩ | ⟨mid, hxs, hmid⟩
  · exact .inr ⟨mid, hbefore, hys⟩
  · cases mid with
    | nil => exact .inr ⟨[], by simpa using hxs.symm, hmid.symm⟩
    | cons u mid =>
        rw [List.cons_append, List.cons.injEq] at hmid
        exact .inl ⟨mid, by rw [hxs, hmid.1]⟩

/-- A `)` stands behind a formula that a `(` opened. -/
theorem Derives.group_of_rightParen {p : Phrase} {ts : List Token} {f : Formula}
    (h : Derives p ts f) : ∀ {before after : List Token}, ts = before ++ .rightParen :: after →
      ∃ outer inner, before = outer ++ .leftParen :: inner ∧ Sentence inner := by
  induction h with
  | item _ ih => exact ih
  | @join _ op us _ _ _ _ _ _ ihf ihg =>
      intro before after hts
      rcases append_eq_append_cons hts with ⟨mid, hmid⟩ | ⟨mid, rfl, hmid⟩
      · exact ihf hmid
      · cases mid with
        | nil => simp at hmid
        | cons t mid =>
            rw [List.cons_append, List.cons.injEq] at hmid
            obtain ⟨outer, inner, rfl, hinner⟩ := ihg hmid.2
            exact ⟨us ++ t :: outer, inner, by simp, hinner⟩
  | atom _ ih => exact ih
  | not _ ih =>
      intro before after hts
      cases before with
      | nil => simp at hts
      | cons t before =>
          rw [List.cons_append, List.cons.injEq] at hts
          obtain ⟨outer, inner, rfl, hinner⟩ := ih hts.2
          exact ⟨t :: outer, inner, rfl, hinner⟩
  | name n =>
      intro before after hts
      rcases before with _ | ⟨t, before⟩ <;> simp at hts
  | @group us g hg ih =>
      intro before after hts
      cases before with
      | nil => simp at hts
      | cons t before =>
          rw [List.cons_append, List.cons.injEq] at hts
          obtain ⟨rfl, hts⟩ := hts
          rcases append_eq_append_cons hts with ⟨mid, hmid⟩ | ⟨mid, rfl, hmid⟩
          · obtain ⟨outer, inner, rfl, hinner⟩ := ih hmid
            exact ⟨.leftParen :: outer, inner, rfl, hinner⟩
          · -- the `)` is the one that closes this very group
            cases mid with
            | nil => exact ⟨[], us, by simp, g, hg⟩
            | cons u mid => simp at hmid

/-! ### The parser reads what the grammar derives -/

/-- The connectives that a phrase goes on with. -/
def Phrase.takes : Phrase → Connective → Prop
  | chain .comparison, op => op.level = .comparison
  | chain .conjunction, op => op.level ≠ .disjunction
  | chain .disjunction, _ => True
  | operand, _ => False
  | atom, _ => False

/-- A chain goes on with the connectives of its level, and with those its items go on with. -/
theorem Phrase.takes_chain_iff {level : Level} {op : Connective} :
    (chain level).takes op ↔ op.level = level ∨ level.item.takes op := by
  cases level <;> cases op <;> simp [takes, Level.item, Connective.level]

/-- The items of a chain do not go on with its own connectives. -/
theorem Phrase.not_item_takes (op : Connective) : ¬ op.level.item.takes op := by
  cases op <;> simp [takes, Level.item, Connective.level]

/-- `tokens` begin with nothing that a phrase goes on with. -/
def Phrase.EndsAt (p : Phrase) (tokens : List Token) : Prop :=
  ∀ op rest, tokens = .connective op :: rest → ¬ p.takes op

theorem Phrase.endsAt_nil (p : Phrase) : p.EndsAt [] := by
  intro op rest h
  simp at h

theorem Phrase.EndsAt.item {level : Level} {tokens : List Token}
    (h : (chain level).EndsAt tokens) : level.item.EndsAt tokens :=
  fun op rest hop htakes => h op rest hop (takes_chain_iff.2 (.inr htakes))

namespace Parser

/-- What reads the operand of a `!` and the inside of a group, if `room` signs may be open. -/
def deeper : Nat → Option Parser
  | 0 => none
  | room + 1 => some (operand room)

theorem operand_eq (room : Nat) : operand room = operandOver (deeper room) := by
  cases room <;> rfl

end Parser

/-- The parser of a phrase in which `room` signs may be open at once. -/
def Phrase.parser (room : Nat) : Phrase → Parser
  | chain .comparison => .comparison (.operand room)
  | chain .conjunction => .conjunction (.operand room)
  | chain .disjunction => .disjunction (.operand room)
  | operand => .operand room
  | atom => .atom (Parser.deeper room)

theorem Phrase.parser_chain (room : Nat) (level : Level) :
    (chain level).parser room = .chain level (level.item.parser room) := by
  cases level <;> rfl

/-- What the parser of a phrase makes of the tokens after a tree that it has read. -/
def Phrase.resume (room : Nat) (f : Formula) (rest : List Token) : Phrase → Parsed
  | chain level => Parser.chainTail level (level.item.parser room) f rest
  | _ => .ok (f, rest)

theorem Phrase.resume_of_endsAt {p : Phrase} {rest : List Token} (h : p.EndsAt rest) (room : Nat)
    (f : Formula) : p.resume room f rest = .ok (f, rest) := by
  cases p with
  | chain level =>
      refine Parser.chainTail_stop ?_ _ f
      intro op rest' hrest hlevel
      exact h op rest' hrest (takes_chain_iff.2 (.inl hlevel))
  | operand => rfl
  | atom => rfl

/-- The tokens of a phrase are read up to the place where a chain may go on. -/
theorem Derives.run_append {p : Phrase} {ts : List Token} {f : Formula} (h : Derives p ts f) :
    ∀ room, ts.length ≤ room → ∀ rest,
      (∀ level, p = .chain level → level.item.EndsAt rest) →
        (p.parser room).run (ts ++ rest) = p.resume room f rest := by
  induction h with
  | @item level ts f _ ih =>
      intro room hroom rest hrest
      have hend := hrest level rfl
      -- what ends the items of a chain ends the items of its items as well
      have hitem : (level.item.parser room).run (ts ++ rest) = .ok (f, rest) := by
        rw [ih room hroom rest fun l hl => (hl ▸ hend : (Phrase.chain l).EndsAt rest).item]
        exact Phrase.resume_of_endsAt hend room f
      rw [Phrase.parser_chain]
      simp only [Parser.chain, hitem, Phrase.resume]
  | @join level op ts us f g hop _ _ ihf ihg =>
      intro room hroom rest hrest
      rw [List.length_append, List.length_cons] at hroom
      have hend := hrest level rfl
      -- the left side is read up to the connective, because its items do not go on with it
      have hlhs := ihf room (by omega) (.connective op :: (us ++ rest)) (by
        rintro l hl op' rest' hop'
        cases hl
        cases hop'
        rw [← hop]
        exact Phrase.not_item_takes op)
      have hitem : (level.item.parser room).run (us ++ rest) = .ok (g, rest) := by
        rw [ihg room (by omega) rest fun l hl => (hl ▸ hend : (Phrase.chain l).EndsAt rest).item]
        exact Phrase.resume_of_endsAt hend room g
      rw [List.append_assoc, List.cons_append, hlhs]
      exact Parser.chainTail_ok hop hitem f
  | @atom ts f hatom ih =>
      intro room hroom rest hrest
      have hrun := ih room hroom rest (by simp)
      change (Parser.operand room).run (ts ++ rest) = .ok (f, rest)
      rw [Parser.operand_eq]
      cases hatom with
      | name n => exact hrun
      | group _ => exact hrun
  | @not ts f _ ih =>
      intro room hroom rest hrest
      obtain ⟨room, rfl⟩ : ∃ r, room = r + 1 := ⟨room - 1, by
        rw [List.length_cons] at hroom
        omega⟩
      have hrun := ih room (by simpa using hroom) rest (by simp)
      change Parser.negation (.operand room) (ts ++ rest) = .ok (.not f, rest)
      simp only [Phrase.parser, Phrase.resume] at hrun
      simp only [Parser.negation, hrun]
  | name n =>
      intro room _ rest _
      rfl
  | @group ts f _ ih =>
      intro room hroom rest hrest
      obtain ⟨room, rfl⟩ : ∃ r, room = r + 1 := ⟨room - 1, by
        rw [List.length_cons] at hroom
        omega⟩
      rw [List.length_cons, List.length_append] at hroom
      -- the formula inside is read up to the `)`, where every chain ends
      have hclose : (Phrase.chain .disjunction).EndsAt (.rightParen :: rest) := by
        intro op rest' h
        simp at h
      have hrun := ih room (by omega) (.rightParen :: rest) (by
        intro l hl
        cases hl
        exact hclose.item)
      rw [Phrase.resume_of_endsAt hclose] at hrun
      rw [List.cons_append, List.append_assoc]
      change Parser.group (Parser.operand room).disjunction (ts ++ .rightParen :: rest) = _
      simp only [Phrase.parser] at hrun
      simp only [Parser.group, hrun, Phrase.resume]

/-- **No list of tokens has two trees.** -/
theorem Derives.unique {p : Phrase} {ts : List Token} {f g : Formula} (hf : Derives p ts f)
    (hg : Derives p ts g) : f = g := by
  have hrun : ∀ {f}, Derives p ts f → (p.parser ts.length).run (ts ++ []) = .ok (f, []) := by
    intro f h
    rw [h.run_append _ (Nat.le_refl _) _ fun level _ => level.item.endsAt_nil]
    exact Phrase.resume_of_endsAt p.endsAt_nil _ _
  have heq := (hrun hf).symm.trans (hrun hg)
  rw [Except.ok.injEq, Prod.mk.injEq] at heq
  exact heq.1

end BoolLut
