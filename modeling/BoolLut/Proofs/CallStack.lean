/-
**The calls that are open while a text is read.**

The readers of formulas call one another: a chain calls for its items, an operand for another one
behind a `!` and for an atom otherwise, and an atom for the formula inside a group.  How many calls
are open at once cannot be seen from what they return.  This module therefore writes the readers as
one machine, which keeps a list of the calls that wait for an answer and does the work of one call
at a time.  Its steps know of no limit but the one on open signs, and nothing in them says that
they end.

The bound on the list is an invariant of the steps: every waiting call waits for the call before
it, and between two calls that hold a sign open there are not more than the five kinds of phrases.
That the machine ends, and with the answer of the parsers, goes by the recursion of the parsers.

Main definitions:

* `BoolLut.CallStack.Frame`, `BoolLut.CallStack.Task`, `BoolLut.CallStack.Machine` — a call that
  waits, what is done next, and both together with the place in the text;
* `BoolLut.CallStack.step` — one step of the machine;
* `BoolLut.CallStack.Machine.active` — the number of open calls;
* `BoolLut.CallStack.Linked`, `BoolLut.CallStack.InOrder` — the invariant;
* `BoolLut.CallStack.Performs` — a call ends with the answer of a parser.

Main results:

* `BoolLut.CallStack.inOrder_step` — a step keeps the invariant;
* `BoolLut.CallStack.performs_operand` — a call for an operand ends as the parser says;
* `BoolLut.CallStack.reaches_groups` — groups one inside the other need the calls of all phrases
  for each of them;
* `BoolLut.CallStack.active_le_of_steps` — **reading ends, and never has more calls open than a
  constant**.
-/

import Mathlib.Logic.Function.Iterate
import BoolLut.Proofs.CountedParser
import BoolLut.Proofs.Grammar

set_option relaxedAutoImplicit false
set_option autoImplicit false

namespace BoolLut

namespace CallStack

open Checked (State At peek offset bump depth_bump)

/-! ### Machines -/

/-- A call that waits for the answer to another one. -/
inductive Frame where
  /-- A chain waits for its first item. -/
  | first (level : Level)
  /-- A chain of which `lhs` was read waits for the item behind `op`. -/
  | next (level : Level) (op : Connective) (lhs : Formula)
  /-- An operand waits for the operand of its `!`. -/
  | negation
  /-- An operand waits for an atom. -/
  | atom
  /-- An atom waits for the formula inside its group. -/
  | group

/-- What is done next. -/
inductive Task where
  /-- A phrase is called for. -/
  | call (p : Phrase)
  /-- A chain of which `lhs` was read looks for one more connective. -/
  | goOn (level : Level) (lhs : Formula)
  /-- A call has ended, with a formula or with a refusal. -/
  | answer (result : Except ParseError Formula)

/-- A reader at work. -/
structure Machine where
  /-- The position in the list of lexemes and the number of open signs. -/
  state : State
  /-- What is done next. -/
  task : Task
  /-- The calls that wait, the last one first. -/
  waiting : List Frame

/-- The number of calls that were made and have not ended: those that wait, and the one at work. -/
def Machine.active (m : Machine) : Nat :=
  match m.task with
  | .call _ => m.waiting.length + 1
  | .goOn _ _ => m.waiting.length + 1
  | .answer _ => m.waiting.length

theorem Machine.active_le (m : Machine) : m.active ≤ m.waiting.length + 1 := by
  unfold active
  split
  · exact Nat.le_refl _
  · exact Nat.le_refl _
  · exact Nat.le_succ _

section steps

variable (lexemes : List Lexeme) (stop : Nat)

/-- The call at work refuses the text. -/
def refuse (fault : Fault) (s : State) (waiting : List Frame) : Machine :=
  ⟨s, .answer (.error ⟨fault, offset lexemes stop s⟩), waiting⟩

/-- The call at work takes a sign that it opens and calls for what follows, unless too many signs
are open. -/
def openSign (frame : Frame) (p : Phrase) (s : State) (waiting : List Frame) : Machine :=
  if maxDepth ≤ s.depth then refuse lexemes stop .tooDeep s waiting
  else ⟨bump lexemes { s with depth := s.depth + 1 }, .call p, frame :: waiting⟩

/-- A call begins. -/
def enter (p : Phrase) (s : State) (waiting : List Frame) : Machine :=
  match p with
  | .chain level => ⟨s, .call level.item, .first level :: waiting⟩
  | .operand =>
      match peek lexemes s with
      | some .not => openSign lexemes stop .negation .operand s waiting
      | _ => ⟨s, .call .atom, .atom :: waiting⟩
  | .atom =>
      match peek lexemes s with
      | none => refuse lexemes stop .unexpectedEnd s waiting
      | some (.name n) => ⟨bump lexemes s, .answer (.ok (.var n)), waiting⟩
      | some .leftParen => openSign lexemes stop .group (.chain .disjunction) s waiting
      | some t => refuse lexemes stop (.unexpected t) s waiting

/-- A chain goes on with a connective of its level, and ends without one. -/
def goOn (level : Level) (lhs : Formula) (s : State) (waiting : List Frame) : Machine :=
  match peek lexemes s with
  | some (.connective op) =>
      if op.level = level then ⟨bump lexemes s, .call level.item, .next level op lhs :: waiting⟩
      else ⟨s, .answer (.ok lhs), waiting⟩
  | _ => ⟨s, .answer (.ok lhs), waiting⟩

/-- A call that waited takes up the formula that it waited for. -/
def resume (f : Formula) (s : State) (frame : Frame) (waiting : List Frame) : Machine :=
  match frame with
  | .first level => ⟨s, .goOn level f, waiting⟩
  | .next level op lhs => ⟨s, .goOn level (.binary op lhs f), waiting⟩
  | .negation => ⟨{ s with depth := s.depth - 1 }, .answer (.ok (.not f)), waiting⟩
  | .atom => ⟨s, .answer (.ok f), waiting⟩
  | .group =>
      match peek lexemes s with
      | some .rightParen =>
          ⟨bump lexemes { s with depth := s.depth - 1 }, .answer (.ok f), waiting⟩
      | _ => refuse lexemes stop .unclosedGroup s waiting

/-- One step.  A refusal ends all calls that wait, one after the other; when none waits any more,
the machine stays as it is. -/
def step (m : Machine) : Machine :=
  match m.task, m.waiting with
  | .call p, waiting => enter lexemes stop p m.state waiting
  | .goOn level lhs, waiting => goOn lexemes level lhs m.state waiting
  | .answer _, [] => m
  | .answer (.error e), _ :: waiting => ⟨m.state, .answer (.error e), waiting⟩
  | .answer (.ok f), frame :: waiting => resume lexemes stop f m.state frame waiting

/-- The machine before a text, with the call for a formula. -/
def start : Machine := ⟨⟨0, 0⟩, .call (.chain .disjunction), []⟩

/-- What is made of the answer to the call for a formula: a formula must have the end behind it. -/
def whole (s : State) (result : Except ParseError Formula) : Except ParseError Formula :=
  match result with
  | .error e => .error e
  | .ok f =>
      match peek lexemes s with
      | none => .ok f
      | some t => .error ⟨.unexpected t, offset lexemes stop s⟩

end steps

/-! ### The calls that wait -/

/-- The phrase that a call was for. -/
def Frame.caller : Frame → Phrase
  | first level => .chain level
  | next level _ _ => .chain level
  | negation => .operand
  | atom => .operand
  | group => .atom

/-- The phrase that a call waits for. -/
def Frame.callee : Frame → Phrase
  | first level => level.item
  | next level _ _ => level.item
  | negation => .operand
  | atom => .atom
  | group => .chain .disjunction

/-- The number of signs that a call holds open. -/
def Frame.opened : Frame → Nat
  | negation => 1
  | group => 1
  | _ => 0

/-- The number of signs that all waiting calls hold open. -/
def opened : List Frame → Nat
  | [] => 0
  | frame :: waiting => frame.opened + opened waiting

@[simp] theorem opened_nil : opened [] = 0 := rfl

@[simp] theorem opened_cons (frame : Frame) (waiting : List Frame) :
    opened (frame :: waiting) = frame.opened + opened waiting := rfl

/-- Every waiting call waits for the one before it, the first of them for a call for `p`; and the
outermost call is for a formula. -/
def Linked : List Frame → Phrase → Prop
  | [], p => p = .chain .disjunction
  | frame :: waiting, p => frame.callee = p ∧ Linked waiting frame.caller

theorem Linked.cons {waiting : List Frame} {frame : Frame} (h : Linked waiting frame.caller) :
    Linked (frame :: waiting) frame.callee := ⟨rfl, h⟩

/-- How many phrases stand around a phrase in a formula without signs, itself included. -/
def layer : Phrase → Nat
  | .chain .disjunction => 1
  | .chain .conjunction => 2
  | .chain .comparison => 3
  | .operand => 4
  | .atom => 5

theorem layer_le (p : Phrase) : layer p ≤ 5 := by
  rcases p with (_ | _ | _) | _ | _ <;> decide

/-- A call is for a phrase of the next layer, or holds a sign open. -/
theorem layer_caller_lt (frame : Frame) :
    layer frame.caller < 5 * frame.opened + layer frame.callee := by
  cases frame with
  | first level => cases level <;> decide
  | next level op lhs =>
      have hlevel : layer (.chain level) < 5 * 0 + layer level.item := by cases level <;> decide
      exact hlevel
  | negation => decide
  | atom => decide
  | group => decide

/-- Calls that wait for each other are few, except for the signs that they hold open. -/
theorem Linked.length_lt {waiting : List Frame} {p : Phrase} (h : Linked waiting p) :
    waiting.length < 5 * opened waiting + layer p := by
  induction waiting generalizing p with
  | nil =>
      rw [show p = .chain .disjunction from h]
      decide
  | cons frame waiting ih =>
      obtain ⟨rfl, hrest⟩ := h
      have hwaiting := ih hrest
      have hframe := layer_caller_lt frame
      rw [List.length_cons, opened_cons]
      omega

/-! ### The invariant -/

/-- The call at work is for a phrase. -/
def Task.WorksOn (p : Phrase) : Task → Prop
  | call q => q = p
  | goOn level _ => .chain level = p
  | answer _ => True

/-- The text is refused. -/
def Task.Refuses : Task → Prop
  | answer (.error _) => True
  | _ => False

/-- The calls are linked, and the counter says how many signs they hold open; when the text is
refused, the counter is of no account any more. -/
structure InOrder (m : Machine) : Prop where
  linked : ∃ p, m.task.WorksOn p ∧ Linked m.waiting p
  opened_le : opened m.waiting ≤ maxDepth
  depth_eq : ¬ m.task.Refuses → m.state.depth = opened m.waiting

section invariant

variable {lexemes : List Lexeme} {stop : Nat} {s : State} {waiting : List Frame}

theorem inOrder_start : InOrder start where
  linked := ⟨_, rfl, rfl⟩
  opened_le := Nat.zero_le _
  depth_eq _ := rfl

theorem inOrder_refuse {p : Phrase} (h : Linked waiting p) (hopened : opened waiting ≤ maxDepth)
    (fault : Fault) : InOrder (refuse lexemes stop fault s waiting) where
  linked := ⟨p, trivial, h⟩
  opened_le := hopened
  depth_eq hrefuses := absurd trivial hrefuses

theorem inOrder_answer {p : Phrase} (h : Linked waiting p) (hopened : opened waiting ≤ maxDepth)
    (hdepth : s.depth = opened waiting) (f : Formula) :
    InOrder ⟨s, .answer (.ok f), waiting⟩ where
  linked := ⟨p, trivial, h⟩
  opened_le := hopened
  depth_eq _ := hdepth

/-- A call that holds no sign open may wait for another one. -/
theorem inOrder_call (frame : Frame) (hframe : frame.opened = 0)
    (h : Linked waiting frame.caller) (hopened : opened waiting ≤ maxDepth)
    (hdepth : s.depth = opened waiting) : InOrder ⟨s, .call frame.callee, frame :: waiting⟩ where
  linked := ⟨_, rfl, h.cons⟩
  opened_le := by rwa [opened_cons, hframe, Nat.zero_add]
  depth_eq _ := by rwa [opened_cons, hframe, Nat.zero_add]

/-- A sign is opened only below the limit. -/
theorem inOrder_openSign (frame : Frame) (hframe : frame.opened = 1)
    (h : Linked waiting frame.caller) (hopened : opened waiting ≤ maxDepth)
    (hdepth : s.depth = opened waiting) :
    InOrder (openSign lexemes stop frame frame.callee s waiting) := by
  unfold openSign
  split
  · exact inOrder_refuse h hopened _
  · next hroom =>
      refine ⟨⟨_, rfl, h.cons⟩, ?_, fun _ => ?_⟩
      · rw [opened_cons, hframe]
        omega
      · rw [depth_bump, opened_cons, hframe]
        change s.depth + 1 = _
        omega

theorem inOrder_enter {p : Phrase} (h : Linked waiting p) (hopened : opened waiting ≤ maxDepth)
    (hdepth : s.depth = opened waiting) : InOrder (enter lexemes stop p s waiting) := by
  cases p with
  | chain level => exact inOrder_call (.first level) rfl h hopened hdepth
  | operand =>
      simp only [enter]
      split
      · exact inOrder_openSign .negation rfl h hopened hdepth
      · exact inOrder_call .atom rfl h hopened hdepth
  | atom =>
      simp only [enter]
      split
      · exact inOrder_refuse h hopened _
      · exact inOrder_answer h hopened ((depth_bump s).trans hdepth) _
      · exact inOrder_openSign .group rfl h hopened hdepth
      · exact inOrder_refuse h hopened _

theorem inOrder_goOn {level : Level} (h : Linked waiting (.chain level))
    (hopened : opened waiting ≤ maxDepth) (hdepth : s.depth = opened waiting) (lhs : Formula) :
    InOrder (goOn lexemes level lhs s waiting) := by
  unfold goOn
  split
  · next op _ =>
      split
      · exact inOrder_call (.next level op lhs) rfl h hopened ((depth_bump s).trans hdepth)
      · exact inOrder_answer h hopened hdepth lhs
  · exact inOrder_answer h hopened hdepth lhs

/-- With its answer a call ends, and the signs that it held open are complete. -/
theorem inOrder_resume {frame : Frame} (h : Linked waiting frame.caller)
    (hopened : opened (frame :: waiting) ≤ maxDepth)
    (hdepth : s.depth = opened (frame :: waiting)) (f : Formula) :
    InOrder (resume lexemes stop f s frame waiting) := by
  rw [opened_cons] at hopened hdepth
  have hwaiting : opened waiting ≤ maxDepth := by omega
  have hclosed : s.depth - frame.opened = opened waiting := by omega
  cases frame with
  | first level => exact ⟨⟨_, rfl, h⟩, hwaiting, fun _ => hclosed⟩
  | next level op lhs => exact ⟨⟨_, rfl, h⟩, hwaiting, fun _ => hclosed⟩
  | negation => exact inOrder_answer h hwaiting hclosed _
  | atom => exact inOrder_answer h hwaiting hclosed f
  | group =>
      simp only [resume]
      split
      · exact inOrder_answer h hwaiting ((depth_bump _).trans hclosed) f
      · exact inOrder_refuse h hwaiting _

/-- A step keeps the calls in order. -/
theorem inOrder_step {m : Machine} (h : InOrder m) : InOrder (step lexemes stop m) := by
  obtain ⟨s, task, waiting⟩ := m
  obtain ⟨⟨p, hworks, hlinked⟩, hopened, hdepth⟩ := h
  cases task with
  | call q =>
      obtain rfl : q = p := hworks
      exact inOrder_enter hlinked hopened (hdepth id)
  | goOn level lhs =>
      obtain rfl : .chain level = p := hworks
      exact inOrder_goOn hlinked hopened (hdepth id) lhs
  | answer result =>
      cases waiting with
      | nil => exact ⟨⟨p, trivial, hlinked⟩, hopened, hdepth⟩
      | cons frame waiting =>
          cases result with
          | error e =>
              have hrest : opened waiting ≤ maxDepth := by
                simp only [opened_cons] at hopened
                omega
              exact ⟨⟨_, trivial, hlinked.2⟩, hrest, fun hrefuses => absurd trivial hrefuses⟩
          | ok f => exact inOrder_resume hlinked.2 hopened (hdepth id) f

/-- The calls are in order at every moment. -/
theorem inOrder_iterate_step (k : Nat) : InOrder ((step lexemes stop)^[k] start) := by
  induction k with
  | zero => exact inOrder_start
  | succ k ih =>
      rw [Function.iterate_succ_apply']
      exact inOrder_step ih

/-- Calls in order are not more than five for each sign that may be open, and five besides. -/
theorem InOrder.active_le {m : Machine} (h : InOrder m) : m.active ≤ 5 * (maxDepth + 1) := by
  obtain ⟨p, -, hlinked⟩ := h.linked
  have hlength := hlinked.length_lt
  have hlayer := layer_le p
  have hopened := h.opened_le
  have hactive := m.active_le
  omega

end invariant

/-! ### The answers of parsers -/

section answers

variable (lexemes : List Lexeme) (stop : Nat)

/-- The machine comes from one state to another. -/
def Reaches (m m' : Machine) : Prop := ∃ k, (step lexemes stop)^[k] m = m'

/-- The machine comes to the answer of a parser, with the calls `waiting` as before and `depth`
signs open. -/
def Answers (depth : Nat) (waiting : List Frame) (m : Machine) : Parsed → Prop
  | .error e => ∃ s, Reaches lexemes stop m
      ⟨s, .answer (.error ⟨e.fault, Lexeme.offsetOf lexemes stop e.rest⟩), waiting⟩
  | .ok (f, rest) => ∃ s, Reaches lexemes stop m ⟨s, .answer (.ok f), waiting⟩ ∧
      At lexemes s rest ∧ s.depth = depth

/-- Where `depth` signs are open, a call for a phrase ends with the answer of a parser, whatever
calls wait for it. -/
def Performs (depth : Nat) (p : Phrase) (parser : Parser) : Prop :=
  ∀ s ts waiting, At lexemes s ts → s.depth = depth →
    Answers lexemes stop depth waiting ⟨s, .call p, waiting⟩ (parser.run ts)

variable {lexemes stop} {depth : Nat} {m m' m'' : Machine} {s : State} {ts rest : List Token}
  {waiting : List Frame} {frame : Frame} {f : Formula} {r : Parsed} {e : Stop}

theorem Reaches.refl (m : Machine) : Reaches lexemes stop m m := ⟨0, rfl⟩

theorem Reaches.trans (h : Reaches lexemes stop m m') (h' : Reaches lexemes stop m' m'') :
    Reaches lexemes stop m m'' := by
  obtain ⟨k, rfl⟩ := h
  obtain ⟨k', rfl⟩ := h'
  exact ⟨k' + k, Function.iterate_add_apply _ _ _ _⟩

theorem Reaches.step (h : Reaches lexemes stop m m') :
    Reaches lexemes stop m (step lexemes stop m') :=
  h.trans ⟨1, rfl⟩

/-- What a state leads to, everything leads to that leads to the state. -/
theorem Answers.of_reaches (h : Reaches lexemes stop m m')
    (h' : Answers lexemes stop depth waiting m' r) : Answers lexemes stop depth waiting m r := by
  cases r with
  | error e =>
      obtain ⟨s, hs⟩ := h'
      exact ⟨s, h.trans hs⟩
  | ok result =>
      obtain ⟨s, hs, hat⟩ := h'
      exact ⟨s, h.trans hs, hat⟩

theorem Answers.of_step (h : Answers lexemes stop depth waiting (CallStack.step lexemes stop m) r) :
    Answers lexemes stop depth waiting m r :=
  h.of_reaches ⟨1, rfl⟩

/-- A refusal ends the call that waits for it. -/
theorem Answers.refused (h : Answers lexemes stop depth (frame :: waiting) m (.error e))
    (depth' : Nat) : Answers lexemes stop depth' waiting m (.error e) := by
  obtain ⟨s, hs⟩ := h
  exact ⟨s, hs.step⟩

/-- A formula is taken up by the call that waits for it. -/
theorem Answers.resumed {depth' : Nat}
    (h : Answers lexemes stop depth (frame :: waiting) m (.ok (f, rest)))
    (hresume : ∀ s, At lexemes s rest → s.depth = depth →
      Answers lexemes stop depth' waiting (resume lexemes stop f s frame waiting) r) :
    Answers lexemes stop depth' waiting m r := by
  obtain ⟨s, hs, hat, hdepth⟩ := h
  exact (hresume s hat hdepth).of_reaches hs.step

theorem answers_refuse {fault : Fault} (h : At lexemes s ts) (depth : Nat) :
    Answers lexemes stop depth waiting (refuse lexemes stop fault s waiting)
      (.error ⟨fault, ts⟩) := by
  rw [refuse, h.offset_eq]
  exact ⟨s, .refl _⟩

theorem answers_ok (h : At lexemes s ts) (hdepth : s.depth = depth) (f : Formula) :
    Answers lexemes stop depth waiting ⟨s, .answer (.ok f), waiting⟩ (.ok (f, ts)) :=
  ⟨s, .refl _, h, hdepth⟩

/-! ### Chains -/

theorem answers_goOn {level : Level} {item : Parser}
    (hitem : Performs lexemes stop depth level.item item) {lhs : Formula} (h : At lexemes s ts)
    (hdepth : s.depth = depth) :
    Answers lexemes stop depth waiting ⟨s, .goOn level lhs, waiting⟩
      (Parser.chainTail level item lhs ts) := by
  have hgoOn : Answers lexemes stop depth waiting (goOn lexemes level lhs s waiting)
      (Parser.chainTail level item lhs ts) := by
    fun_induction Parser.chainTail level item lhs ts generalizing s with
    | case1 lhs op rest hop e hrun =>
        have hrhs := hitem _ _ (.next level op lhs :: waiting) h.bump_cons
          ((depth_bump s).trans hdepth)
        rw [hrun] at hrhs
        simp only [goOn, h.peek_eq, List.head?_cons, hop, if_true]
        exact hrhs.refused depth
    | case2 lhs op rest hop rhs rest' hrun ih =>
        have hrhs := hitem _ _ (.next level op lhs :: waiting) h.bump_cons
          ((depth_bump s).trans hdepth)
        rw [hrun] at hrhs
        simp only [goOn, h.peek_eq, List.head?_cons, hop, if_true]
        exact hrhs.resumed fun s' hat hdepth' => (ih hat hdepth').of_step
    | case3 lhs op rest hop =>
        simp only [goOn, h.peek_eq, List.head?_cons, hop, if_false]
        exact answers_ok h hdepth lhs
    | case4 lhs ts hts =>
        unfold goOn
        split
        · next op hpeek =>
            rw [h.peek_eq] at hpeek
            obtain ⟨rest, rfl⟩ := List.head?_eq_some_iff.1 hpeek
            exact absurd rfl (hts op rest)
        · exact answers_ok h hdepth lhs
  exact hgoOn.of_step

/-- A chain is performed if its items are. -/
theorem Performs.chain {level : Level} {item : Parser}
    (hitem : Performs lexemes stop depth level.item item) :
    Performs lexemes stop depth (.chain level) (.chain level item) := by
  intro s ts waiting h hdepth
  have hfirst := hitem s ts (.first level :: waiting) h hdepth
  refine .of_step ?_
  change Answers lexemes stop depth waiting ⟨s, .call level.item, .first level :: waiting⟩ _
  simp only [Parser.chain]
  cases hrun : item.run ts with
  | error e =>
      rw [hrun] at hfirst
      exact hfirst.refused depth
  | ok result =>
      rw [hrun] at hfirst
      exact hfirst.resumed fun s' hat hdepth' => answers_goOn hitem hat hdepth'

/-- A formula is performed if operands are. -/
theorem Performs.disjunction {parser : Parser} (h : Performs lexemes stop depth .operand parser) :
    Performs lexemes stop depth (.chain .disjunction) parser.disjunction := by
  have hcomparison : Performs lexemes stop depth (.chain .comparison) parser.comparison :=
    Performs.chain h
  have hconjunction : Performs lexemes stop depth (.chain .conjunction) parser.conjunction :=
    Performs.chain hcomparison
  exact Performs.chain hconjunction

/-! ### Operands -/

theorem openSign_of_lt (h : s.depth < maxDepth) (frame : Frame) (p : Phrase) :
    openSign lexemes stop frame p s waiting =
      ⟨bump lexemes { s with depth := s.depth + 1 }, .call p, frame :: waiting⟩ :=
  if_neg (Nat.not_le.2 h)

theorem openSign_of_le (h : maxDepth ≤ s.depth) (frame : Frame) (p : Phrase) :
    openSign lexemes stop frame p s waiting = refuse lexemes stop .tooDeep s waiting :=
  if_pos h

/-- The formula of a group is read behind its sign, and must have the closing sign behind it. -/
theorem answers_group {inner : Parser} (hroom : depth < maxDepth)
    (hinner : Performs lexemes stop (depth + 1) (.chain .disjunction) inner)
    (h : At lexemes s (.leftParen :: ts)) (hdepth : s.depth = depth) :
    Answers lexemes stop depth waiting
      (openSign lexemes stop .group (.chain .disjunction) s waiting) (Parser.group inner ts) := by
  have hgroup := hinner _ _ (.group :: waiting) (h.count (s.depth + 1)).bump_cons
    ((depth_bump _).trans (congrArg (· + 1) hdepth))
  rw [openSign_of_lt (hdepth ▸ hroom)]
  unfold Parser.group
  cases hrun : inner.run ts with
  | error e =>
      rw [hrun] at hgroup
      exact hgroup.refused depth
  | ok result =>
      obtain ⟨f, rest⟩ := result
      rw [hrun] at hgroup
      refine hgroup.resumed fun s' hat hdepth' => ?_
      simp only [resume, hat.peek_eq]
      cases rest with
      | nil => exact answers_refuse hat depth
      | cons t rest =>
          cases t with
          | rightParen =>
              have hclosed : s'.depth - 1 = depth := by rw [hdepth', Nat.add_sub_cancel]
              exact answers_ok (hat.count _).bump_cons ((depth_bump _).trans hclosed) f
          | name n => exact answers_refuse hat depth
          | connective op => exact answers_refuse hat depth
          | not => exact answers_refuse hat depth
          | leftParen => exact answers_refuse hat depth

/-- The operand of a `!` is read behind it, and the sign is then complete. -/
theorem answers_negation {parser : Parser} (hroom : depth < maxDepth)
    (hdeeper : Performs lexemes stop (depth + 1) .operand parser)
    (h : At lexemes s (.not :: ts)) (hdepth : s.depth = depth) :
    Answers lexemes stop depth waiting (openSign lexemes stop .negation .operand s waiting)
      (Parser.negation parser ts) := by
  have hoperand := hdeeper _ _ (.negation :: waiting) (h.count (s.depth + 1)).bump_cons
    ((depth_bump _).trans (congrArg (· + 1) hdepth))
  rw [openSign_of_lt (hdepth ▸ hroom)]
  unfold Parser.negation
  cases hrun : parser.run ts with
  | error e =>
      rw [hrun] at hoperand
      exact hoperand.refused depth
  | ok result =>
      obtain ⟨f, rest⟩ := result
      rw [hrun] at hoperand
      refine hoperand.resumed fun s' hat hdepth' => ?_
      have hclosed : s'.depth - 1 = depth := by rw [hdepth', Nat.add_sub_cancel]
      exact answers_ok (hat.count _) hclosed _

/-- What is called for one sign further in is performed; where too many signs are open, there is no
parser for it. -/
def DeeperPerforms (lexemes : List Lexeme) (stop depth : Nat) : Option Parser → Prop
  | none => maxDepth ≤ depth
  | some parser => depth < maxDepth ∧ Performs lexemes stop (depth + 1) .operand parser

theorem performs_atom {inner : Option Parser} (h : DeeperPerforms lexemes stop depth inner) :
    Performs lexemes stop depth .atom (.atom inner) := by
  intro s ts waiting hat hdepth
  refine .of_step ?_
  change Answers lexemes stop depth waiting (enter lexemes stop .atom s waiting) _
  simp only [enter, hat.peek_eq]
  cases ts with
  | nil => exact answers_refuse hat depth
  | cons t ts =>
      cases t with
      | name n => exact answers_ok hat.bump_cons ((depth_bump s).trans hdepth) _
      | leftParen =>
          cases inner with
          | none =>
              simp only [List.head?_cons]
              rw [openSign_of_le (hdepth ▸ h)]
              exact answers_refuse hat depth
          | some parser => exact answers_group h.1 h.2.disjunction hat hdepth
      | connective op => exact answers_refuse hat depth
      | not => exact answers_refuse hat depth
      | rightParen => exact answers_refuse hat depth

theorem performs_operandOver {inner : Option Parser}
    (h : DeeperPerforms lexemes stop depth inner) :
    Performs lexemes stop depth .operand (.operandOver inner) := by
  intro s ts waiting hat hdepth
  refine .of_step ?_
  change Answers lexemes stop depth waiting (enter lexemes stop .operand s waiting) _
  simp only [Parser.operandOver]
  split
  · next rest =>
      simp only [enter, hat.peek_eq, List.head?_cons]
      cases inner with
      | none =>
          rw [openSign_of_le (hdepth ▸ h)]
          exact answers_refuse hat depth
      | some parser => exact answers_negation h.1 h.2 hat hdepth
  · next hnot =>
      have hatom := performs_atom h s _ (.atom :: waiting) hat hdepth
      simp only [enter]
      split
      · next hpeek =>
          rw [hat.peek_eq] at hpeek
          obtain ⟨rest, rfl⟩ := List.head?_eq_some_iff.1 hpeek
          exact absurd rfl (hnot rest)
      · cases hrun : (Parser.atom inner).run ts with
        | error e =>
            rw [hrun] at hatom
            exact hatom.refused depth
        | ok result =>
            obtain ⟨f, rest⟩ := result
            rw [hrun] at hatom
            exact hatom.resumed fun s' hs' hdepth' => answers_ok hs' hdepth' f

/-- Where the counter and the room add up to the limit, a call for an operand ends with the answer
of the parser. -/
theorem performs_operand {room : Nat} (h : depth + room = maxDepth) :
    Performs lexemes stop depth .operand (.operand room) := by
  induction room generalizing depth with
  | zero => exact performs_operandOver (Nat.le_of_eq h.symm)
  | succ room ih =>
      -- one sign further in, the counter is one higher and there is one level of room less
      exact performs_operandOver ⟨by omega, ih (by omega)⟩

/-! ### Groups one inside the other -/

/-- In front of anything but a `!`, a formula is called for through all phrases. -/
theorem reaches_atom (h : At lexemes s ts) (hnot : ∀ rest, ts ≠ .not :: rest) (stop : Nat)
    (waiting : List Frame) :
    Reaches lexemes stop ⟨s, .call (.chain .disjunction), waiting⟩
      ⟨s, .call .atom, .atom :: .first .comparison :: .first .conjunction ::
        .first .disjunction :: waiting⟩ := by
  have hoperand : Reaches lexemes stop ⟨s, .call (.chain .disjunction), waiting⟩
      ⟨s, .call .operand, .first .comparison :: .first .conjunction ::
        .first .disjunction :: waiting⟩ := (Reaches.refl _).step.step.step
  have hatom : peek lexemes s ≠ some .not := by
    intro hpeek
    rw [h.peek_eq] at hpeek
    obtain ⟨rest, rfl⟩ := List.head?_eq_some_iff.1 hpeek
    exact hnot rest rfl
  have hcall : enter lexemes stop .operand s (.first .comparison :: .first .conjunction ::
      .first .disjunction :: waiting) = ⟨s, .call .atom, .atom :: .first .comparison ::
        .first .conjunction :: .first .disjunction :: waiting⟩ := by
    simp only [enter]
  rw [← hcall]
  exact hoperand.step

/-- Each of some groups that are opened one inside the other needs the calls of all phrases. -/
theorem reaches_groups {groups : Nat} (hroom : s.depth + groups ≤ maxDepth)
    (h : At lexemes s (List.replicate groups .leftParen ++ ts)) (stop : Nat)
    (waiting : List Frame) :
    ∃ s' waiting', At lexemes s' ts ∧ waiting'.length = waiting.length + 5 * groups ∧
      Reaches lexemes stop ⟨s, .call (.chain .disjunction), waiting⟩
        ⟨s', .call (.chain .disjunction), waiting'⟩ := by
  induction groups generalizing s waiting with
  | zero => exact ⟨s, waiting, h, rfl, .refl _⟩
  | succ groups ih =>
      rw [List.replicate_succ, List.cons_append] at h
      have hatom := (reaches_atom h (by simp) stop waiting).step
      simp only [CallStack.step, enter, h.peek_eq, List.head?_cons] at hatom
      rw [openSign_of_lt (by omega)] at hatom
      obtain ⟨s', waiting', hat, hlength, hrest⟩ :=
        ih (by rw [depth_bump]; change s.depth + 1 + groups ≤ maxDepth; omega)
          (h.count (s.depth + 1)).bump_cons _
      refine ⟨s', waiting', hat, ?_, hatom.trans hrest⟩
      rw [hlength]
      simp only [List.length_cons]
      omega

end answers

/-- **Five calls for each sign that may be open are needed**, and five besides: a name inside as
many groups as may be opened makes so many calls at once. -/
theorem exists_active_eq {lexemes : List Lexeme} {n : Name} {rest : List Token}
    (h : lexemes.map Lexeme.token = List.replicate maxDepth .leftParen ++ .name n :: rest)
    (stop : Nat) : ∃ k, ((step lexemes stop)^[k] start).active = 5 * (maxDepth + 1) := by
  have hstart : At lexemes ⟨0, 0⟩ (List.replicate maxDepth .leftParen ++ .name n :: rest) :=
    h ▸ Checked.at_start
  obtain ⟨s, waiting, hat, hlength, hgroups⟩ :=
    reaches_groups (Nat.le_of_eq (Nat.zero_add _)) hstart stop []
  obtain ⟨k, hk⟩ := hgroups.trans (reaches_atom hat (by simp) stop waiting)
  refine ⟨k, ?_⟩
  rw [start, hk, Machine.active]
  simp only [List.length_cons, hlength, List.length_nil]
  omega

end CallStack

/-! ### Whole texts -/

/-- The formula that a whole list of lexemes stands for, in a text that ends at `stop`. -/
def Formula.ofLexemes (lexemes : List Lexeme) (stop : Nat) : Except ParseError Formula :=
  match ofTokens (lexemes.map Lexeme.token) with
  | .error e => .error ⟨e.fault, Lexeme.offsetOf lexemes stop e.rest⟩
  | .ok f => .ok f

/-- The checked reader finds the formula of a list of lexemes, and no condition fails. -/
theorem Checked.run_parseLexemes (lexemes : List Lexeme) (stop : Nat) :
    (parseLexemes lexemes stop).run = .ok (Formula.ofLexemes lexemes stop) := by
  rw [parseLexemes_eq, Formula.ofLexemes]
  cases Formula.ofTokens (lexemes.map Lexeme.token) with
  | error e => rfl
  | ok f => rfl

namespace CallStack

/-- The machine ends, and what is made of its answer is the formula of the lexemes. -/
theorem exists_answer (lexemes : List Lexeme) (stop : Nat) :
    ∃ k s result, (step lexemes stop)^[k] start = ⟨s, .answer result, []⟩ ∧
      whole lexemes stop s result = Formula.ofLexemes lexemes stop := by
  have hperforms : Performs lexemes stop 0 (.chain .disjunction)
      (Parser.operand maxDepth).disjunction := (performs_operand (Nat.zero_add _)).disjunction
  have hanswer := hperforms ⟨0, 0⟩ _ [] Checked.at_start rfl
  unfold Formula.ofLexemes Formula.ofTokens
  cases hrun : (Parser.operand maxDepth).disjunction.run (lexemes.map Lexeme.token) with
  | error e =>
      rw [hrun] at hanswer
      obtain ⟨s, k, hk⟩ := hanswer
      exact ⟨k, s, _, hk, rfl⟩
  | ok result =>
      obtain ⟨f, rest⟩ := result
      rw [hrun] at hanswer
      obtain ⟨s, ⟨k, hk⟩, hat, -⟩ := hanswer
      refine ⟨k, s, _, hk, ?_⟩
      simp only [whole, hat.peek_eq]
      cases rest with
      | nil => rfl
      | cons t rest =>
          simp only [List.head?_cons]
          rw [hat.offset_eq]

/-- **Reading ends, and never has more calls open than a constant.**  Whatever the tokens are, at
every moment there are at most five calls for each sign that may be open, and five besides; the
machine comes to its answer, from which the formula of the text is made, or its refusal.  A reader
that goes into signs at most once more often than signs may be open finds the same and never lacks
a level. -/
theorem active_le_of_steps (lexemes : List Lexeme) (stop : Nat) :
    (∀ k, ((step lexemes stop)^[k] start).active ≤ 5 * (maxDepth + 1)) ∧
    (∃ k s result, (step lexemes stop)^[k] start = ⟨s, .answer result, []⟩ ∧
      whole lexemes stop s result = Formula.ofLexemes lexemes stop) ∧
    (Checked.parseLexemes lexemes stop).run = .ok (Formula.ofLexemes lexemes stop) :=
  ⟨fun k => (inOrder_iterate_step k).active_le, exists_answer lexemes stop,
    Checked.run_parseLexemes lexemes stop⟩

end CallStack

end BoolLut
