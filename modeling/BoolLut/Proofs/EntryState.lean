/-
**The state before a reader and the state behind it.**

A reader that moves along a list of lexemes and counts the open signs is called again and again, at
many places and inside many signs.  What it does must not depend on how it got there.  This module
shows that a reader, wherever it begins, takes at least one lexeme, gives back the counter as it
was, and stops where no connective comes that it would still take; and that all it looks at are the
lexemes from its position on, the counter, and the end of the text.  The counter only ever forbids
signs, so a formula that is read inside many signs is read inside fewer as well.

Main definitions:

* `BoolLut.Checked.reader` — the reader of a phrase;
* `BoolLut.Checked.State.moved` — a state behind a reader, seen from another place;
* `BoolLut.Parser.Extends` — a parser reads whatever another one reads.

Main results:

* `BoolLut.Checked.follows_reader` — the reader of a phrase does what its parser does;
* `BoolLut.Phrase.endsAt_of_run`, `BoolLut.Phrase.suffix_of_run` — where a parser stops, and where
  it refuses;
* `BoolLut.Phrase.extends_of_room_le` — with more room, a parser reads whatever it did with less;
* `BoolLut.Checked.reader_of_state` — **a reader keeps the state in order, and looks at nothing
  behind it**.
-/

import BoolLut.Proofs.CountedParser
import BoolLut.Proofs.Reading

set_option relaxedAutoImplicit false
set_option autoImplicit false

namespace BoolLut

/-! ### More room -/

namespace Parser

variable {parser parser' item item' : Parser} {ts : List Token}

/-- A parser reads whatever another one reads, and in the same way. -/
def Extends (parser' parser : Parser) : Prop :=
  ∀ ts result, parser.run ts = .ok result → parser'.run ts = .ok result

private theorem Extends.chainTail (h : item'.Extends item) {level : Level} {lhs : Formula}
    {result : Formula × List Token} (hrun : chainTail level item lhs ts = .ok result) :
    chainTail level item' lhs ts = .ok result := by
  fun_induction Parser.chainTail level item lhs ts with
  | case1 => simp at hrun
  | case2 lhs op rest hop rhs rest' hitem ih =>
      rw [chainTail_ok hop (h _ _ hitem)]
      exact ih hrun
  | case3 lhs op rest hop =>
      rw [chainTail_stop (by rintro _ _ ⟨⟩; exact hop)]
      exact hrun
  | case4 lhs ts hts =>
      rw [chainTail_stop fun op rest hrest => absurd hrest (hts op rest)]
      exact hrun

theorem Extends.chain (h : item'.Extends item) (level : Level) :
    (Parser.chain level item').Extends (Parser.chain level item) := by
  intro ts result hrun
  simp only [Parser.chain] at hrun ⊢
  cases hitem : item.run ts with
  | error stop => simp [hitem] at hrun
  | ok first =>
      simp only [hitem] at hrun
      simp only [h _ _ hitem]
      exact h.chainTail hrun

theorem Extends.disjunction (h : parser'.Extends parser) :
    parser'.disjunction.Extends parser.disjunction :=
  ((Extends.chain h .comparison).chain .conjunction).chain .disjunction

theorem Extends.group (h : parser'.Extends parser) {result : Formula × List Token}
    (hrun : group parser ts = .ok result) : group parser' ts = .ok result := by
  unfold Parser.group at hrun ⊢
  cases hinner : parser.run ts with
  | error stop => simp [hinner] at hrun
  | ok inner =>
      rw [hinner] at hrun
      rw [h _ _ hinner]
      exact hrun

theorem Extends.negation (h : parser'.Extends parser) {result : Formula × List Token}
    (hrun : negation parser ts = .ok result) : negation parser' ts = .ok result := by
  unfold Parser.negation at hrun ⊢
  cases hoperand : parser.run ts with
  | error stop => simp [hoperand] at hrun
  | ok inner =>
      rw [hoperand] at hrun
      rw [h _ _ hoperand]
      exact hrun

/-- What is read one sign further in is read as well. -/
def DeeperExtends (inner' inner : Option Parser) : Prop :=
  ∀ parser ∈ inner, ∃ parser' ∈ inner', parser'.Extends parser

theorem extends_atom {inner inner' : Option Parser} (h : DeeperExtends inner' inner) :
    (atom inner').Extends (atom inner) := by
  intro ts result hrun
  cases ts with
  | nil => simp [atom] at hrun
  | cons t ts =>
      cases t with
      | name n => exact hrun
      | leftParen =>
          cases inner with
          | none => simp [atom] at hrun
          | some parser =>
              obtain ⟨parser', rfl, hparser⟩ := h parser rfl
              exact hparser.disjunction.group hrun
      | connective op => simp [atom] at hrun
      | not => simp [atom] at hrun
      | rightParen => simp [atom] at hrun

theorem extends_operandOver {inner inner' : Option Parser} (h : DeeperExtends inner' inner) :
    (operandOver inner').Extends (operandOver inner) := by
  intro ts result hrun
  simp only [operandOver] at hrun ⊢
  split at hrun
  · cases inner with
    | none => simp at hrun
    | some parser =>
        obtain ⟨parser', rfl, hparser⟩ := h parser rfl
        exact hparser.negation hrun
  · exact extends_atom h _ _ hrun

/-- With more room, an operand is read as with less. -/
theorem extends_operand {room room' : Nat} (h : room ≤ room') :
    (operand room').Extends (operand room) := by
  induction room generalizing room' with
  | zero =>
      rw [operand_eq room']
      exact extends_operandOver fun _ hnone => by simp at hnone
  | succ room ih =>
      obtain ⟨room', rfl⟩ : ∃ n, room' = n + 1 := ⟨room' - 1, by omega⟩
      refine extends_operandOver ?_
      rintro _ ⟨⟩
      exact ⟨_, rfl, ih (Nat.le_of_succ_le_succ h)⟩

end Parser

namespace Phrase

open Place

variable {room room' : Nat} {p : Phrase} {ts rest : List Token} {f : Formula}

/-- With more room, a phrase is read as with less. -/
theorem extends_of_room_le (h : room ≤ room') (p : Phrase) :
    (p.parser room').Extends (p.parser room) := by
  have hoperand := Parser.extends_operand h
  cases p with
  | chain level =>
      cases level with
      | comparison => exact hoperand.chain _
      | conjunction => exact (hoperand.chain _).chain _
      | disjunction => exact hoperand.disjunction
  | operand => exact hoperand
  | atom =>
      refine Parser.extends_atom ?_
      intro parser hparser
      cases room with
      | zero => simp [Parser.deeper] at hparser
      | succ room =>
          obtain rfl : Parser.operand room = parser := by simpa [Parser.deeper] using hparser
          obtain ⟨room', rfl⟩ : ∃ n, room' = n + 1 := ⟨room' - 1, by omega⟩
          exact ⟨_, rfl, Parser.extends_operand (Nat.le_of_succ_le_succ h)⟩

/-! ### Where parsers stop -/

/-- The parser of a phrase agrees with the grammar and with a scan, except that no atom begins with
a `!`. -/
theorem agrees_of_phrase (h : p = .atom → ∀ rest, ts ≠ .not :: rest) (room : Nat) :
    Parser.Agrees room [] p ts ((p.parser room).run ts) := by
  have hoperand : (Parser.operand room).Reads room [] .operand :=
    Parser.reads_operand (Nat.zero_add room)
  cases p with
  | chain level =>
      cases level with
      | comparison => exact Parser.Reads.chain hoperand rfl ts
      | conjunction => exact Parser.Reads.chain (Parser.Reads.chain hoperand rfl) rfl ts
      | disjunction => exact hoperand.disjunction rfl ts
  | operand => exact hoperand ts
  | atom =>
      refine Parser.atom_agrees ?_ (h rfl)
      cases room with
      | zero => exact Nat.le_refl 0
      | succ room =>
          exact ⟨Nat.succ_pos room, fun sign => Parser.reads_operand (Nat.add_comm 1 room)⟩

/-- A phrase is read up to a token that it does not go on with. -/
theorem endsAt_of_run (h : (p.parser room).run ts = .ok (f, rest)) : p.EndsAt rest := by
  by_cases hatom : p = .atom
  · rw [hatom]
    exact fun _ _ _ htakes => htakes
  · have hagrees : Parser.Agrees room [] p ts ((p.parser room).run ts) :=
      agrees_of_phrase (fun hp => absurd hp hatom) room
    rw [h] at hagrees
    obtain ⟨_, _, _, hends, _⟩ := hagrees
    exact hends

/-- A phrase is refused at one of the tokens that were given, or at their end. -/
theorem suffix_of_run {e : Stop} (h : (p.parser room).run ts = .error e) : e.rest <:+ ts := by
  by_cases hnot : p = .atom ∧ ∃ rest, ts = .not :: rest
  · obtain ⟨rfl, rest, rfl⟩ := hnot
    obtain rfl : ⟨.unexpected .not, .not :: rest⟩ = e := Except.error.inj h
    exact List.suffix_refl _
  · have hagrees := agrees_of_phrase (fun hp rest hts => hnot ⟨hp, rest, hts⟩) room
    rw [h] at hagrees
    obtain ⟨before, hts, -⟩ := split_of_scan_eq_some hagrees
    exact ⟨before, hts.symm⟩

end Phrase

/-! ### Readers of phrases -/

namespace Checked

/-- A state behind a reader that began at position `pos`, seen from one that began at `pos'`. -/
def State.moved (pos pos' : Nat) (s : State) : State := { s with pos := pos' + (s.pos - pos) }

section reader

variable (lexemes : List Lexeme) (stop : Nat)

/-- The reader of a phrase. -/
def reader : Phrase → Walk
  | .chain .comparison => chain lexemes .comparison (operand lexemes stop (maxDepth + 1))
  | .chain .conjunction =>
      chain lexemes .conjunction (chain lexemes .comparison (operand lexemes stop (maxDepth + 1)))
  | .chain .disjunction => disjunction lexemes (operand lexemes stop (maxDepth + 1))
  | .operand => operand lexemes stop (maxDepth + 1)
  | .atom => atom lexemes stop (operand lexemes stop maxDepth)

variable {lexemes stop}

/-- The reader of a phrase does what its parser does. -/
theorem follows_reader {depth room : Nat} (h : depth + room = maxDepth) (p : Phrase) :
    Follows lexemes stop depth (reader lexemes stop p) (p.parser room) := by
  have hoperand : Follows lexemes stop depth (operand lexemes stop (maxDepth + 1))
      (.operand room) := follows_operand (by omega) h
  cases p with
  | chain level =>
      cases level with
      | comparison => exact hoperand.chain
      | conjunction => exact hoperand.chain.chain
      | disjunction => exact hoperand.disjunction
  | operand => exact hoperand
  | atom =>
      refine fun s ts hat hdepth => atom_matches ?_ hat hdepth
      cases room with
      | zero => exact Nat.le_of_eq h.symm
      | succ room => exact ⟨by omega, follows_operand (by omega) (by omega)⟩

end reader

/-! ### States -/

variable {lexemes lexemes' : List Lexeme} {s t : State} {ts : List Token}

/-- The position is known from the tokens that are left. -/
theorem At.pos_eq (h : At lexemes s ts) : s.pos = lexemes.length - ts.length := by
  have hpos := h.pos_le
  have hlength := h.length_eq
  omega

theorem at_of_le (h : s.pos ≤ lexemes.length) :
    At lexemes s ((lexemes.drop s.pos).map Lexeme.token) := ⟨h, rfl⟩

/-- The place of a token is known from the lexemes from any earlier one on. -/
theorem offsetOf_congr {pos pos' : Nat} (hpos : pos ≤ lexemes.length)
    (hpos' : pos' ≤ lexemes'.length) (h : lexemes'.drop pos' = lexemes.drop pos)
    (hts : ts.length ≤ lexemes.length - pos) (stop : Nat) :
    Lexeme.offsetOf lexemes' stop ts = Lexeme.offsetOf lexemes stop ts := by
  have hlength := congrArg List.length h
  rw [List.length_drop, List.length_drop] at hlength
  have hdrop : ∀ {xs : List Lexeme} {i : Nat}, i ≤ xs.length → ts.length ≤ xs.length - i →
      xs.drop (xs.length - ts.length) = (xs.drop i).drop (xs.length - i - ts.length) := by
    intro xs i hi hxs
    rw [List.drop_drop]
    congr 1
    omega
  rw [Lexeme.offsetOf, Lexeme.offsetOf, hdrop hpos hts, hdrop hpos' (by omega), h, hlength]

theorem pure_injective {α : Type} {x y : α} (h : (pure x : Step α) = pure y) : x = y :=
  Except.ok.inj (Except.ok.inj h)

theorem throw_ne_pure {α : Type} (e : ParseError) (x : α) : (throw e : Step α) ≠ pure x := by
  intro h
  exact absurd (Except.ok.inj h) (by simp)

/-- A reader that begins in order does what its parser does with the tokens that are left and the
room that the counter leaves: it refuses one of these tokens, or reads at least one of them. -/
theorem reader_eq (hpos : s.pos ≤ lexemes.length) (hdepth : s.depth ≤ maxDepth) (stop : Nat)
    (p : Phrase) :
    let ts := (lexemes.drop s.pos).map Lexeme.token
    let parsed := (p.parser (maxDepth - s.depth)).run ts
    (∃ e, parsed = .error e ∧ e.rest.length ≤ lexemes.length - s.pos ∧
      reader lexemes stop p s = throw ⟨e.fault, Lexeme.offsetOf lexemes stop e.rest⟩) ∨
    ∃ f rest, parsed = .ok (f, rest) ∧ rest.length < lexemes.length - s.pos ∧
      At lexemes ⟨lexemes.length - rest.length, s.depth⟩ rest ∧
      reader lexemes stop p s = pure (f, ⟨lexemes.length - rest.length, s.depth⟩) := by
  intro ts parsed
  have hlength : ts.length = lexemes.length - s.pos := by
    rw [List.length_map, List.length_drop]
  have hfollows : Follows lexemes stop s.depth (reader lexemes stop p)
      (p.parser (maxDepth - s.depth)) := follows_reader (Nat.add_sub_cancel' hdepth) p
  rcases (hfollows s ts (at_of_le hpos) rfl).refuses_or_reads with
    ⟨e, hrun, hwalk⟩ | ⟨f, rest, s', hrun, hwalk, hat, hdepth'⟩
  · exact .inl ⟨e, hrun, hlength ▸ (Phrase.suffix_of_run hrun).length_le, hwalk⟩
  · obtain rfl : s' = ⟨lexemes.length - rest.length, s.depth⟩ := by
      rw [← hat.pos_eq, ← hdepth']
    have hprogress := (p.parser (maxDepth - s.depth)).progress hrun
    exact .inr ⟨f, rest, hrun, hlength ▸ hprogress, hat, hwalk⟩

/-- A reader takes at least one lexeme, leaves the counter as it was, and stops where the phrase
does not go on. -/
theorem reader_ok (hpos : s.pos ≤ lexemes.length) (hdepth : s.depth ≤ maxDepth) {stop : Nat}
    {p : Phrase} {f : Formula} {s' : State} (h : reader lexemes stop p s = pure (f, s')) :
    s'.depth = s.depth ∧ s.pos < s'.pos ∧ s'.pos ≤ lexemes.length ∧
      ∀ op, peek lexemes s' = some (.connective op) → ¬ p.takes op := by
  rcases reader_eq hpos hdepth stop p with ⟨e, -, -, hwalk⟩ | ⟨g, rest, hrun, hless, hat, hwalk⟩
  · exact absurd (hwalk.symm.trans h) (throw_ne_pure _ _)
  · obtain ⟨rfl, rfl⟩ := Prod.mk.inj (pure_injective (hwalk.symm.trans h))
    refine ⟨rfl, ?_, hat.pos_le, ?_⟩
    · change s.pos < lexemes.length - rest.length
      omega
    · intro op hpeek
      rw [hat.peek_eq] at hpeek
      obtain ⟨rest', rfl⟩ := List.head?_eq_some_iff.1 hpeek
      exact Phrase.endsAt_of_run hrun op rest' rfl

section rest

variable (hpos : s.pos ≤ lexemes.length) (hpos' : t.pos ≤ lexemes'.length)
  (hdrop : lexemes'.drop t.pos = lexemes.drop s.pos)

include hpos hpos' hdrop

/-- Behind a reader, the positions in two lists with the same rest belong to each other. -/
theorem moved_eq {rest : List Token} (hrest : rest.length ≤ lexemes.length - s.pos)
    (depth : Nat) :
    State.moved s.pos t.pos ⟨lexemes.length - rest.length, depth⟩ =
      ⟨lexemes'.length - rest.length, depth⟩ := by
  have hlength := congrArg List.length hdrop
  rw [List.length_drop, List.length_drop] at hlength
  simp only [State.moved, State.mk.injEq, and_true]
  omega

/-- A reader looks at the lexemes from its position on, at the counter and at the end of the text,
and at nothing else. -/
theorem reader_congr (hdepth : s.depth ≤ maxDepth) (heq : t.depth = s.depth) (stop : Nat)
    (p : Phrase) :
    reader lexemes' stop p t =
      (fun r => (r.1, r.2.moved s.pos t.pos)) <$> reader lexemes stop p s := by
  have hlist := reader_eq hpos hdepth stop p
  have hlist' := reader_eq hpos' (heq ▸ hdepth) stop p
  rw [hdrop, heq] at hlist'
  rcases hlist with ⟨e, hrun, hle, hwalk⟩ | ⟨f, rest, hrun, hless, -, hwalk⟩
  · rcases hlist' with ⟨e', hrun', -, hwalk'⟩ | ⟨f', rest', hrun', -⟩
    · obtain rfl := Except.error.inj (hrun.symm.trans hrun')
      rw [hwalk, hwalk', offsetOf_congr hpos hpos' hdrop hle]
      rfl
    · exact absurd (hrun.symm.trans hrun') (by simp)
  · rcases hlist' with ⟨e', hrun', -⟩ | ⟨f', rest', hrun', -, -, hwalk'⟩
    · exact absurd (hrun.symm.trans hrun') (by simp)
    · obtain ⟨rfl, rfl⟩ := Prod.mk.inj (Except.ok.inj (hrun.symm.trans hrun'))
      rw [hwalk, hwalk', ← moved_eq hpos hpos' hdrop (Nat.le_of_lt hless)]
      rfl

/-- What is read inside some signs is read inside fewer signs. -/
theorem reader_mono (hdepth : s.depth ≤ maxDepth) (hle : t.depth ≤ s.depth) {stop : Nat}
    {p : Phrase} {f : Formula} {s' : State} (h : reader lexemes stop p s = pure (f, s')) :
    reader lexemes' stop p t = pure (f, { s'.moved s.pos t.pos with depth := t.depth }) := by
  rcases reader_eq hpos hdepth stop p with ⟨e, -, -, hwalk⟩ | ⟨g, rest, hrun, hless, -, hwalk⟩
  · exact absurd (hwalk.symm.trans h) (throw_ne_pure _ _)
  · obtain ⟨rfl, rfl⟩ := Prod.mk.inj (pure_injective (hwalk.symm.trans h))
    have hroom : maxDepth - s.depth ≤ maxDepth - t.depth := by omega
    have hrun' := Phrase.extends_of_room_le hroom p _ _ hrun
    have hlist' := reader_eq hpos' (Nat.le_trans hle hdepth) stop p
    rw [hdrop] at hlist'
    rcases hlist' with ⟨e', herror, -⟩ | ⟨f', rest', hok, -, -, hwalk'⟩
    · exact absurd (hrun'.symm.trans herror) (by simp)
    · obtain ⟨rfl, rfl⟩ := Prod.mk.inj (Except.ok.inj (hrun'.symm.trans hok))
      rw [hwalk', moved_eq hpos hpos' hdrop (Nat.le_of_lt hless)]

end rest

/-- **A reader keeps the state in order, and looks at nothing behind it.**  Wherever a reader of a
phrase begins in a list of lexemes, and however many signs are open there up to the limit, it comes
to an answer.  If it reads a formula, the counter is as before, the position has gone on and is
still in the list, and no connective comes next that the phrase would take.  In any list that has
the same lexemes from a position on, and with the same counter, it gives the same answer there: the
same refusal, or the same formula with the same number of lexemes taken.  With a lower counter it
still reads what it read. -/
theorem reader_of_state {lexemes : List Lexeme} {s : State} (hpos : s.pos ≤ lexemes.length)
    (hdepth : s.depth ≤ maxDepth) (stop : Nat) (p : Phrase) :
    ((∃ e, reader lexemes stop p s = throw e) ∨
      ∃ f s', reader lexemes stop p s = pure (f, s')) ∧
    (∀ f s', reader lexemes stop p s = pure (f, s') →
      s'.depth = s.depth ∧ s.pos < s'.pos ∧ s'.pos ≤ lexemes.length ∧
        ∀ op, peek lexemes s' = some (.connective op) → ¬ p.takes op) ∧
    ∀ (lexemes' : List Lexeme) (t : State), t.pos ≤ lexemes'.length →
      lexemes'.drop t.pos = lexemes.drop s.pos →
      (t.depth = s.depth → reader lexemes' stop p t =
        (fun r => (r.1, r.2.moved s.pos t.pos)) <$> reader lexemes stop p s) ∧
      (t.depth ≤ s.depth → ∀ f s', reader lexemes stop p s = pure (f, s') →
        reader lexemes' stop p t =
          pure (f, { s'.moved s.pos t.pos with depth := t.depth })) := by
  refine ⟨?_, fun f s' h => reader_ok hpos hdepth h, ?_⟩
  · rcases reader_eq hpos hdepth stop p with ⟨e, -, -, hwalk⟩ | ⟨f, rest, -, -, -, hwalk⟩
    · exact .inl ⟨_, hwalk⟩
    · exact .inr ⟨f, _, hwalk⟩
  · intro lexemes' t hpos' hdrop
    exact ⟨fun heq => reader_congr hpos hpos' hdrop hdepth heq stop p,
      fun hle f s' h => reader_mono hpos hpos' hdrop hdepth hle h⟩

set_option maxRecDepth 4096 in
/-- With 254 signs open, `!(a && b) || c` is read as a conjunction up to the `||`, with all signs
open that may be; with none open and other lexemes before it, the same is read. -/
theorem reader_of_state_last_signs :
    let a := Name.ofChars 'a' []
    let b := Name.ofChars 'b' []
    let c := Name.ofChars 'c' []
    let lexemes : List Lexeme := [⟨.not, 0⟩, ⟨.leftParen, 1⟩, ⟨.name a, 2⟩, ⟨.connective .and, 4⟩,
      ⟨.name b, 7⟩, ⟨.rightParen, 8⟩, ⟨.connective .or, 10⟩, ⟨.name c, 13⟩]
    let f := Formula.not (.binary .and (.var a) (.var b))
    0 ≤ lexemes.length ∧ 254 ≤ maxDepth ∧
    reader lexemes 14 (.chain .conjunction) ⟨0, 254⟩ = pure (f, ⟨6, 254⟩) ∧
    ¬ (Phrase.chain .conjunction).takes .or ∧
    reader (⟨.name c, 0⟩ :: ⟨.connective .xor, 0⟩ :: lexemes) 14 (.chain .conjunction) ⟨2, 0⟩ =
      pure (f, ⟨8, 0⟩) := by
  intro a b c lexemes f
  have hpos : 0 ≤ lexemes.length := Nat.zero_le _
  have hdepth : 254 ≤ maxDepth := by decide
  have hread : reader lexemes 14 (.chain .conjunction) ⟨0, 254⟩ = pure (f, ⟨6, 254⟩) := by cbv
  obtain ⟨-, hok, hrest⟩ :=
    @reader_of_state lexemes ⟨0, 254⟩ hpos hdepth 14 (.chain .conjunction)
  obtain ⟨-, -, -, htakes⟩ := hok f ⟨6, 254⟩ hread
  have hlower := (hrest (⟨.name c, 0⟩ :: ⟨.connective .xor, 0⟩ :: lexemes) ⟨2, 0⟩ (by decide) rfl).2
    (by decide) f ⟨6, 254⟩ hread
  exact ⟨hpos, hdepth, hread, htakes .or rfl, hlower⟩

end Checked

end BoolLut
