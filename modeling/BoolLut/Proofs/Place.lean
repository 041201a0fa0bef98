/-
**Reading a formula from left to right.**

Between two tokens a reader stands at a *place*: some signs are open, and either an operand has
just been completed or one is missing.  The place alone decides which tokens may come next, which
fault any other token is, and whether the tokens may end here.  This is the view of the grammar in
which a fault is seen as early as possible; that the parsers of `BoolLut/Formula/Parser.lean` see
the same faults is proved in `BoolLut/Proofs/Reading.lean`.

Main definitions:

* `BoolLut.Place`, `BoolLut.Place.after`, `BoolLut.Place.afterAll` — a place, and the places behind
  one more token and behind all tokens of a list;
* `BoolLut.Place.refusal`, `BoolLut.Place.atEnd` — the fault of a token and of the end at a place;
* `BoolLut.Place.Admits` — all tokens of a list may come, one after the other;
* `BoolLut.Place.scan` — the first fault of a list of tokens.

Main results:

* `BoolLut.Place.scan_eq_none_iff`, `BoolLut.Place.split_of_scan_eq_some` — there is no fault
  exactly when all tokens and the end may come, and before a fault everything may;
* `BoolLut.Place.exists_completion` — **every place can be completed** without opening a sign;
* `BoolLut.Place.admits_iff_of_admits` — a limit forbids exactly the tokens that open too many
  signs;
* `BoolLut.Derives.admits` — with room to spare, the tokens of a phrase may come.
-/

import BoolLut.Proofs.OpenSigns

set_option relaxedAutoImplicit false
set_option autoImplicit false

namespace BoolLut

open Opener

/-- Where a reader stands between two tokens: the signs that are open, innermost first, and whether
an operand has just been completed. -/
structure Place where
  signs : List Opener
  complete : Bool
deriving DecidableEq

/-- Whether an operand is complete behind a token. -/
def Token.endsOperand : Token → Bool
  | name _ => true
  | rightParen => true
  | _ => false

namespace Place

variable {limit : Nat} {q : Place} {t : Token} {ts us : List Token}

/-- The place before a formula. -/
def start : Place := ⟨[], false⟩

/-- The place behind one more token. -/
def after (q : Place) (t : Token) : Place := ⟨track q.signs t, t.endsOperand⟩

/-- The place behind all tokens of a list. -/
def afterAll (q : Place) (ts : List Token) : Place := ts.foldl after q

@[simp] theorem afterAll_nil (q : Place) : q.afterAll [] = q := rfl

@[simp] theorem afterAll_cons (q : Place) (t : Token) (ts : List Token) :
    q.afterAll (t :: ts) = (q.after t).afterAll ts := rfl

@[simp] theorem afterAll_append (q : Place) (ts us : List Token) :
    q.afterAll (ts ++ us) = (q.afterAll ts).afterAll us :=
  List.foldl_append

/-- The fault of the token `t` at a place, if at most `limit` signs may be open. -/
def refusal (limit : Nat) (q : Place) (t : Token) : Option Fault :=
  match q, t with
  | ⟨_, false⟩, .name _ => none
  | ⟨signs, false⟩, .not => if signs.length < limit then none else some .tooDeep
  | ⟨signs, false⟩, .leftParen => if signs.length < limit then none else some .tooDeep
  | ⟨_, false⟩, t => some (.unexpected t)
  | ⟨_, true⟩, .connective _ => none
  | ⟨[], true⟩, t => some (.unexpected t)
  | ⟨_ :: _, true⟩, .rightParen => none
  | ⟨_ :: _, true⟩, _ => some .unclosedGroup

/-- The fault of an end at a place. -/
def atEnd : Place → Option Fault
  | ⟨_, false⟩ => some .unexpectedEnd
  | ⟨[], true⟩ => none
  | ⟨_ :: _, true⟩ => some .unclosedGroup

/-- The fault of what comes at a place, be it a token or the end. -/
def refuses (limit : Nat) (q : Place) : List Token → Option Fault
  | [] => q.atEnd
  | t :: _ => q.refusal limit t

/-- All tokens of a list may come, one after the other. -/
def Admits (limit : Nat) (q : Place) : List Token → Prop
  | [] => True
  | t :: ts => q.refusal limit t = none ∧ (q.after t).Admits limit ts

/-- The first fault in a list of tokens, or at its end. -/
def scan (limit : Nat) (q : Place) : List Token → Option Stop
  | [] => q.atEnd.map (⟨·, []⟩)
  | t :: ts =>
      match q.refusal limit t with
      | some fault => some ⟨fault, t :: ts⟩
      | none => (q.after t).scan limit ts

/-! ### Scanning -/

theorem admits_nil : q.Admits limit [] := trivial

theorem admits_cons_iff :
    q.Admits limit (t :: ts) ↔ q.refusal limit t = none ∧ (q.after t).Admits limit ts := Iff.rfl

theorem admits_append_iff :
    q.Admits limit (ts ++ us) ↔ q.Admits limit ts ∧ (q.afterAll ts).Admits limit us := by
  induction ts generalizing q with
  | nil => simp [admits_nil]
  | cons t ts ih => simp only [List.cons_append, admits_cons_iff, afterAll_cons, ih, and_assoc]

theorem scan_of_refuses {fault : Fault} (h : q.refuses limit ts = some fault) :
    q.scan limit ts = some ⟨fault, ts⟩ := by
  cases ts with
  | nil =>
      simp only [refuses] at h
      simp [scan, h]
  | cons t ts =>
      simp only [refuses] at h
      simp [scan, h]

theorem scan_cons_of_none (h : q.refusal limit t = none) :
    q.scan limit (t :: ts) = (q.after t).scan limit ts := by
  simp [scan, h]

/-- There is no fault exactly when all tokens may come, and then the end. -/
theorem scan_eq_none_iff :
    q.scan limit ts = none ↔ q.Admits limit ts ∧ (q.afterAll ts).atEnd = none := by
  induction ts generalizing q with
  | nil => simp [scan, admits_nil]
  | cons t ts ih =>
      cases h : q.refusal limit t with
      | none => rw [scan_cons_of_none h, ih, admits_cons_iff, afterAll_cons, and_assoc,
          and_iff_right h]
      | some fault => simp [scan, admits_cons_iff, h]

/-- Before a fault everything may come. -/
theorem split_of_scan_eq_some {stop : Stop} (h : q.scan limit ts = some stop) :
    ∃ before, ts = before ++ stop.rest ∧ q.Admits limit before ∧
      (q.afterAll before).refuses limit stop.rest = some stop.fault := by
  induction ts generalizing q with
  | nil =>
      obtain ⟨fault, hfault, rfl⟩ := Option.map_eq_some_iff.1 h
      exact ⟨[], rfl, admits_nil, hfault⟩
  | cons t ts ih =>
      cases hr : q.refusal limit t with
      | none =>
          rw [scan_cons_of_none hr] at h
          obtain ⟨before, hts, hadmits, hfault⟩ := ih h
          exact ⟨t :: before, by rw [hts, List.cons_append], ⟨hr, hadmits⟩, hfault⟩
      | some fault =>
          rw [scan_of_refuses (by exact hr), Option.some.injEq] at h
          rw [← h]
          exact ⟨[], rfl, admits_nil, hr⟩

theorem scan_append (h : q.Admits limit ts) :
    q.scan limit (ts ++ us) = (q.afterAll ts).scan limit us := by
  induction ts generalizing q with
  | nil => rfl
  | cons t ts ih =>
      rw [List.cons_append, scan_cons_of_none h.1, ih h.2, afterAll_cons]

/-! ### Completing a place -/

/-- No `!` waits for an operand that is already complete. -/
def Settled (q : Place) : Prop := q.complete = true → settle q.signs = q.signs

theorem settled_after (q : Place) (t : Token) : (q.after t).Settled := by
  intro h
  cases t with
  | name n => exact settle_settle _
  | rightParen => exact settle_settle _
  | connective op => simp [after, Token.endsOperand] at h
  | not => simp [after, Token.endsOperand] at h
  | leftParen => simp [after, Token.endsOperand] at h

theorem Settled.afterAll (h : q.Settled) (ts : List Token) : (q.afterAll ts).Settled := by
  induction ts generalizing q with
  | nil => exact h
  | cons t ts ih => exact ih (settled_after q t)

theorem settled_start : start.Settled := by
  intro h
  simp [start] at h

private theorem exists_closing (limit : Nat) (signs : List Opener) :
    ∃ ts, Admits limit ⟨settle signs, true⟩ ts ∧
      (afterAll ⟨settle signs, true⟩ ts).atEnd = none := by
  induction signs with
  | nil => exact ⟨[], admits_nil, rfl⟩
  | cons sign signs ih =>
      -- a group takes one `)`, and with it every `!` before the group is settled
      cases sign with
      | negation => exact ih
      | group =>
          obtain ⟨ts, hadmits, hend⟩ := ih
          exact ⟨.rightParen :: ts, ⟨rfl, hadmits⟩, hend⟩

/-- Every place can be completed. -/
theorem exists_completion (h : q.Settled) (limit : Nat) :
    ∃ ts, q.Admits limit ts ∧ (q.afterAll ts).atEnd = none := by
  obtain ⟨signs, complete⟩ := q
  obtain ⟨ts, hadmits, hend⟩ := exists_closing limit signs
  cases complete with
  | false => exact ⟨.name (.ofChars 'x' []) :: ts, ⟨rfl, hadmits⟩, hend⟩
  | true =>
      have hsigns : settle signs = signs := h rfl
      rw [hsigns] at hadmits hend
      exact ⟨ts, hadmits, hend⟩

/-! ### The limit -/

theorem refusal_of_lt {signs : List Opener} (h : signs.length < limit) :
    refusal limit ⟨signs, false⟩ .not = none ∧ refusal limit ⟨signs, false⟩ .leftParen = none :=
  ⟨if_pos h, if_pos h⟩

theorem refusal_of_le {signs : List Opener} (h : limit ≤ signs.length) :
    refusal limit ⟨signs, false⟩ .not = some .tooDeep ∧
      refusal limit ⟨signs, false⟩ .leftParen = some .tooDeep :=
  ⟨if_neg (Nat.not_lt.2 h), if_neg (Nat.not_lt.2 h)⟩

theorem lt_of_refusal_eq_none {signs : List Opener} (ht : t = .not ∨ t = .leftParen)
    (h : refusal limit ⟨signs, false⟩ t = none) : signs.length < limit := by
  rcases ht with rfl | rfl
  · simpa [refusal] using h
  · simpa [refusal] using h

/-- A limit forbids a token only if it opens one sign too many. -/
theorem refusal_eq_none_iff_of_refusal {n : Nat} (h : q.refusal n t = none)
    (hq : q.signs.length ≤ limit) :
    q.refusal limit t = none ↔ (track q.signs t).length ≤ limit := by
  obtain ⟨signs, complete⟩ := q
  have hsettle := length_settle_le signs
  have htail := length_settle_le signs.tail
  rw [List.length_tail] at htail
  simp only at hq
  cases complete with
  | false =>
      cases t with
      | name n => simp only [refusal, track_name, true_iff]; omega
      | not => exact ⟨lt_of_refusal_eq_none (.inl rfl), fun hroom => (refusal_of_lt hroom).1⟩
      | leftParen => exact ⟨lt_of_refusal_eq_none (.inr rfl), fun hroom => (refusal_of_lt hroom).2⟩
      | connective op => simp [refusal] at h
      | rightParen => simp [refusal] at h
  | true =>
      -- behind an operand no token opens a sign
      cases t with
      | connective op => simpa [refusal] using hq
      | rightParen =>
          cases signs with
          | nil => simp [refusal] at h
          | cons sign signs => simp only [refusal, track, true_iff]; omega
      | name n => cases signs <;> simp [refusal] at h
      | not => cases signs <;> simp [refusal] at h
      | leftParen => cases signs <;> simp [refusal] at h

/-- The limit is of no account where an operand has just been completed. -/
theorem refusal_complete (limit n : Nat) (signs : List Opener) (t : Token) :
    refusal limit ⟨signs, true⟩ t = refusal n ⟨signs, true⟩ t := by
  cases signs <;> cases t <;> rfl

/-- What may come within a limit may come within any larger one. -/
theorem refusal_mono {n : Nat} (h : q.refusal limit t = none) (hn : limit ≤ n) :
    q.refusal n t = none := by
  obtain ⟨signs, complete⟩ := q
  cases complete with
  | true => rwa [refusal_complete n limit]
  | false =>
      cases t with
      | not =>
          have hroom : signs.length < limit := by simpa [refusal] using h
          exact if_pos (Nat.lt_of_lt_of_le hroom hn)
      | leftParen =>
          have hroom : signs.length < limit := by simpa [refusal] using h
          exact if_pos (Nat.lt_of_lt_of_le hroom hn)
      | name m => rfl
      | connective op => exact h
      | rightParen => exact h

theorem Admits.mono {n : Nat} (h : q.Admits limit ts) (hn : limit ≤ n) : q.Admits n ts := by
  induction ts generalizing q with
  | nil => exact admits_nil
  | cons t ts ih => exact ⟨refusal_mono h.1 hn, ih h.2⟩

private theorem prefix_cons_forall {p : List Token → Prop} :
    (∀ before, before <+: t :: ts → p before) ↔
      p [] ∧ ∀ before, before <+: ts → p (t :: before) := by
  constructor
  · intro h
    exact ⟨h [] List.nil_prefix, fun before hb => h _ (List.cons_prefix_cons.2 ⟨rfl, hb⟩)⟩
  · rintro ⟨hnil, hcons⟩ before hb
    rcases List.prefix_cons_iff.1 hb with rfl | ⟨before, rfl, hbefore⟩
    · exact hnil
    · exact hcons before hbefore

/-- A limit forbids exactly the tokens that open too many signs. -/
theorem admits_iff_of_admits {n : Nat} (h : q.Admits n ts) (hq : q.signs.length ≤ limit) :
    q.Admits limit ts ↔
      ∀ before, before <+: ts → (before.foldl track q.signs).length ≤ limit := by
  induction ts generalizing q with
  | nil => simp [admits_nil, hq]
  | cons t ts ih =>
      rw [admits_cons_iff, prefix_cons_forall, refusal_eq_none_iff_of_refusal h.1 hq]
      simp only [List.foldl_nil, List.foldl_cons, hq, true_and]
      constructor
      · rintro ⟨ht, hadmits⟩
        exact (ih h.2 ht).1 hadmits
      · intro hall
        have ht : (track q.signs t).length ≤ limit := hall [] List.nil_prefix
        exact ⟨ht, (ih h.2 ht).2 hall⟩

end Place

/-! ### Phrases -/

open Place

/-- Behind a phrase an operand is complete. -/
theorem Derives.afterAll {p : Phrase} {ts : List Token} {f : Formula} (h : Derives p ts f)
    (signs : List Opener) : Place.afterAll ⟨signs, false⟩ ts = ⟨settle signs, true⟩ := by
  induction h generalizing signs with
  | item _ ih => exact ih signs
  | @join _ op _ _ _ _ _ _ _ ihf ihg =>
      rw [afterAll_append, ihf, afterAll_cons]
      exact (ihg (settle signs)).trans (by rw [settle_settle])
  | atom _ ih => exact ih signs
  | not _ ih => exact ih (.negation :: signs)
  | name n => rfl
  | group _ ih =>
      rw [afterAll_cons, afterAll_append]
      exact congrArg (Place.afterAll · [.rightParen]) (ih (.group :: signs))

/-- With room to spare, the tokens of a phrase may come. -/
theorem Derives.admits {p : Phrase} {ts : List Token} {f : Formula} (h : Derives p ts f) :
    ∀ limit signs, signs.length + ts.length ≤ limit → Admits limit ⟨signs, false⟩ ts := by
  induction h with
  | item _ ih => exact ih
  | @join _ op ts us f g _ hf _ ihf ihg =>
      intro limit signs hlimit
      rw [List.length_append, List.length_cons] at hlimit
      have hsettle := length_settle_le signs
      rw [admits_append_iff, hf.afterAll]
      exact ⟨ihf limit signs (by omega), rfl, ihg limit (settle signs) (by omega)⟩
  | atom _ ih => exact ih
  | not _ ih =>
      intro limit signs hlimit
      rw [List.length_cons] at hlimit
      have hroom : signs.length < limit := by omega
      refine ⟨if_pos hroom, ih limit (.negation :: signs) ?_⟩
      rw [List.length_cons]
      omega
  | name n =>
      intro limit signs _
      exact ⟨rfl, trivial⟩
  | @group ts f hf ih =>
      intro limit signs hlimit
      rw [List.length_cons, List.length_append] at hlimit
      have hroom : signs.length < limit := by omega
      refine ⟨if_pos hroom, admits_append_iff.2 ⟨ih limit (.group :: signs) ?_, ?_⟩⟩
      · rw [List.length_cons]
        omega
      · exact (hf.afterAll (.group :: signs)).symm ▸ ⟨rfl, trivial⟩

end BoolLut
