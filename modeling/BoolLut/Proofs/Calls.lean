/-
**A cursor beside the list of its items.**

A cursor can be asked for the next item, for the one behind some others, which are given up, for the
number of the items that are left, and for bounds of this number.  Whatever it is asked, and in
whatever order, it replies as the list of all items would from which items are taken in front.  So
no code comes twice, none is left out that was not given up, and the numbers are those of the codes
that were not taken.

The same replies come from a *span*, which is nothing but two numbers and checks each step: it raises
the one until it is the other, it gives items up by taking them one after the other, and it counts
what is left by a difference, which would have no value if the one number were beyond the other.

Main definitions:

* `BoolLut.Call`, `BoolLut.Reply` — what a cursor may be asked, and what it replies;
* `BoolLut.Call.ofList`, `BoolLut.Call.ofCursor` — the reply of a list of items and that of a
  cursor, each with what is left;
* `BoolLut.Call.behind` — the reply when a given number of items was asked for before;
* `BoolLut.Checked.Span`, `BoolLut.Checked.replies` — the codes from one number up to another, and
  replies with every step checked.

Main results:

* `BoolLut.Call.ofCursor_eq`, `BoolLut.repliesBy_ofCursor` — one call and a sequence of calls, of a
  cursor and of the list of the items that are left;
* `BoolLut.Checked.Span.ask_span`, `BoolLut.Checked.replies_eq_ok` — no step of a span lacks its
  condition, and it replies as a cursor;
* `BoolLut.yielded_repliesBy_sublist`, `BoolLut.tellsEnd_of_repliesBy_eq`,
  `BoolLut.getElem?_repliesBy_ofList` — what is taken, the end, and each reply by itself;
* `BoolLut.Cursor.replies_of_calls` — **a cursor replies as the list of its items**.
-/

import BoolLut.Proofs.CheckedRun

set_option relaxedAutoImplicit false
set_option autoImplicit false

namespace BoolLut

/-! ### Calls and replies -/

/-- What a cursor may be asked. -/
inductive Call where
  /-- The next item. -/
  | next
  /-- The item behind the next `k`, which are given up. -/
  | nth (k : Nat)
  /-- The number of items that are left. -/
  | len
  /-- Bounds of this number. -/
  | bounds
deriving DecidableEq, Repr

/-- What a cursor replies. -/
inductive Reply where
  /-- The item, if there is one. -/
  | item (found : Option Assignment)
  /-- The number. -/
  | count (left : Nat)
  /-- At least so many, and at most. -/
  | bounds (least most : Nat)

/-- The item of a reply. -/
def Reply.item? : Reply → Option Assignment
  | item found => found
  | count _ => none
  | bounds _ _ => none

/-- The items of some replies, in order. -/
def yielded (replies : List Reply) : List Assignment := replies.filterMap Reply.item?

/-- The reply tells that nothing is left. -/
def Reply.TellsEnd : Reply → Prop
  | item found => found = none
  | count left => left = 0
  | bounds least most => least = 0 ∧ most = 0

namespace Call

/-- The reply of a list of items, and the items that are left. -/
def ofList : Call → List Assignment → Reply × List Assignment
  | next, items => (.item items.head?, items.tail)
  | nth k, items => (.item items[k]?, items.drop (k + 1))
  | len, items => (.count items.length, items)
  | bounds, items => (.bounds items.length items.length, items)

/-- The reply of a cursor, and the place behind it. -/
def ofCursor : Call → Cursor → Reply × Cursor
  | next, c => (.item c.next.1, c.next.2)
  | nth k, c => (.item (c.nth k).1, (c.nth k).2)
  | len, c => (.count c.remaining, c)
  | bounds, c => (.bounds c.bounds.1 c.bounds.2, c)

/-- The number of items that are asked for. -/
def takes : Call → Nat
  | next => 1
  | nth k => k + 1
  | len => 0
  | bounds => 0

/-- The reply about the first `rows` codes for the names of `t` when `taken` items were asked for
before. -/
def behind (t : NameTable) (rows taken : Nat) : Call → Reply
  | next => .item (if taken < rows then some (t.assignment taken) else none)
  | nth k => .item (if taken + k < rows then some (t.assignment (taken + k)) else none)
  | len => .count (rows - taken)
  | bounds => .bounds (rows - taken) (rows - taken)

end Call

/-- The number of items that some calls ask for. -/
def taken : List Call → Nat
  | [] => 0
  | call :: calls => call.takes + taken calls

/-- The replies to calls that are made one after the other. -/
def repliesBy {σ : Type} (step : Call → σ → Reply × σ) : List Call → σ → List Reply
  | [], _ => []
  | call :: calls, s => (step call s).1 :: repliesBy step calls (step call s).2

@[simp] theorem repliesBy_nil {σ : Type} (step : Call → σ → Reply × σ) (s : σ) :
    repliesBy step [] s = [] := rfl

@[simp] theorem repliesBy_cons {σ : Type} (step : Call → σ → Reply × σ) (call : Call)
    (calls : List Call) (s : σ) :
    repliesBy step (call :: calls) s = (step call s).1 :: repliesBy step calls (step call s).2 :=
  rfl

/-! ### The items that are left -/

namespace Cursor

theorem drain_start (t : NameTable) (w : BitWidth) : (start t w).drain.1 = t.assignments w := by
  rw [NameTable.assignments, List.range_eq_range']
  rfl

@[simp] theorem length_drain (c : Cursor) : c.drain.1.length = c.remaining := by
  simp [drain]

/-- The next item is the first of those that are left, and leaves the others. -/
theorem drain_next (c : Cursor) :
    c.next.1 = c.drain.1.head? ∧ c.next.2.drain.1 = c.drain.1.tail := by
  rcases Nat.lt_or_ge c.code c.stop with hlt | hle
  · have hleft : c.remaining = (c.stop - (c.code + 1)) + 1 := by
      simp only [remaining]
      omega
    rw [next_of_lt hlt]
    simp only [drain, hleft, List.range'_succ]
    exact ⟨rfl, rfl⟩
  · have hleft : c.remaining = 0 := Nat.sub_eq_zero_of_le hle
    rw [next_of_le hle]
    simp only [drain, hleft]
    exact ⟨rfl, rfl⟩

/-- Skipping codes gives up the items in front. -/
theorem drain_skip (c : Cursor) (k : Nat) : (c.skip k).drain.1 = c.drain.1.drop k := by
  simp only [drain, remaining_skip, ← List.map_drop, List.drop_range']
  simp only [skip, remaining, Nat.mul_one]
  rcases Nat.le_total (c.code + k) c.stop with h | h
  · rw [Nat.min_eq_left h]
  · have hnone : c.stop - c.code - k = 0 := by omega
    rw [hnone]
    rfl

/-- So the item behind `k` others is found behind them in the list. -/
theorem drain_nth (c : Cursor) (k : Nat) :
    (c.nth k).1 = c.drain.1[k]? ∧ (c.nth k).2.drain.1 = c.drain.1.drop (k + 1) := by
  obtain ⟨hitem, hleft⟩ := (c.skip k).drain_next
  rw [drain_skip] at hitem hleft
  rw [List.head?_drop] at hitem
  rw [List.tail_drop] at hleft
  exact ⟨hitem, hleft⟩

end Cursor

/-- A cursor replies to a call as the list of the items that are left, and leaves the same. -/
theorem Call.ofCursor_eq (call : Call) (c : Cursor) :
    (call.ofCursor c).1 = (call.ofList c.drain.1).1 ∧
      (call.ofCursor c).2.drain.1 = (call.ofList c.drain.1).2 := by
  cases call with
  | next =>
      obtain ⟨hitem, hleft⟩ := c.drain_next
      exact ⟨congrArg Reply.item hitem, hleft⟩
  | nth k =>
      obtain ⟨hitem, hleft⟩ := c.drain_nth k
      exact ⟨congrArg Reply.item hitem, hleft⟩
  | len => exact ⟨congrArg Reply.count c.length_drain.symm, rfl⟩
  | bounds =>
      refine ⟨?_, rfl⟩
      simp only [ofCursor, ofList, Cursor.bounds, Cursor.length_drain]

/-- And so to a sequence of calls. -/
theorem repliesBy_ofCursor (calls : List Call) (c : Cursor) :
    repliesBy Call.ofCursor calls c = repliesBy Call.ofList calls c.drain.1 := by
  induction calls generalizing c with
  | nil => rfl
  | cons call calls ih =>
      obtain ⟨hreply, hleft⟩ := call.ofCursor_eq c
      rw [repliesBy_cons, repliesBy_cons, ih, hreply, hleft]

/-! ### What a list replies -/

section list

variable {items : List Assignment} {calls : List Call}

/-- The item of a reply stands before those that are left. -/
theorem Call.item?_ofList_sublist (call : Call) (items : List Assignment) :
    ((call.ofList items).1.item?.toList ++ (call.ofList items).2).Sublist items := by
  cases call with
  | next => cases items <;> simp [ofList, Reply.item?]
  | nth k =>
      have hdrop : items[k]?.toList ++ items.drop (k + 1) = items.drop k := by
        rw [← List.head?_drop, ← List.tail_drop]
        cases items.drop k <;> rfl
      change (items[k]?.toList ++ items.drop (k + 1)).Sublist items
      rw [hdrop]
      exact List.drop_sublist k items
  | len => exact List.Sublist.refl items
  | bounds => exact List.Sublist.refl items

theorem yielded_cons (reply : Reply) (replies : List Reply) :
    yielded (reply :: replies) = reply.item?.toList ++ yielded replies := by
  unfold yielded
  cases h : reply.item? with
  | none => rw [List.filterMap_cons_none h]; rfl
  | some found => rw [List.filterMap_cons_some h]; rfl

/-- The items that are taken come in the order of the list. -/
theorem yielded_repliesBy_sublist (calls : List Call) (items : List Assignment) :
    (yielded (repliesBy Call.ofList calls items)).Sublist items := by
  induction calls generalizing items with
  | nil => exact List.nil_sublist items
  | cons call calls ih =>
      rw [repliesBy_cons, yielded_cons]
      exact ((ih _).append_left _).trans (call.item?_ofList_sublist items)

/-- Without items there is no item, and none are left. -/
theorem Call.tellsEnd_ofList_nil (call : Call) :
    (call.ofList []).1.TellsEnd ∧ (call.ofList []).2 = [] := by
  cases call with
  | next => exact ⟨rfl, rfl⟩
  | nth k => exact ⟨List.getElem?_nil, List.drop_nil⟩
  | len => exact ⟨rfl, rfl⟩
  | bounds => exact ⟨⟨rfl, rfl⟩, rfl⟩

theorem tellsEnd_of_mem_repliesBy_nil {reply : Reply}
    (h : reply ∈ repliesBy Call.ofList calls []) : reply.TellsEnd := by
  induction calls with
  | nil => simp at h
  | cons call calls ih =>
      obtain ⟨htells, hleft⟩ := call.tellsEnd_ofList_nil
      rw [repliesBy_cons, hleft, List.mem_cons] at h
      rcases h with rfl | h
      · exact htells
      · exact ih h

/-- Where an item is missing, nothing is left. -/
theorem Call.ofList_eq_nil {call : Call} (h : (call.ofList items).1 = .item none) :
    (call.ofList items).2 = [] := by
  cases call with
  | next =>
      have hhead : items.head? = none := Reply.item.inj h
      rw [List.head?_eq_none_iff] at hhead
      rw [hhead]
      rfl
  | nth k =>
      have hitem : items[k]? = none := Reply.item.inj h
      rw [List.getElem?_eq_none_iff] at hitem
      exact List.drop_of_length_le (Nat.le_succ_of_le hitem)
  | len => simp [ofList] at h
  | bounds => simp [ofList] at h

/-- Once an item was missing, all later replies tell the end. -/
theorem tellsEnd_of_repliesBy_eq {before after : List Reply}
    (h : repliesBy Call.ofList calls items = before ++ .item none :: after) :
    ∀ reply ∈ after, reply.TellsEnd := by
  induction calls generalizing items before with
  | nil => simp at h
  | cons call calls ih =>
      rw [repliesBy_cons] at h
      cases before with
      | nil =>
          obtain ⟨hnone, hafter⟩ := List.cons.inj h
          rw [Call.ofList_eq_nil hnone] at hafter
          intro reply hreply
          rw [← hafter] at hreply
          exact tellsEnd_of_mem_repliesBy_nil hreply
      | cons reply before => exact ih (List.cons.inj h).2

/-- A call takes away as many items as it asks for. -/
theorem Call.ofList_eq_drop (call : Call) (items : List Assignment) :
    (call.ofList items).2 = items.drop call.takes := by
  cases call with
  | next => exact List.drop_one.symm
  | nth k => rfl
  | len => rfl
  | bounds => rfl

/-- Each reply depends on the number of items that were asked for before. -/
theorem getElem?_repliesBy_ofList {i : Nat} {call : Call} (h : calls[i]? = some call) :
    (repliesBy Call.ofList calls items)[i]? =
      some (call.ofList (items.drop (taken (calls.take i)))).1 := by
  induction calls generalizing items i with
  | nil => simp at h
  | cons first calls ih =>
      cases i with
      | zero =>
          rw [List.getElem?_cons_zero, Option.some.injEq] at h
          rw [repliesBy_cons, List.getElem?_cons_zero, h]
          rfl
      | succ i =>
          rw [List.getElem?_cons_succ] at h
          rw [repliesBy_cons, List.getElem?_cons_succ, ih h, first.ofList_eq_drop, List.drop_drop,
            List.take_succ_cons]
          rfl

end list

/-- What a list replies about the codes of a width behind those that were asked for. -/
theorem Call.ofList_assignments (call : Call) (t : NameTable) (w : BitWidth) (taken : Nat) :
    (call.ofList ((t.assignments w).drop taken)).1 = call.behind t w.rows taken := by
  have hitem : ∀ code, (t.assignments w)[code]? =
      if code < w.rows then some (t.assignment code) else none := by
    intro code
    rw [NameTable.assignments, List.getElem?_map]
    split
    · next hlt => rw [List.getElem?_range hlt, Option.map_some]
    · next hge =>
        rw [List.getElem?_eq_none (by simpa using hge), Option.map_none]
  cases call with
  | next => simp only [ofList, behind, List.head?_drop, hitem]
  | nth k => simp only [ofList, behind, List.getElem?_drop, hitem]
  | len => simp only [ofList, behind, List.length_drop, NameTable.length_assignments]
  | bounds => simp only [ofList, behind, List.length_drop, NameTable.length_assignments]

/-- The codes of a width come in increasing order. -/
theorem NameTable.pairwise_assignments (t : NameTable) (w : BitWidth) :
    ((t.assignments w).map Assignment.code).Pairwise (· < ·) := by
  have hcodes : (t.assignments w).map Assignment.code = List.range w.rows := by
    rw [assignments, List.map_map]
    exact List.map_id _
  rw [hcodes]
  exact List.pairwise_lt_range

/-! ### Replies with every step checked -/

namespace Checked

/-- The codes from one number up to another, to be taken in order. -/
structure Span where
  /-- The names that get values. -/
  names : List Name
  /-- The code that is taken next. -/
  code : Nat
  /-- The first code that is not taken any more. -/
  stop : Nat

namespace Span

/-- Takes the next item and raises the code. -/
def next (x : Span) : Except Breach (Option Assignment × Span) :=
  if x.stop ≤ x.code then return (none, x)
  else do
    require (x.code + 1 < 2 ^ wordBits) .codeTooLarge
    let b ← bindFrom x.code 0 .empty x.names
    return (some ⟨x.code, b⟩, ⟨x.names, x.code + 1, x.stop⟩)

theorem next_of_lt {x : Span} {b : Bindings} (h : x.code < x.stop) (hword : x.code + 1 < 2 ^ wordBits)
    (hbind : bindFrom x.code 0 .empty x.names = .ok b) :
    x.next = .ok (some ⟨x.code, b⟩, ⟨x.names, x.code + 1, x.stop⟩) := by
  rw [next, if_neg (Nat.not_le.2 h), require_eq_ok hword, hbind]
  rfl

theorem next_of_le {x : Span} (h : x.stop ≤ x.code) : x.next = .ok (none, x) := if_pos h

/-- Takes items one after the other until `k` are given up, and then one more; at the end it stops
asking. -/
def nth (x : Span) : Nat → Except Breach (Option Assignment × Span)
  | 0 => x.next
  | k + 1 => do
      match ← x.next with
      | (none, y) => return (none, y)
      | (some _, y) => y.nth k

/-- The number of codes that have not been taken. -/
def left (x : Span) : Except Breach Nat := do
  require (x.code ≤ x.stop) .countBelowZero
  return x.stop - x.code

theorem left_of_le {x : Span} (h : x.code ≤ x.stop) : x.left = .ok (x.stop - x.code) := by
  rw [left, require_eq_ok h]
  rfl

/-- The reply to a call, and the codes that are left. -/
def ask : Call → Span → Except Breach (Reply × Span)
  | .next, x => do
      let (found, y) ← x.next
      return (.item found, y)
  | .nth k, x => do
      let (found, y) ← x.nth k
      return (.item found, y)
  | .len, x => do
      let left ← x.left
      return (.count left, x)
  | .bounds, x => do
      let left ← x.left
      return (.bounds left left, x)

/-- The replies to calls that are made one after the other. -/
def replies : List Call → Span → Except Breach (List Reply)
  | [], _ => return []
  | call :: calls, x => do
      let (reply, y) ← ask call x
      let rest ← replies calls y
      return reply :: rest

end Span

/-- The replies to calls about all codes of a width. -/
def replies (names : List Name) (w : BitWidth) (calls : List Call) : Except Breach (List Reply) := do
  require (w.bits < wordBits) .shiftTooFar
  Span.replies calls ⟨names, 0, 1 <<< w.bits⟩

/-- The codes that a cursor has not taken, as two numbers. -/
def span (c : Cursor) : Span := ⟨c.table.names, c.code, c.stop⟩

/-- The names and codes fit into words. -/
structure Fits (c : Cursor) : Prop where
  size_le : c.table.size ≤ wordBits
  stop_lt : c.stop < 2 ^ wordBits

theorem Fits.next {c : Cursor} (h : Fits c) : Fits c.next.2 := by
  rcases Nat.lt_or_ge c.code c.stop with hlt | hle
  · rw [Cursor.next_of_lt hlt]
    exact ⟨h.size_le, h.stop_lt⟩
  · rw [Cursor.next_of_le hle]
    exact h

theorem Fits.ofCursor {c : Cursor} (h : Fits c) (call : Call) : Fits (call.ofCursor c).2 := by
  cases call with
  | next => exact h.next
  | nth k =>
      have hskip : Fits (c.skip k) := ⟨h.size_le, h.stop_lt⟩
      exact hskip.next
  | len => exact h
  | bounds => exact h

namespace Span

theorem next_span {c : Cursor} (h : Fits c) : (span c).next = .ok (c.next.1, span c.next.2) := by
  rcases Nat.lt_or_ge c.code c.stop with hlt | hle
  · have hword : c.code + 1 < 2 ^ wordBits := Nat.lt_of_le_of_lt hlt h.stop_lt
    rw [Cursor.next_of_lt hlt]
    exact next_of_lt (x := span c) hlt hword (bindFrom_names h.size_le c.code)
  · rw [Cursor.next_of_le hle]
    exact next_of_le (x := span c) hle

/-- Items that are given up one after the other are skipped. -/
theorem nth_span {c : Cursor} (h : Fits c) (k : Nat) :
    (span c).nth k = .ok ((c.nth k).1, span (c.nth k).2) := by
  induction k generalizing c with
  | zero => rw [nth, Cursor.nth_zero, next_span h]
  | succ k ih =>
      rw [nth, next_span h]
      rcases Nat.lt_or_ge c.code c.stop with hlt | hle
      · rw [Cursor.nth_succ_of_lt hlt, ← ih h.next]
        rw [Cursor.next_of_lt hlt]
        rfl
      · rw [Cursor.nth_of_le hle, Cursor.next_of_le hle]
        rfl

theorem left_span (c : Cursor) : (span c).left = .ok c.remaining :=
  left_of_le (x := span c) c.code_le_stop

/-- No step lacks its condition, and the reply is that of the cursor. -/
theorem ask_span {c : Cursor} (h : Fits c) (call : Call) :
    ask call (span c) = .ok ((call.ofCursor c).1, span (call.ofCursor c).2) := by
  cases call with
  | next => rw [ask, next_span h]; rfl
  | nth k => rw [ask, nth_span h]; rfl
  | len => rw [ask, left_span]; rfl
  | bounds => rw [ask, left_span]; rfl

theorem replies_span {c : Cursor} (h : Fits c) (calls : List Call) :
    replies calls (span c) = .ok (repliesBy Call.ofCursor calls c) := by
  induction calls generalizing c with
  | nil => rfl
  | cons call calls ih =>
      have hrest := ih (h.ofCursor call)
      rw [replies, ask_span h]
      change replies calls (span (call.ofCursor c).2) >>= _ = _
      rw [hrest]
      rfl

end Span

/-- Whatever is asked about the codes of a width, no step lacks its condition. -/
theorem replies_eq_ok {t : NameTable} (h : t.size ≤ wordBits) (w : BitWidth) (calls : List Call) :
    replies t.names w calls = .ok (repliesBy Call.ofCursor calls (.start t w)) := by
  have hbits := bits_lt_wordBits w
  have hstop : w.rows < 2 ^ wordBits := Nat.pow_lt_pow_right (by decide) hbits
  have hrows : 1 <<< w.bits = w.rows := Nat.one_shiftLeft _
  rw [replies, require_eq_ok hbits, hrows]
  exact Span.replies_span (c := .start t w) ⟨h, hstop⟩ calls

end Checked

/-! ### All replies -/

/-- **A cursor replies as the list of its items.**  Over at most 32 names it gives to any calls the
replies of the list of all codes of a width with their values, from which items are taken in front;
and so does a span, none of whose steps lacks its condition.  The codes that are given
out increase.  Once an item was missing, no later call gives one, and nothing is left.  Each reply is
known from the number of items that were asked for before: these are taken from the codes in front,
as far as there are so many, and the others are counted. -/
theorem Cursor.replies_of_calls {t : NameTable} (h : t.size ≤ 32) (w : BitWidth)
    (calls : List Call) :
    let items := (List.range (2 ^ w.bits)).map fun code => Assignment.mk code (t.bind code)
    let replies := repliesBy Call.ofCursor calls (start t w)
    replies = repliesBy Call.ofList calls items ∧
    Checked.replies t.names w calls = .ok replies ∧
    ((yielded replies).map Assignment.code).Pairwise (· < ·) ∧
    (∀ before after, replies = before ++ .item none :: after →
      ∀ reply ∈ after, reply.TellsEnd) ∧
    ∀ (i : Nat) (call : Call), calls[i]? = some call →
      replies[i]? = some (call.behind t (2 ^ w.bits) (taken (calls.take i))) := by
  intro items replies
  have hreplies : replies = repliesBy Call.ofList calls (t.assignments w) := by
    rw [← drain_start]
    exact repliesBy_ofCursor calls (start t w)
  refine ⟨hreplies, Checked.replies_eq_ok h w calls, ?_, ?_, ?_⟩
  · rw [hreplies]
    exact t.pairwise_assignments w |>.sublist ((yielded_repliesBy_sublist calls _).map _)
  · intro before after hnone
    exact tellsEnd_of_repliesBy_eq (hreplies.symm.trans hnone)
  · intro i call hcall
    rw [hreplies, getElem?_repliesBy_ofList hcall, call.ofList_assignments]
    rfl

/-- Of the four codes of width two, over the names `c` and `a`, one is taken and one given up, and
what is asked for beyond the last is not there. -/
theorem Cursor.replies_of_calls_beyond_end :
    let t := NameTable.ofList [⟨.ofChars 'c' [], 0⟩, ⟨.ofChars 'a' [], 1⟩, ⟨.ofChars 'c' [], 2⟩]
    let w : BitWidth := ⟨2, by decide⟩
    t.size ≤ 32 ∧
    Checked.replies t.names w [.len, .next, .nth 1, .bounds, .nth 9, .next, .len] =
      .ok [.count 4, .item (some (t.assignment 0)), .item (some (t.assignment 2)), .bounds 1 1,
        .item none, .item none, .count 0] := by
  intro t w
  have hsize : t.size ≤ 32 := by decide
  obtain ⟨hlist, hchecked, -⟩ := replies_of_calls hsize w
    [.len, .next, .nth 1, .bounds, .nth 9, .next, .len]
  refine ⟨hsize, ?_⟩
  rw [hchecked, hlist]
  rfl

end BoolLut
