/-
**Codes and the values they give.**

A code is a number whose bits are values: bit `j` belongs to the `j`-th name of a table.  The codes
of a width, in increasing order, are walked through by a cursor, which gives one code with its
values at a time and can skip ahead.

Main definitions:

* `BoolLut.NameTable.bind` — the values that a code gives to the names of a table;
* `BoolLut.Assignment` — a code with the values it gives;
* `BoolLut.NameTable.assignments` — all codes of a width with their values, in increasing order;
* `BoolLut.Cursor` — the part of that list that has not been taken yet;
* `BoolLut.Cursor.next`, `BoolLut.Cursor.nth`, `BoolLut.Cursor.drain` — taking the next item, one
  further on, and all that are left.

Main results:

* `BoolLut.NameTable.length_assignments` — there are as many items as the width has codes;
* `BoolLut.Cursor.remaining_next` — taking an item leaves one less, until there are none.
-/

import BoolLut.Bindings
import BoolLut.BitWidth
import BoolLut.NameTable

set_option relaxedAutoImplicit false
set_option autoImplicit false

namespace BoolLut

/-- The values that `code` gives to the names of a table: the `j`-th name has bit `j`. -/
def NameTable.bind (t : NameTable) (code : Nat) : Bindings :=
  .ofList (t.names.mapIdx fun j name => (name.text, code.testBit j))

/-- A code and the values it gives. -/
structure Assignment where
  /-- The code. -/
  code : Nat
  /-- The value of each name. -/
  bindings : Bindings

/-- What `code` gives to the names of a table. -/
def NameTable.assignment (t : NameTable) (code : Nat) : Assignment := ⟨code, t.bind code⟩

/-- All codes of a width with the values they give to the names of a table. -/
def NameTable.assignments (t : NameTable) (w : BitWidth) : List Assignment :=
  (List.range w.rows).map t.assignment

@[simp] theorem NameTable.length_assignments (t : NameTable) (w : BitWidth) :
    (t.assignments w).length = w.rows := by
  simp [assignments]

/-! ### Walking through the codes -/

/-- A place among the codes of a width. -/
structure Cursor where
  /-- The names that get values. -/
  table : NameTable
  /-- The code that is taken next. -/
  code : Nat
  /-- The first code that is not taken any more. -/
  stop : Nat
  /-- No code beyond the last is waiting. -/
  code_le_stop : code ≤ stop

namespace Cursor

/-- The place before code zero. -/
def start (t : NameTable) (w : BitWidth) : Cursor := ⟨t, 0, w.rows, Nat.zero_le _⟩

/-- The number of codes that have not been taken. -/
def remaining (c : Cursor) : Nat := c.stop - c.code

/-- What is known in advance of the number of codes to come: at least so many, and at most. -/
def bounds (c : Cursor) : Nat × Nat := (c.remaining, c.remaining)

/-- The next item, if there is one, and the place behind it. -/
def next (c : Cursor) : Option Assignment × Cursor :=
  if h : c.code < c.stop then (some (c.table.assignment c.code), ⟨c.table, c.code + 1, c.stop, h⟩)
  else (none, c)

/-- The place `k` codes further on, or the end if there are not so many. -/
def skip (c : Cursor) (k : Nat) : Cursor :=
  ⟨c.table, min (c.code + k) c.stop, c.stop, Nat.min_le_right _ _⟩

/-- The item after the next `k`, which are given up. -/
def nth (c : Cursor) (k : Nat) : Option Assignment × Cursor := (c.skip k).next

/-- All items that are left, and the end. -/
def drain (c : Cursor) : List Assignment × Cursor :=
  ((List.range' c.code c.remaining).map c.table.assignment, c.skip c.remaining)

@[simp] theorem remaining_start (t : NameTable) (w : BitWidth) :
    (start t w).remaining = w.rows := rfl

/-- An item is taken while there are codes that have not been taken. -/
theorem next_of_lt {c : Cursor} (h : c.code < c.stop) :
    c.next = (some (c.table.assignment c.code), ⟨c.table, c.code + 1, c.stop, h⟩) := dif_pos h

theorem next_of_le {c : Cursor} (h : c.stop ≤ c.code) : c.next = (none, c) :=
  dif_neg (Nat.not_lt.2 h)

/-- Taking an item leaves one less, until there are none. -/
@[simp] theorem remaining_next (c : Cursor) : c.next.2.remaining = c.remaining - 1 := by
  unfold next
  split
  · simp only [remaining]; omega
  · simp only [remaining]; omega

@[simp] theorem remaining_skip (c : Cursor) (k : Nat) :
    (c.skip k).remaining = c.remaining - k := by
  simp only [remaining, skip]
  omega

/-- Where nothing is given up, the next item is taken. -/
theorem nth_zero (c : Cursor) : c.nth 0 = c.next := by
  obtain ⟨t, code, stop, hle⟩ := c
  simp only [nth, skip, Nat.add_zero, Nat.min_eq_left hle]

/-- Of the items that are given up the next one is the first. -/
theorem nth_succ_of_lt {c : Cursor} (h : c.code < c.stop) (k : Nat) :
    c.nth (k + 1) = c.next.2.nth k := by
  have hcode : c.code + (k + 1) = c.code + 1 + k := by omega
  simp only [next_of_lt h, nth, skip, hcode]

theorem nth_of_le {c : Cursor} (h : c.stop ≤ c.code) (k : Nat) : c.nth k = (none, c) := by
  obtain ⟨t, code, stop, hle⟩ := c
  obtain rfl : code = stop := Nat.le_antisymm hle h
  have hmin : min (code + k) code = code := Nat.min_eq_right (Nat.le_add_right _ _)
  simp only [nth, skip, hmin]
  exact next_of_le (Nat.le_refl _)

/-- There is a next item exactly when some code has not been taken. -/
theorem isSome_next_iff (c : Cursor) : c.next.1.isSome ↔ 0 < c.remaining := by
  unfold next
  split
  · simp only [Option.isSome_some, remaining, true_iff]; omega
  · simp only [Option.isSome_none, Bool.false_eq_true, remaining, false_iff]; omega

end Cursor

end BoolLut
