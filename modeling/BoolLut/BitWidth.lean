/-
**How many bits a code has.**

A truth table is numbered by codes that have a bit for each name.  A table may have at most four
names.  Its codes have either exactly one bit for each of them, or a number of bits snapped up to
one of the buckets zero, two and four; the bits beyond the last name then carry no meaning.

Main definitions:

* `BoolLut.maxNames` — the largest number of names a truth table is made for;
* `BoolLut.TooManyNames` — a number of names beyond the limit;
* `BoolLut.WidthPolicy` — one bit a name, or the bucket that holds them all;
* `BoolLut.BitWidth` — a number of bits within the limit, and `BoolLut.BitWidth.rows`, how many
  codes it allows;
* `BoolLut.BitWidth.ofCount` — the width for a number of names.

Main results:

* `BoolLut.BitWidth.ofCount_eq_error_iff` — there is no width exactly when there are too many names;
* `BoolLut.BitWidth.le_of_ofCount` — a width has a bit for each name.
-/

set_option relaxedAutoImplicit false
set_option autoImplicit false

namespace BoolLut

/-- The largest number of names a truth table is made for. -/
def maxNames : Nat := 4

/-- There are more names than a truth table is made for. -/
structure TooManyNames where
  /-- The number of names. -/
  found : Nat
  /-- The largest number that would do. -/
  limit : Nat := maxNames
deriving DecidableEq, Repr

/-- The refusal in words. -/
def TooManyNames.message (e : TooManyNames) : String :=
  "More than " ++ toString e.limit ++ " identifiers not supported yet (found " ++
    toString e.found ++ ")"

/-- How the width of codes follows from the number of names. -/
inductive WidthPolicy where
  /-- No bits for no names, two for up to two, and four for up to four. -/
  | snapped
  /-- One bit for each name. -/
  | exact
deriving DecidableEq, Repr

namespace WidthPolicy

/-- Widths are snapped unless exact ones are asked for. -/
def default : WidthPolicy := snapped

instance : Inhabited WidthPolicy := ⟨default⟩

/-- The number of bits for `n` names, if `n` is within the limit. -/
def bits : WidthPolicy → Nat → Nat
  | snapped, n => if n = 0 then 0 else if n ≤ 2 then 2 else 4
  | exact, n => n

theorem le_bits {policy : WidthPolicy} {n : Nat} (h : n ≤ maxNames) : n ≤ policy.bits n := by
  simp only [maxNames] at h
  cases policy with
  | snapped => simp only [bits]; split <;> (try split) <;> omega
  | exact => exact Nat.le_refl n

theorem bits_le {policy : WidthPolicy} {n : Nat} (h : n ≤ maxNames) : policy.bits n ≤ maxNames := by
  simp only [maxNames] at h ⊢
  cases policy with
  | snapped => simp only [bits]; split <;> (try split) <;> omega
  | exact => exact h

end WidthPolicy

/-- The number of bits of a code. -/
@[ext] structure BitWidth where
  /-- The number itself. -/
  bits : Nat
  /-- No code has more bits than there may be names. -/
  bits_le : bits ≤ maxNames
deriving DecidableEq

namespace BitWidth

/-- The number of codes of a width. -/
def rows (w : BitWidth) : Nat := Nat.pow 2 w.bits

/-- A width in digits. -/
def text (w : BitWidth) : String := toString w.bits

/-- The width for `n` names. -/
def ofCount (n : Nat) (policy : WidthPolicy) : Except TooManyNames BitWidth :=
  if h : n ≤ maxNames then .ok ⟨policy.bits n, WidthPolicy.bits_le h⟩
  else .error ⟨n, maxNames⟩

/-- There is no width exactly when there are too many names, and the refusal tells how many. -/
theorem ofCount_eq_error_iff {n : Nat} {policy : WidthPolicy} {e : TooManyNames} :
    ofCount n policy = .error e ↔ maxNames < n ∧ e = ⟨n, maxNames⟩ := by
  unfold ofCount
  split
  · next h => simp only [reduceCtorEq, false_iff, not_and]; omega
  · next h =>
      simp only [Except.error.injEq]
      constructor
      · rintro rfl
        exact ⟨by omega, rfl⟩
      · rintro ⟨-, rfl⟩
        rfl

theorem bits_of_ofCount {n : Nat} {policy : WidthPolicy} {w : BitWidth}
    (h : ofCount n policy = .ok w) : w.bits = policy.bits n := by
  unfold ofCount at h
  split at h
  · simp only [Except.ok.injEq] at h
    rw [← h]
  · simp at h

/-- A width has a bit for each name. -/
theorem le_of_ofCount {n : Nat} {policy : WidthPolicy} {w : BitWidth}
    (h : ofCount n policy = .ok w) : n ≤ w.bits := by
  have hn : n ≤ maxNames := by
    refine Nat.le_of_not_lt fun hlt => ?_
    rw [ofCount_eq_error_iff.2 ⟨hlt, rfl⟩] at h
    simp at h
  rw [bits_of_ofCount h]
  exact WidthPolicy.le_bits hn

end BitWidth

end BoolLut
