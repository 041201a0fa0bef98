/-
**Values given to names.**

Bindings record a truth value for some texts.  Giving a text a value again replaces the value it
had, and a text that never got one counts as false.  Two bindings are the same when every text has
the same value, or none, in both; in which order the values were given does not show.

Main definitions:

* `BoolLut.Bindings` — values for pairwise different texts;
* `BoolLut.Bindings.set`, `BoolLut.Bindings.ofList` — one more value, and all of a list;
* `BoolLut.Bindings.get?`, `BoolLut.Bindings.value` — the value of a text, if it has one, and with
  false as the value of all other texts;
* `BoolLut.Bindings.same` — whether two bindings give the same values.

Main results:

* `BoolLut.Bindings.get?_set` — **the last value counts**: a text has the value it was given last;
* `BoolLut.Bindings.same_iff` — two bindings are the same exactly when every look-up in them is.
-/

set_option relaxedAutoImplicit false
set_option autoImplicit false

namespace BoolLut

/-- Truth values for some texts. -/
structure Bindings where
  /-- The texts with their values, the one that was set last in front. -/
  pairs : List (String × Bool)
  /-- No text has two values. -/
  texts_nodup : (pairs.map Prod.fst).Nodup

namespace Bindings

/-- No text has a value. -/
def empty : Bindings := ⟨[], by simp⟩

instance : Inhabited Bindings := ⟨empty⟩

/-- Gives `text` the value `value`, in place of the one it may have had. -/
def set (b : Bindings) (text : String) (value : Bool) : Bindings where
  pairs := (text, value) :: b.pairs.filter fun p => p.1 ≠ text
  texts_nodup := by
    rw [List.map_cons, List.nodup_cons]
    constructor
    · simp
    · exact (List.filter_sublist.map Prod.fst).nodup b.texts_nodup

/-- The values of a list, given in order. -/
def ofList (pairs : List (String × Bool)) : Bindings :=
  pairs.foldl (fun b p => b.set p.1 p.2) empty

/-- The number of texts that have a value. -/
def size (b : Bindings) : Nat := b.pairs.length

/-- Whether no text has a value. -/
def isEmpty (b : Bindings) : Bool := b.pairs.isEmpty

/-! ### Looking up -/

/-- The value of `text`, if it has one. -/
def get? (b : Bindings) (text : String) : Option Bool := b.pairs.lookup text

/-- The value of `text`; false if it has none. -/
def value (b : Bindings) (text : String) : Bool := (b.get? text).getD false

@[simp] theorem get?_empty (text : String) : empty.get? text = none := rfl

theorem lookup_filter_ne {text other : String} (h : other ≠ text) (pairs : List (String × Bool)) :
    (pairs.filter fun p => p.1 ≠ text).lookup other = pairs.lookup other := by
  induction pairs with
  | nil => rfl
  | cons p pairs ih =>
      obtain ⟨t, v⟩ := p
      by_cases ht : t = text
      · have hne : (other == t) = false := by simpa [ht] using h
        rw [List.filter_cons_of_neg (by simpa using ht), List.lookup_cons, hne]
        exact ih
      · rw [List.filter_cons_of_pos (by simpa using ht), List.lookup_cons, List.lookup_cons, ih]

/-- A text has the value it was given last. -/
theorem get?_set (b : Bindings) (text : String) (value : Bool) (other : String) :
    (b.set text value).get? other = if other = text then some value else b.get? other := by
  by_cases h : other = text
  · simp [get?, set, h]
  · have hne : (other == text) = false := by simpa using h
    simp only [get?, set, List.lookup_cons, hne, h, if_false]
    exact lookup_filter_ne h b.pairs

@[simp] theorem value_set_self (b : Bindings) (text : String) (v : Bool) :
    (b.set text v).value text = v := by
  simp [value, get?_set]

/-! ### Sameness -/

/-- Whether two bindings give the same values to the same texts. -/
def same (a b : Bindings) : Bool :=
  a.pairs.all (fun p => b.get? p.1 == some p.2) && b.pairs.all fun p => a.get? p.1 == some p.2

instance : BEq Bindings := ⟨same⟩

/-- What is listed is found, since no text is listed twice. -/
theorem get?_eq_some_iff {b : Bindings} {text : String} {value : Bool} :
    b.get? text = some value ↔ (text, value) ∈ b.pairs := by
  obtain ⟨pairs, hnodup⟩ := b
  simp only [get?]
  induction pairs with
  | nil => simp
  | cons p pairs ih =>
      obtain ⟨t, v⟩ := p
      simp only [List.map_cons, List.nodup_cons] at hnodup
      by_cases h : text = t
      · subst h
        simp only [List.lookup_cons_self, Option.some.injEq, List.mem_cons, Prod.mk.injEq,
          true_and]
        constructor
        · intro hv
          exact .inl hv.symm
        · rintro (hv | hmem)
          · exact hv.symm
          · exact absurd (List.mem_map_of_mem (f := Prod.fst) hmem) hnodup.1
      · have hne : (text == t) = false := by simpa using h
        simp only [List.lookup_cons, hne, List.mem_cons, Prod.mk.injEq, h, false_and, false_or]
        exact ih hnodup.2

/-- Two bindings are the same exactly when every look-up in them is. -/
theorem same_iff {a b : Bindings} : a.same b = true ↔ ∀ text, a.get? text = b.get? text := by
  simp only [same, Bool.and_eq_true, List.all_eq_true, beq_iff_eq]
  constructor
  · rintro ⟨hab, hba⟩ text
    cases ha : a.get? text with
    | some v => exact (hab _ (get?_eq_some_iff.1 ha)).symm
    | none =>
        cases hb : b.get? text with
        | none => rfl
        | some v =>
            have := hba _ (get?_eq_some_iff.1 hb)
            rw [ha] at this
            simp at this
  · intro h
    constructor
    · intro p hp
      rw [← h]
      exact get?_eq_some_iff.2 hp
    · intro p hp
      rw [h]
      exact get?_eq_some_iff.2 hp

end Bindings

end BoolLut
