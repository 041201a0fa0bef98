/-
**The number of bytes that a text occupies.**

Places in a formula are counted in bytes of its UTF-8 form, so that a character outside ASCII moves
everything behind it by two, three or four.  The functions that read a formula work on lists of
characters; this module counts the bytes of such a list.

Main definitions:

* `BoolLut.byteLength` — the number of bytes of a list of characters.

Main results:

* `BoolLut.byteLength_append` — bytes add up along a text;
* `BoolLut.byteLength_toList` — the characters of a string occupy as many bytes as the string;
* `BoolLut.append_inj_of_byteLength` — a text is divided in one way only at a given byte.
-/

set_option relaxedAutoImplicit false
set_option autoImplicit false

namespace BoolLut

/-- The number of bytes of `cs` in UTF-8. -/
def byteLength (cs : List Char) : Nat := (String.ofList cs).utf8ByteSize

@[simp] theorem byteLength_nil : byteLength [] = 0 := by
  simp [byteLength]

/-- Bytes add up along a text. -/
@[simp] theorem byteLength_append (cs ds : List Char) :
    byteLength (cs ++ ds) = byteLength cs + byteLength ds := by
  simp [byteLength, String.ofList_append]

@[simp] theorem byteLength_cons (c : Char) (cs : List Char) :
    byteLength (c :: cs) = c.utf8Size + byteLength cs := by
  rw [show c :: cs = [c] ++ cs from rfl, byteLength_append]
  simp [byteLength]

/-- The characters of a string occupy as many bytes as the string. -/
theorem byteLength_toList (s : String) : byteLength s.toList = s.utf8ByteSize := by
  simp [byteLength]

/-- There are at least as many bytes as characters. -/
theorem length_le_byteLength (cs : List Char) : cs.length ≤ byteLength cs := by
  induction cs with
  | nil => simp
  | cons c cs ih =>
      have := c.utf8Size_pos
      simp only [List.length_cons, byteLength_cons]
      omega

/-- A text is divided in one way only at a given byte. -/
theorem append_inj_of_byteLength {cs cs' ds ds' : List Char} (h : cs ++ ds = cs' ++ ds')
    (hbytes : byteLength cs = byteLength cs') : cs = cs' ∧ ds = ds' := by
  induction cs generalizing cs' with
  | nil =>
      cases cs' with
      | nil => exact ⟨rfl, h⟩
      | cons c' cs' =>
          have := c'.utf8Size_pos
          rw [byteLength_nil, byteLength_cons] at hbytes
          omega
  | cons c cs ih =>
      cases cs' with
      | nil =>
          have := c.utf8Size_pos
          rw [byteLength_nil, byteLength_cons] at hbytes
          omega
      | cons c' cs' =>
          obtain ⟨rfl, htail⟩ := List.cons.inj h
          rw [byteLength_cons, byteLength_cons, Nat.add_left_cancel_iff] at hbytes
          obtain ⟨rfl, rfl⟩ := ih htail hbytes
          exact ⟨rfl, rfl⟩

end BoolLut
