/-
**White space.**

Between two tokens of a formula any character may stand that has the Unicode property
`White_Space`.  The property is a short list of ranges, which this module holds.

Main definitions:

* `BoolLut.blankRanges` — the ranges of code points with the property;
* `BoolLut.isBlank` — whether a character lies in one of them.
-/

set_option relaxedAutoImplicit false
set_option autoImplicit false

namespace BoolLut

/-- The code points with the property `White_Space`, as ranges with both ends included. -/
def blankRanges : List (Nat × Nat) :=
  [(0x09, 0x0D), (0x20, 0x20), (0x85, 0x85), (0xA0, 0xA0), (0x1680, 0x1680), (0x2000, 0x200A),
    (0x2028, 0x2029), (0x202F, 0x202F), (0x205F, 0x205F), (0x3000, 0x3000)]

/-- Whether a character is white space. -/
def isBlank (c : Char) : Bool :=
  blankRanges.any fun (first, last) => first ≤ c.toNat && c.toNat ≤ last

end BoolLut
