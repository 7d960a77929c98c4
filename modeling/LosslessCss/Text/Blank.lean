/-
  Blank characters: the code points that have the Unicode
  property White_Space.  Blanks separate tokens, and one
  blank may end a hexadecimal escape.

  Key definitions include:
    * `Text.blankRanges`
    * `Text.isBlank`
-/

------------------------------------------------------------
-- Blank Characters
------------------------------------------------------------

namespace LosslessCss

namespace Text

/-
  The ranges of blank code points in ascending order, both
  ends included.
-/
def blankRanges : List (Nat × Nat) :=
  [ (0x0009, 0x000D),
    (0x0020, 0x0020),
    (0x0085, 0x0085),
    (0x00A0, 0x00A0),
    (0x1680, 0x1680),
    (0x2000, 0x200A),
    (0x2028, 0x2029),
    (0x202F, 0x202F),
    (0x205F, 0x205F),
    (0x3000, 0x3000) ]

/- Whether a character lies in one of the blank ranges. -/
def isBlank (c : Char) : Bool :=
  blankRanges.any fun range =>
    range.1 ≤ c.toNat && c.toNat ≤ range.2

end Text

end LosslessCss
