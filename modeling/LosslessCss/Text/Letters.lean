/-
  Comparison of texts that does not tell the two cases of
  an ASCII letter apart.  All other characters are compared
  as they stand.

  Key definitions include:
    * `Text.sameLetters`
-/

------------------------------------------------------------
-- Letters Without Case
------------------------------------------------------------

namespace LosslessCss

namespace Text

/- Whether two texts differ at most in ASCII letter case. -/
def sameLetters (a b : String) : Bool :=
  a.toList.map Char.toLower == b.toList.map Char.toLower

end Text

end LosslessCss
