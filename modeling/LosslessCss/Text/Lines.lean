/-
  Lines of a text.  A line feed ends a line and belongs to
  none, so there is always one line more than line feeds.

  Key definitions include:
    * `Text.splitLines`
    * `Text.lines`
-/

------------------------------------------------------------
-- Lines
------------------------------------------------------------

namespace LosslessCss

namespace Text

/- Put a character in front of the first line. -/
def consLine
    (c : Char) : List (List Char) → List (List Char)
| [] => [[c]]
| line :: lines => (c :: line) :: lines

/- Split characters at line feeds. -/
def splitLines : List Char → List (List Char)
| [] => [[]]
| c :: cs =>
    if c = '\n' then [] :: splitLines cs
    else consLine c (splitLines cs)

/- The lines of a text. -/
def lines (text : String) : List String :=
  (splitLines text.toList).map String.ofList

end Text

end LosslessCss
