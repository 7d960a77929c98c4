import LosslessCss.SyntaxError
import LosslessCss.Text.Lines

/-
  The part of a source around an error, with a mark below
  the place of the error.

  Key definitions include:
    * `Snippet.numbered`
    * `Snippet.lines`
-/

------------------------------------------------------------
-- Snippets
------------------------------------------------------------

namespace LosslessCss

namespace Snippet

/- The number of lines shown before and after the error. -/
def margin : Nat :=
  5

/- The last column that is shown, counted from zero. -/
def lastColumn : Nat :=
  1000

/- The width of a line number. -/
def numberWidth : Nat :=
  5

/- A text filled up with spaces to a width. -/
def padded
    (width : Nat)
    (text : String) : String :=
  text ++
    String.ofList
      (List.replicate (width - text.length) ' ')

/- A line with its number in front. -/
def numbered
    (n : Nat)
    (line : String) : String :=
  padded numberWidth (toString (n + 1)) ++ "|" ++ line

/- The line that points at a column. -/
def pointer (column : Nat) : String :=
  String.ofList
    (List.replicate (numberWidth + column + 1) '-' ++ ['^'])

/- The lines in front of the given one. -/
def linesBefore
    (source : List String)
    (n : Nat) : List String :=
  (List.range' (n - margin) (n - (n - margin))).map
    fun i => numbered i (source[i]?.getD "")

/- The lines after the given one, as far as there are any. -/
def linesAfter
    (source : List String)
    (n : Nat) : List String :=
  (List.range' (n + 1) margin).filterMap
    fun i => source[i]?.map (numbered i)

/- The snippet of an error, line by line. -/
def lines
    (css : String)
    (e : SyntaxError) : List String :=
  let source := Text.lines css
  let n := e.location.line - 1
  let column := e.location.column - 1
  if lastColumn < column then
    ["Error is too far to the right to display."]
  else
    ["", ""] ++ linesBefore source n ++
      [numbered n (source[n]?.getD ""), pointer column] ++
      linesAfter source n ++ [e.message, ""]

end Snippet

end LosslessCss
