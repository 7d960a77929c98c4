import LosslessCss.Grammar.Span
import LosslessCss.Tree.Piece

/-
  Fragments: raw text with the formatting around it split
  off.

  Key definitions include:
    * `Grammar.arrangeFragment`
    * `Grammar.fragment`
-/

------------------------------------------------------------
-- Fragments
------------------------------------------------------------

namespace LosslessCss

namespace Grammar

variable {σ : Type} [TokenSource σ]

/- The formatting at the end of a list of chunks. -/
def trailingFiller (chunks : List Chunk) : List Chunk :=
  (chunks.reverse.takeWhile Chunk.isFiller).reverse

/- A list of chunks without the formatting at its end. -/
def trimFiller (chunks : List Chunk) : List Chunk :=
  (chunks.reverse.dropWhile Chunk.isFiller).reverse

/-
  The pieces of a fragment: formatting, one value, and
  formatting again.  A piece without text is left out.
-/
def arrangeFragment
    (leading : String)
    (chunks : List Chunk) : List Piece :=
  let front := Piece.pushFiller [] leading
  let body := Chunk.rawText (trimFiller chunks)
  let middle :=
    if body = "" then front else front ++ [.value body]
  Piece.pushFiller middle
    (Chunk.rawText (trailingFiller chunks))

/- Parse a fragment up to a token that ends it. -/
def fragment
    (ends : Token → Bool) : Parser σ (List Piece) := do
  Parser.enter .fragment
  let leading ← filler
  let chunks ← chunksWhile opens? fun t => !ends t
  pure (arrangeFragment leading chunks)

end Grammar

end LosslessCss
