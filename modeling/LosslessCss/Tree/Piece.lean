/-
  Pieces: the parts of a text that keep structure and
  formatting apart.

  The texts of the pieces of a list, put together, are the
  source that the list was built from.

  Key definitions include:
    * `Piece`
    * `Piece.text`
    * `Piece.pushFiller`
    * `Piece.values`
    * `Piece.fillers`
-/

------------------------------------------------------------
-- Pieces
------------------------------------------------------------

namespace LosslessCss

/-
  A part of a text: a value, a whole function call, or
  formatting that carries no meaning.
-/
inductive Piece where
  | value (text : String)
  | function (text : String)
  | filler (text : String)
deriving DecidableEq

namespace Piece

/- The source text of a piece. -/
def text : Piece → String
| .value text => text
| .function text => text
| .filler text => text

/- Whether a piece is formatting. -/
def isFiller : Piece → Bool
| .filler _ => true
| _ => false

/- The source text of a list of pieces. -/
def joined : List Piece → String
| [] => ""
| piece :: pieces => piece.text ++ joined pieces

/- The texts of the pieces that are not formatting. -/
def values (pieces : List Piece) : List String :=
  (pieces.filter fun piece => !piece.isFiller).map text

/- The texts of the pieces that are formatting. -/
def fillers (pieces : List Piece) : List String :=
  (pieces.filter isFiller).map text

/-
  Add formatting at the end.  It joins a filler that is
  already there, and no text adds no piece.
-/
def pushFiller
    (pieces : List Piece)
    (added : String) : List Piece :=
  if added = "" then
    pieces
  else
    match pieces.getLast? with
    | some (.filler last) =>
        pieces.dropLast ++ [.filler (last ++ added)]
    | _ => pieces ++ [.filler added]

/- Add a piece at the end, where a filler joins a filler. -/
def push
    (pieces : List Piece)
    (piece : Piece) : List Piece :=
  match piece with
  | .filler added => pushFiller pieces added
  | _ => pieces ++ [piece]

end Piece

end LosslessCss
