import LosslessCss.Grammar.Span
import LosslessCss.Text.Letters
import LosslessCss.Tree.Node

/-
  Declarations: a property, a colon and a value that may be
  marked as important.

  Key definitions include:
    * `Grammar.arrangeValue`
    * `Importance.foldLast?`
    * `Importance.foldAll`
    * `Grammar.declaration`
-/

------------------------------------------------------------
-- Marks of Importance
------------------------------------------------------------

namespace LosslessCss

namespace Importance

/- Whether a piece is an exclamation mark. -/
def isBang : Piece → Bool
| .value text => text == "!"
| _ => false

/- Whether a piece is the word after the mark. -/
def isWord : Piece → Bool
| .value text => Text.sameLetters text "important"
| _ => false

/- Split off one leading piece of formatting. -/
def takeFiller : List Piece → List Piece × List Piece
| .filler text :: pieces => ([.filler text], pieces)
| pieces => ([], pieces)

/-
  Fold the last mark into one piece of formatting, if the
  values end with one.  The list is given and returned from
  its end to its start.  The piece also takes the formatting
  around the mark and inside it.
-/
def foldLast? (reversed : List Piece) : Option (List Piece) :=
  let trailing := reversed.takeWhile Piece.isFiller
  match reversed.dropWhile Piece.isFiller with
  | [] => none
  | word :: beforeWord =>
      let inner := beforeWord.takeWhile Piece.isFiller
      match beforeWord.dropWhile Piece.isFiller with
      | [] => none
      | bang :: beforeBang =>
          if isWord word && isBang bang then
            let outer := takeFiller beforeBang
            let folded :=
              trailing ++ word :: inner ++
                bang :: outer.1
            some
              (.filler (Piece.joined folded.reverse) ::
                outer.2)
          else
            none

/- Splitting off formatting loses no piece. -/
theorem takeFiller_append
    (pieces : List Piece) :
    (takeFiller pieces).1 ++ (takeFiller pieces).2 =
      pieces := by
  unfold takeFiller
  split
  · rfl
  · rfl

/- Folding a mark makes the list shorter. -/
theorem length_foldLast?_lt
    {reversed folded : List Piece}
    (h : foldLast? reversed = some folded) :
    folded.length < reversed.length := by
  unfold foldLast? at h
  simp only at h
  split at h
  · cases h
  · rename_i word beforeWord hword
    split at h
    · cases h
    · rename_i bang beforeBang hbang
      split at h
      · cases h
        have houter :=
          congrArg List.length
            (takeFiller_append beforeBang)
        have hinner :
            (bang :: beforeBang).length ≤
              beforeWord.length := by
          rw [← hbang]
          exact (List.dropWhile_sublist _).length_le
        have hall :
            (word :: beforeWord).length ≤
              reversed.length := by
          rw [← hword]
          exact (List.dropWhile_sublist _).length_le
        simp only [List.length_append, List.length_cons]
          at houter hinner hall ⊢
        omega
      · cases h

/-
  Fold marks until the values no longer end with one.  The
  list is given and returned from its end to its start.
-/
def foldReversed
    (reversed : List Piece) : List Piece × Bool :=
  match h : foldLast? reversed with
  | none => (reversed, false)
  | some folded =>
      have _ := length_foldLast?_lt h
      ((foldReversed folded).1, true)
termination_by reversed.length

/-
  Fold all marks at the end of a list of pieces, and tell
  whether there was one.
-/
def foldAll
    (pieces : List Piece) : List Piece × Bool :=
  let folded := foldReversed pieces.reverse
  (folded.1.reverse, folded.2)

end Importance

end LosslessCss

------------------------------------------------------------
-- Declarations
------------------------------------------------------------

namespace LosslessCss

namespace Grammar

variable {σ : Type} [TokenSource σ]

/- Add a chunk to the pieces of a value. -/
def addToValue
    (pieces : List Piece)
    (chunk : Chunk) : List Piece :=
  match chunk.head.kind with
  | .whitespace => Piece.pushFiller pieces chunk.raw
  | .comment _ => Piece.pushFiller pieces chunk.raw
  | .semicolon => Piece.pushFiller pieces chunk.raw
  | .function _ => pieces ++ [.function chunk.raw]
  | _ => pieces ++ [.value chunk.raw]

/- The pieces of a value, before marks are folded. -/
def arrangeValue (chunks : List Chunk) : List Piece :=
  chunks.foldl addToValue []

/- Whether a token may stand in front of the colon. -/
def beforeColon (t : Token) : Bool :=
  match t.kind with
  | .colon => false
  | .semicolon => false
  | _ => true

/- Parse a declaration up to the end of the input. -/
def declaration : Parser σ Leaf := do
  Parser.enter .declaration
  let property ← Parser.current
  if property.isIdent then
    Parser.advance
    let between ← tokensWhile beforeColon
    let colon ← Parser.current
    match colon.kind with
    | .colon =>
        Parser.advance
        let chunks ←
          chunksWhile opensFunction? fun _ => true
        let value :=
          Importance.foldAll (arrangeValue chunks)
        pure
          (.declaration property.raw
            (Token.rawText between) value.1 value.2)
    | _ =>
        Parser.fail .invalidDeclaration "expected a colon"
  else
    Parser.fail .invalidDeclaration
      "expected a property name"

end Grammar

end LosslessCss
