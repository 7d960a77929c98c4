import LosslessCss.Parse
import LosslessCss.Proofs.Following
import LosslessCss.Proofs.LexedTokens

/-
  The start location of a text.

  A text that starts at another place has the same tokens,
  each of them moved, and so it has the same tree or the same
  error.  Only places on the first line of the text move to
  another column.

  Key definitions include:
    * `Lexer.relocated`

  Key theorems include:
    * `Lexer.here_relocated`
    * `Lexer.follows_relocated`
    * `Parse.text_relocated`
-/

------------------------------------------------------------
-- Lexers
------------------------------------------------------------

namespace LosslessCss

open TokenSource (upcoming ending)

namespace Lexer

/- The same text, with its own start at the given origin. -/
def relocated
    (origin : Location)
    (l : Lexer) : Lexer :=
  { l with origin := Location.relocated origin l.origin }

variable (origin : Location)

/- Only the origin is elsewhere, the count is the same. -/
theorem here_relocated
    (l : Lexer)
    (hOrigin : l.origin.Counted) :
    (l.relocated origin).here =
      Location.relocated origin l.here :=
  (Location.relocated_relocated origin hOrigin
    l.counted).symm

/- The next token is the same one, moved. -/
theorem token_relocated
    (l : Lexer)
    (hOrigin : l.origin.Counted) :
    (l.relocated origin).token =
      l.token.moved (Location.relocated origin) := by
  have hHere := here_relocated origin l hOrigin
  exact
    congrArg
      (Token.mk l.lexeme.value (String.ofList l.lexeme.raw))
      hHere

theorem skip_relocated
    (l : Lexer) :
    (l.relocated origin).skip =
      l.skip.relocated origin :=
  rfl

theorem upcoming_relocated
    (l : Lexer)
    (hOrigin : l.origin.Counted) :
    upcoming (PulledText.ofLexer (l.relocated origin)) =
      (upcoming (PulledText.ofLexer l)).map
        (Token.moved (Location.relocated origin)) := by
  induction l using token_induction with
  | hDone l hAhead =>
      rw [upcoming_of_ahead_eq_nil l hAhead,
        upcoming_of_ahead_eq_nil (l.relocated origin) hAhead]
      rfl
  | hToken l hEof ih =>
      rw [upcoming_of_token l hEof,
        upcoming_of_token (l.relocated origin) hEof,
        token_relocated origin l hOrigin,
        skip_relocated, ih hOrigin, List.map_cons]

theorem carried_upcoming
    (l : Lexer)
    (hOrigin : l.origin.Counted) :
    ∀ t ∈ upcoming (PulledText.ofLexer l),
      t.Carried (Location.relocated origin) := by
  induction l using token_induction with
  | hDone l hAhead =>
      simp [upcoming_of_ahead_eq_nil l hAhead]
  | hToken l hEof ih =>
      have hCounted : l.here.Counted :=
        hOrigin.relocated l.counted
      have hFirst :
          l.token.Carried (Location.relocated origin) :=
        Location.advanceOver_relocated hCounted origin _
      rw [upcoming_of_token l hEof]
      exact
        List.forall_mem_cons.mpr
          ⟨hFirst, ih hOrigin⟩

theorem ending_relocated
    (l : Lexer)
    (hOrigin : l.origin.Counted) :
    ending (PulledText.ofLexer (l.relocated origin)) =
      (ending (PulledText.ofLexer l)).moved
        (Location.relocated origin) := by
  have hCounted : l.here.Counted :=
    hOrigin.relocated l.counted
  have hEnd :=
    Location.advanceOver_relocated hCounted origin
      l.stream.ahead
  rw [ending_ofLexer, ending_ofLexer,
    here_relocated origin l hOrigin]
  exact congrArg Token.endOfInput hEnd

/- A text that starts elsewhere follows the text. -/
theorem follows_relocated
    (l : Lexer)
    (hOrigin : l.origin.Counted) :
    TokenSource.Follows false (Location.relocated origin)
      (PulledText.ofLexer l)
      (PulledText.ofLexer (l.relocated origin)) where
  shown := by
    rw [upcoming_relocated origin l hOrigin]
    exact ⟨[], by simp, fun _ => rfl⟩
  ended := fun _ => ending_relocated origin l hOrigin
  carried := carried_upcoming origin l hOrigin

end Lexer

namespace PulledText

/- Any start is the first character of a text, moved. -/
theorem follows_ofText
    (css : String)
    (origin : Location) :
    TokenSource.Follows false (Location.relocated origin)
      (ofText css Location.start) (ofText css origin) := by
  have hText :
      Lexer.ofText css origin =
        (Lexer.ofText css Location.start).relocated
          origin := by
    have hStart := Location.relocated_start origin
    exact
      congrArg (Lexer.ofStream (CharStream.ofText css))
        hStart.symm
  unfold ofText
  rw [hText]
  exact
    Lexer.follows_relocated origin _ Location.counted_start

end PulledText

end LosslessCss

------------------------------------------------------------
-- Parses
------------------------------------------------------------

namespace LosslessCss

namespace Parse

/-
  In every context, a text that starts at the given origin
  has the outcome that it has at the start of a file.  Every
  node of the tree, or the error, is moved to where it is
  from the origin on.
-/
theorem text_relocated
    (css : String)
    (context : Context)
    (source : Option String)
    (origin : Location) :
    text css ⟨context, origin, source⟩ =
      Parser.movedOutcome (Location.relocated origin)
        (Node.moved (Location.relocated origin))
        (text css ⟨context, Location.start, source⟩) := by
  have hFollows := PulledText.follows_ofText css origin
  rcases (Grammar.follows_document context hFollows).2 with
    hEnd | ⟨hOutcome, _⟩
  · cases hEnd.1
  · exact hOutcome

end Parse

end LosslessCss
