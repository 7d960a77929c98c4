import LosslessCss.Lexer
import LosslessCss.Source.Basic

/-
  A text as a source that reads its tokens on demand.

  The token at the cursor has been read already, and moving
  forward reads the next one.  At the end of the text the
  end mark is read again and again.

  Key definitions include:
    * `PulledText`
    * `PulledText.ofLexer`
    * `PulledText.advance`
-/

------------------------------------------------------------
-- Pulled Texts
------------------------------------------------------------

namespace LosslessCss

/- The token at the cursor and the lexer behind it. -/
structure PulledText where
  current : Token
  lexer : Lexer
deriving DecidableEq

namespace PulledText

/- A cursor on the first token of a lexer. -/
def ofLexer (l : Lexer) : PulledText :=
  ⟨l.token, l.skip⟩

/- A cursor on the first token of a text. -/
def ofText
    (text : String)
    (here : Location) : PulledText :=
  ofLexer (Lexer.ofText text here)

/- Read the next token. -/
def advance (s : PulledText) : PulledText :=
  ofLexer s.lexer

/-
  The characters that are left.  A token at the cursor that
  does not mark the end counts as well.
-/
def remaining (s : PulledText) : Nat :=
  s.lexer.stream.ahead.length +
    if s.current.isEof then 0 else 1

/- A newly read token leaves at most the characters before. -/
theorem remaining_ofLexer_le
    (l : Lexer) :
    (ofLexer l).remaining ≤ l.stream.ahead.length := by
  by_cases htoken : l.token.isEof
  · have hle := l.length_ahead_skip_le
    simpa [ofLexer, remaining, htoken] using hle
  · have hlt :=
      l.length_ahead_skip_lt
        (l.ahead_ne_nil_of_token (by simpa using htoken))
    simpa [ofLexer, remaining, htoken]
      using Nat.succ_le_of_lt hlt

/- Moving forward never leaves more. -/
theorem remaining_advance_le
    (s : PulledText) :
    s.advance.remaining ≤ s.remaining := by
  have hle := remaining_ofLexer_le s.lexer
  simp only [advance]
  simp only [remaining] at hle ⊢
  omega

/- Moving over a token before the end leaves less. -/
theorem remaining_advance_lt
    (s : PulledText)
    (h : s.current.isEof = false) :
    s.advance.remaining < s.remaining := by
  have hle := remaining_ofLexer_le s.lexer
  have hone :
      s.remaining = s.lexer.stream.ahead.length + 1 := by
    simp [remaining, h]
  rw [hone]
  exact Nat.lt_succ_of_le hle

instance : TokenSource PulledText where
  current := current
  advance := advance
  remaining := remaining
  traced := true
  remaining_advance_le := remaining_advance_le
  remaining_advance_lt := remaining_advance_lt

end PulledText

end LosslessCss
