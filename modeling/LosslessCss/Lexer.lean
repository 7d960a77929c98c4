import LosslessCss.Lexer.Scan
import LosslessCss.Text.CharStream

/-
  The lexer: a stream of characters that is read token by
  token.  It counts lines, columns and bytes from the start
  of the stream, and adds the location that the stream starts
  at where it tells the location of a token.

  On a closed stream every token can be read.  On an open
  stream a quotation or an address that is cut off cannot
  be told yet, because more text may still arrive.

  Key definitions include:
    * `Lexer`
    * `Lexer.here`
    * `Lexer.next`
    * `Lexer.next?`
    * `Lexer.tokens`
    * `Lexer.tokens?`
    * `Lexer.tokenize`

  Key theorems include:
    * `Lexer.here_ofStream`
    * `Lexer.here_skip`
-/

------------------------------------------------------------
-- Lexers
------------------------------------------------------------

namespace LosslessCss

namespace CharStream

/- Move the cursor over a run of characters. -/
def pass
    (s : CharStream)
    (taken rest : List Char) : CharStream :=
  { s with passed := taken.reverseAux s.passed, ahead := rest }

end CharStream

/-
  A stream, the location that it starts at, and how far its
  cursor is from there.
-/
@[ext]
structure Lexer where
  stream : CharStream
  origin : Location
  counter : Location
  counted : counter.Counted
deriving DecidableEq

namespace Lexer

/- A lexer over a stream that starts at a location. -/
def ofStream
    (stream : CharStream)
    (origin : Location) : Lexer :=
  ⟨stream, origin, Location.start, Location.counted_start⟩

/- A lexer over a whole text. -/
def ofText
    (text : String)
    (origin : Location) : Lexer :=
  ofStream (CharStream.ofText text) origin

/- The location of the next token. -/
def here (l : Lexer) : Location :=
  Location.relocated l.origin l.counter

/- The next lexeme of the stream. -/
def lexeme (l : Lexer) : Lexeme TokenKind :=
  Scan.token l.stream.ahead

/- The token of the next lexeme. -/
def token (l : Lexer) : Token :=
  ⟨l.lexeme.value, String.ofList l.lexeme.raw, l.here⟩

/- The lexer after the next lexeme. -/
def skip (l : Lexer) : Lexer :=
  { stream := l.stream.pass l.lexeme.raw l.lexeme.rest
    origin := l.origin
    counter := l.counter.advanceOver l.lexeme.raw
    counted := l.counted.advanceOver l.lexeme.raw }

/- Read the next token as if no more text could arrive. -/
def next (l : Lexer) : Token × Lexer :=
  (l.token, l.skip)

/-
  Read the next token.  There is none as long as the stream
  is open and the lexeme is not complete.
-/
def next? (l : Lexer) : Option (Token × Lexer) :=
  if l.stream.closed || l.lexeme.complete then
    some l.next
  else
    none

/- Whether no token is left but the end of the input. -/
def finished (l : Lexer) : Bool :=
  l.stream.finished

/- Move the cursor of the stream alone. -/
def onStream
    (l : Lexer)
    (f : CharStream → CharStream) : Lexer :=
  { l with stream := f l.stream }

/- Nothing has been counted where the stream starts. -/
@[simp]
theorem here_ofStream
    (stream : CharStream)
    (origin : Location) :
    (ofStream stream origin).here = origin :=
  Location.relocated_start origin

@[simp]
theorem here_ofText
    (text : String)
    (origin : Location) :
    (ofText text origin).here = origin :=
  here_ofStream (CharStream.ofText text) origin

/- The count grows by the characters that are skipped. -/
theorem here_skip
    (l : Lexer) :
    l.skip.here = l.here.advanceOver l.lexeme.raw :=
  (Location.advanceOver_relocated l.counted l.origin
    l.lexeme.raw).symm

end Lexer

end LosslessCss

------------------------------------------------------------
-- Reading Makes Progress
------------------------------------------------------------

namespace LosslessCss

namespace Lexer

/- Skipping a token never adds characters. -/
theorem length_ahead_skip_le
    (l : Lexer) :
    l.skip.stream.ahead.length ≤ l.stream.ahead.length :=
  (Scan.token_splits l.stream.ahead).length_rest_le

/- Skipping a token removes characters, if there are any. -/
theorem length_ahead_skip_lt
    (l : Lexer)
    (h : l.stream.ahead ≠ []) :
    l.skip.stream.ahead.length < l.stream.ahead.length := by
  cases hahead : l.stream.ahead with
  | nil => exact absurd hahead h
  | cons c cs =>
      have hlt :=
        (Scan.token_splits (c :: cs)).length_rest_lt
          (Scan.raw_token_ne_nil c cs)
      simpa [skip, lexeme, CharStream.pass, hahead]
        using hlt

/- At the end of the stream the token is the end of input. -/
theorem token_eq_endOfInput
    (l : Lexer)
    (h : l.stream.ahead = []) :
    l.token = Token.endOfInput l.here := by
  simp [token, lexeme, h, Scan.token, Lexeme.stop,
    Token.endOfInput]

/- A token other than the end of input has characters. -/
theorem ahead_ne_nil_of_token
    (l : Lexer)
    (h : l.token.isEof = false) :
    l.stream.ahead ≠ [] := by
  intro hnil
  rw [token_eq_endOfInput l hnil] at h
  simp at h

end Lexer

end LosslessCss

------------------------------------------------------------
-- All Tokens
------------------------------------------------------------

namespace LosslessCss

namespace Lexer

/-
  Read all tokens through the end of the input, as if no
  more text could arrive.
-/
def tokens (l : Lexer) : List Token × Lexer :=
  if l.token.isEof then
    ([l.token], l.skip)
  else
    let tail := tokens l.skip
    (l.token :: tail.1, tail.2)
termination_by l.stream.ahead.length
decreasing_by
  rename_i h
  exact length_ahead_skip_lt l
    (ahead_ne_nil_of_token l (by simpa using h))

/-
  Read all tokens through the end of the input, unless one
  of them cannot be told yet.
-/
def tokens? (l : Lexer) : Option (List Token × Lexer) :=
  if l.stream.closed || l.lexeme.complete then
    if l.token.isEof then
      some ([l.token], l.skip)
    else
      (tokens? l.skip).map fun tail =>
        (l.token :: tail.1, tail.2)
  else
    none
termination_by l.stream.ahead.length
decreasing_by
  rename_i h
  exact length_ahead_skip_lt l
    (ahead_ne_nil_of_token l (by simpa using h))

/- The tokens of a whole text. -/
def tokenize
    (text : String)
    (here : Location) : List Token :=
  (ofText text here).tokens.1

end Lexer

end LosslessCss
