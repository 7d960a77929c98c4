import LosslessCss.Source.Basic

/-
  An isolated run of tokens as a source.

  The run is followed by an end mark directly after its last
  token, or at a given location when the run is empty.  The
  cursor walks over all tokens of the run, end marks inside
  it included.

  Key definitions include:
    * `TokenSlice`
    * `TokenSlice.ofTokens`
    * `TokenSlice.current`
-/

------------------------------------------------------------
-- Runs of Tokens
------------------------------------------------------------

namespace LosslessCss

/- The tokens from the cursor on, and where they end. -/
structure TokenSlice where
  ahead : List Token
  finish : Location
deriving DecidableEq

namespace TokenSlice

/- A cursor on the first token of a run. -/
def ofTokens
    (tokens : List Token)
    (fallback : Location) : TokenSlice :=
  { ahead := tokens
    finish :=
      (tokens.getLast?.map Token.endLocation).getD
        fallback }

/- The token at the cursor. -/
def current (s : TokenSlice) : Token :=
  match s.ahead with
  | [] => Token.endOfInput s.finish
  | t :: _ => t

/- Move forward, as far as there are tokens. -/
def advance (s : TokenSlice) : TokenSlice :=
  { s with ahead := s.ahead.tail }

/- The number of tokens from the cursor on. -/
def remaining (s : TokenSlice) : Nat :=
  s.ahead.length

/- Moving forward never leaves more. -/
theorem remaining_advance_le
    (s : TokenSlice) :
    s.advance.remaining ≤ s.remaining := by
  simp [advance, remaining]

/- Moving over a token before the end leaves less. -/
theorem remaining_advance_lt
    (s : TokenSlice)
    (h : s.current.isEof = false) :
    s.advance.remaining < s.remaining := by
  cases hahead : s.ahead with
  | nil =>
      simp [current, hahead] at h
  | cons t tokens =>
      simp [advance, remaining, hahead]

instance : TokenSource TokenSlice where
  current := current
  advance := advance
  remaining := remaining
  traced := false
  remaining_advance_le := remaining_advance_le
  remaining_advance_lt := remaining_advance_lt

end TokenSlice

end LosslessCss
