import LosslessCss.Source.Basic

/-
  A list of tokens as a source.

  The cursor stops on the first token that marks the end of
  the input.  A list without such a token is followed by one
  directly after its last token.

  Key definitions include:
    * `TokenList`
    * `TokenList.ofTokens`
    * `TokenList.advance`
-/

------------------------------------------------------------
-- Lists of Tokens
------------------------------------------------------------

namespace LosslessCss

/- The token at the cursor and the tokens after it. -/
structure TokenList where
  current : Token
  ahead : List Token
deriving DecidableEq

namespace TokenList

/- A cursor on the first token of a list. -/
def ofTokens : List Token → TokenList
| [] => ⟨Token.endOfInput Location.start, []⟩
| t :: tokens => ⟨t, tokens⟩

/- Move forward, but never past the end of the input. -/
def advance (s : TokenList) : TokenList :=
  if s.current.isEof then
    s
  else
    match s.ahead with
    | [] => ⟨Token.endOfInput s.current.endLocation, []⟩
    | t :: tokens => ⟨t, tokens⟩

/- The tokens from the cursor on, without an end mark. -/
def remaining (s : TokenList) : Nat :=
  s.ahead.length + if s.current.isEof then 0 else 1

/- Moving over a token before the end leaves less. -/
theorem remaining_advance_lt
    (s : TokenList)
    (h : s.current.isEof = false) :
    s.advance.remaining < s.remaining := by
  cases hahead : s.ahead with
  | nil =>
      simp [advance, remaining, h, hahead]
  | cons t tokens =>
      simp only [advance, remaining, h, hahead,
        List.length_cons]
      simp only [Bool.false_eq_true, if_false]
      split
      · omega
      · omega

/- Moving forward never leaves more. -/
theorem remaining_advance_le
    (s : TokenList) :
    s.advance.remaining ≤ s.remaining := by
  cases h : s.current.isEof with
  | false =>
      exact Nat.le_of_lt (remaining_advance_lt s h)
  | true =>
      simp [advance, h]

instance : TokenSource TokenList where
  current := current
  advance := advance
  remaining := remaining
  traced := false
  remaining_advance_le := remaining_advance_le
  remaining_advance_lt := remaining_advance_lt

end TokenList

end LosslessCss
