import LosslessCss.Token

/-
  Token sources: cursors over a sequence of tokens.

  A source shows one token at a time and only moves forward.
  A measure of what is left bounds every loop over it: it
  never grows, and it shrinks with each token before the end
  of the input.

  Key definitions include:
    * `TokenSource`
-/

------------------------------------------------------------
-- Token Sources
------------------------------------------------------------

namespace LosslessCss

/-
  A cursor over tokens, with a bound on the number of tokens
  before the end of the input.  Some sources read each token
  from its text in the moment when they move to it, and
  leave a trace of that.
-/
class TokenSource (σ : Type) where
  current : σ → Token
  advance : σ → σ
  remaining : σ → Nat
  traced : Bool
  remaining_advance_le (s : σ) :
    remaining (advance s) ≤ remaining s
  remaining_advance_lt (s : σ) :
    (current s).isEof = false →
      remaining (advance s) < remaining s

namespace TokenSource

variable {σ : Type} [TokenSource σ]

/- The location of the token at the cursor. -/
def location (s : σ) : Location :=
  (current s).location

/- Take the token at the cursor and move over it. -/
def take (s : σ) : Token × σ :=
  (current s, advance s)

end TokenSource

end LosslessCss
