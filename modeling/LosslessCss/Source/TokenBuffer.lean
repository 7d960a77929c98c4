import LosslessCss.Token

/-
  A list of tokens in slots that tokens can be taken out of.

  The cursor is the index of a slot.  A token that is taken
  leaves a vacant slot behind, which looks like an end mark
  at the start of a text.  Nothing in the data keeps the
  cursor in the list or away from such slots, so whatever
  looks at the slot of the cursor may fail, which is the
  answer `none`.

  Key definitions include:
    * `Token.withEnd`
    * `TokenBuffer`
    * `TokenBuffer.current?`
    * `TokenBuffer.advance?`
    * `TokenBuffer.take?`
-/

------------------------------------------------------------
-- Lists That End
------------------------------------------------------------

namespace LosslessCss

namespace Token

/-
  Tokens with an end mark as the last one.  It is put after
  them where they have none.
-/
def withEnd (ts : List Token) : List Token :=
  if ts.getLast?.any isEof then
    ts
  else
    ts ++
      [endOfInput
        ((ts.getLast?.map endLocation).getD Location.start)]

/- What is left in the slot of a token that was taken. -/
def vacant : Token :=
  endOfInput Location.start

end Token

end LosslessCss

------------------------------------------------------------
-- Buffers
------------------------------------------------------------

namespace LosslessCss

/- Slots for tokens and the index of the cursor. -/
structure TokenBuffer where
  slots : List Token
  position : Nat
deriving DecidableEq

namespace TokenBuffer

/- A cursor on the first token of a list that ends. -/
def ofTokens (ts : List Token) : TokenBuffer :=
  ⟨Token.withEnd ts, 0⟩

/- The token at the cursor. -/
def current? (s : TokenBuffer) : Option Token :=
  s.slots[s.position]?

/- The location of the token at the cursor. -/
def location? (s : TokenBuffer) : Option Location :=
  s.current?.map Token.location

/- Whether the cursor is on the last slot or an end mark. -/
def atEnd? (s : TokenBuffer) : Option Bool :=
  if s.slots.length ≤ s.position + 1 then
    some true
  else
    s.current?.map Token.isEof

/- Move forward, but never past the end of the input. -/
def advance? (s : TokenBuffer) : Option TokenBuffer := do
  if ← s.atEnd? then
    return s
  else
    return { s with position := s.position + 1 }

/-
  Take the token at the cursor out of its slot and move on.
  At the end of the input the token stays and is copied.
-/
def take? (s : TokenBuffer) :
    Option (Token × TokenBuffer) := do
  let t ← s.current?
  if ← s.atEnd? then
    return (t, s)
  else
    let slots := s.slots.set s.position Token.vacant
    return (t, ⟨slots, s.position + 1⟩)

end TokenBuffer

end LosslessCss
