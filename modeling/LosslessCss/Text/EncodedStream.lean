import LosslessCss.Text.CharStream

/-
  A stream as a text in UTF-8 with a byte position.

  The cursor is the number of bytes behind it.  Nothing in
  the data keeps it at a boundary between two characters,
  and no character can be told from inside of another one or
  from past the end.  So whatever looks at the text from the
  cursor on may fail, which is the answer `none`.

  Key definitions include:
    * `EncodedStream`
    * `EncodedStream.rest?`
    * `EncodedStream.read?`
    * `EncodedStream.next?`
    * `EncodedStream.peek?`
    * `EncodedStream.slice`
-/

------------------------------------------------------------
-- Encoded Streams
------------------------------------------------------------

namespace LosslessCss

/- A text, the bytes behind the cursor, and if it may grow. -/
structure EncodedStream where
  text : String
  position : Nat
  closed : Bool
deriving DecidableEq

namespace EncodedStream

/- A new stream holds nothing and is open. -/
def empty : EncodedStream :=
  ⟨"", 0, false⟩

/- Replace the text, with the cursor at its start. -/
def load
    (s : EncodedStream)
    (text : String) : EncodedStream :=
  { s with text := text, position := 0 }

/- The characters from the cursor on. -/
def rest? (s : EncodedStream) : Option (List Char) :=
  (Text.splitAtByte s.position s.text.toList).map Prod.snd

/- What the stream shows when it has no character. -/
def dry (s : EncodedStream) : Reading :=
  if s.closed then .ended else .drained

/- Look at the cursor. -/
def read? (s : EncodedStream) : Option Reading :=
  s.rest?.map fun cs => cs.head?.elim s.dry .char

/- Look at the place `n` characters ahead of the cursor. -/
def peek?
    (s : EncodedStream)
    (n : Nat) : Option Reading :=
  s.rest?.map fun cs => cs[n]?.elim s.dry .char

/- Move over as many bytes as what was read takes up. -/
def past
    (s : EncodedStream)
    (r : Reading) : EncodedStream :=
  { s with
    position :=
      s.position + r.char?.elim 0 Char.utf8Size }

/- Look at the cursor and move over what it shows. -/
def next?
    (s : EncodedStream) : Option (Reading × EncodedStream) :=
  s.read?.map fun r => (r, s.past r)

/-
  The characters between two byte positions.  There are none
  to be told when the range is reversed, leaves the text or
  cuts a character.
-/
def cut?
    (s : EncodedStream)
    (first last : Nat) : Option (List Char) := do
  let front ← Text.splitAtByte last s.text.toList
  let cut ← Text.splitAtByte first front.1
  return cut.2

/- The text between two byte positions, or an empty one. -/
def slice
    (s : EncodedStream)
    (first last : Nat) : String :=
  String.ofList ((s.cut? first last).getD [])

/- Move the cursor back to the start. -/
def rewind (s : EncodedStream) : EncodedStream :=
  { s with position := 0 }

/- Close the stream. -/
def close (s : EncodedStream) : EncodedStream :=
  { s with closed := true }

/- Whether no byte lies ahead of the cursor. -/
def exhausted (s : EncodedStream) : Bool :=
  decide (s.text.utf8ByteSize ≤ s.position)

/- Whether the stream is closed and exhausted. -/
def finished (s : EncodedStream) : Bool :=
  s.closed && s.exhausted

end EncodedStream

end LosslessCss
