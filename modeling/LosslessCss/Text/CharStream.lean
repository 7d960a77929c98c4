import LosslessCss.Text.Blank

/-
  A stream of characters with a cursor.

  The stream keeps the characters behind the cursor next to
  those ahead of it, so that it can be rewound and any part
  of its text can be cut out again by byte positions.  An
  open stream that has run dry may still be refilled, while
  a closed one has ended.

  Key definitions include:
    * `Reading`
    * `CharStream`
    * `CharStream.read`
    * `CharStream.next`
    * `CharStream.peek`
    * `CharStream.position`
    * `CharStream.slice`
-/

------------------------------------------------------------
-- Readings
------------------------------------------------------------

namespace LosslessCss

/-
  What a stream shows at a place: a character, or that there
  is none, on a stream that is closed or still open.
-/
inductive Reading where
  | char (c : Char)
  | ended
  | drained
deriving DecidableEq

namespace Reading

/- The character read, if there is one. -/
def char? : Reading → Option Char
| .char c => some c
| .ended => none
| .drained => none

/- The text that stands for a reading in reports. -/
def label : Reading → String
| .char c => String.singleton c
| .ended => "StreamEnd"
| .drained => "StreamEmpty"

/- The code point of a reading, zero when there is none. -/
def code (r : Reading) : Nat :=
  (r.char?.map Char.toNat).getD 0

/- Whether a blank character was read. -/
def isBlank (r : Reading) : Bool :=
  r.char?.any Text.isBlank

/- Whether an ASCII digit was read. -/
def isDigit (r : Reading) : Bool :=
  r.char?.any Char.isDigit

end Reading

end LosslessCss

------------------------------------------------------------
-- Byte Positions in a Run of Characters
------------------------------------------------------------

namespace LosslessCss

namespace Text

/- The number of UTF-8 bytes of a run of characters. -/
def byteLength : List Char → Nat
| [] => 0
| c :: cs => c.utf8Size + byteLength cs

/-
  Split a run of characters after `n` bytes.  There is no
  such split past the end or inside a character.
-/
def splitAtByte :
    Nat → List Char → Option (List Char × List Char)
| 0, cs => some ([], cs)
| _ + 1, [] => none
| n + 1, c :: cs =>
    if c.utf8Size ≤ n + 1 then
      (splitAtByte (n + 1 - c.utf8Size) cs).map
        fun parts => (c :: parts.1, parts.2)
    else
      none

end Text

end LosslessCss

------------------------------------------------------------
-- Streams
------------------------------------------------------------

namespace LosslessCss

/-
  A character stream.  The characters in `passed` lie behind
  the cursor, the nearest one first.
-/
structure CharStream where
  passed : List Char
  ahead : List Char
  closed : Bool
deriving DecidableEq

namespace CharStream

/- A new stream holds nothing and is open. -/
def empty : CharStream :=
  ⟨[], [], false⟩

/- A closed stream over a text. -/
def ofText (text : String) : CharStream :=
  ⟨[], text.toList, true⟩

/- All characters of the stream in order. -/
def content (s : CharStream) : List Char :=
  s.passed.reverse ++ s.ahead

/- Replace the text, with the cursor at its start. -/
def load
    (s : CharStream)
    (text : String) : CharStream :=
  { s with passed := [], ahead := text.toList }

/- What the stream shows when it has no character. -/
def dry (s : CharStream) : Reading :=
  if s.closed then .ended else .drained

/- Look at the place `n` characters ahead of the cursor. -/
def peek
    (s : CharStream)
    (n : Nat) : Reading :=
  match s.ahead[n]? with
  | some c => .char c
  | none => s.dry

/- Look at the cursor. -/
def read (s : CharStream) : Reading :=
  match s.ahead with
  | c :: _ => .char c
  | [] => s.dry

/- Move the cursor over one character, if there is one. -/
def skip (s : CharStream) : CharStream :=
  match s.ahead with
  | c :: cs =>
      { s with passed := c :: s.passed, ahead := cs }
  | [] => s

/- Look at the cursor and move over what it shows. -/
def next (s : CharStream) : Reading × CharStream :=
  (s.read, s.skip)

/- The number of bytes behind the cursor. -/
def position (s : CharStream) : Nat :=
  Text.byteLength s.passed

/-
  The text between two byte positions.  It is empty when the
  range is reversed, leaves the stream or cuts a character.
-/
def slice
    (s : CharStream)
    (first last : Nat) : String :=
  if first ≤ last then
    match Text.splitAtByte first s.content with
    | none => ""
    | some (_, tail) =>
        match Text.splitAtByte (last - first) tail with
        | none => ""
        | some (cut, _) => String.ofList cut
  else
    ""

/- Move the cursor back to the start. -/
def rewind (s : CharStream) : CharStream :=
  { s with passed := [], ahead := s.content }

/- Close the stream. -/
def close (s : CharStream) : CharStream :=
  { s with closed := true }

/- Whether no character lies ahead of the cursor. -/
def exhausted (s : CharStream) : Bool :=
  s.ahead.isEmpty

/- Whether the stream is closed and exhausted. -/
def finished (s : CharStream) : Bool :=
  s.closed && s.exhausted

end CharStream

end LosslessCss
