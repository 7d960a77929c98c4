import LosslessCss.Text.Blank

/-
  Quoted texts and characters, as diagnostics show them.

  A text stands in double quotes and a character in single
  quotes.  The quote in use, the backslash and every
  character that would not be seen are written as escapes.

  Key definitions include:
    * `Text.unseenRanges`
    * `Text.isUnseen`
    * `Text.escaped`
    * `Text.quoted`
    * `Text.quotedChar`
-/

------------------------------------------------------------
-- Escapes
------------------------------------------------------------

namespace LosslessCss

namespace Text

/-
  Ranges of code points that leave no mark of their own, in
  ascending order and with both ends included: controls,
  marks that combine with the character before them, format
  controls, and code points for private use.
-/
def unseenRanges : List (Nat × Nat) :=
  [ (0x0000, 0x001F),
    (0x007F, 0x009F),
    (0x00AD, 0x00AD),
    (0x0300, 0x036F),
    (0x180B, 0x180F),
    (0x200B, 0x200F),
    (0x202A, 0x202E),
    (0x2060, 0x206F),
    (0x20D0, 0x20F0),
    (0xD7FC, 0xF8FF),
    (0xFE00, 0xFE0F),
    (0xFE20, 0xFE2F),
    (0xFEFF, 0xFEFF),
    (0xFFF0, 0xFFFB),
    (0xFFFE, 0xFFFF),
    (0xE0000, 0x10FFFF) ]

/-
  Whether a character is written as an escape: it leaves no
  mark of its own, or it is a blank other than the space.
-/
def isUnseen (c : Char) : Bool :=
  (isBlank c && c != ' ') ||
    unseenRanges.any fun range =>
      range.1 ≤ c.toNat && c.toNat ≤ range.2

/-
  The escape of a code point: its hexadecimal digits in
  braces, in lower case and without leading zeros.
-/
def codeEscape (c : Char) : List Char :=
  "\\u\x7b".toList ++ Nat.toDigits 16 c.toNat ++
    "\x7d".toList

/- A character as it is written inside the given quotes. -/
def escaped
    (quote : Char)
    (c : Char) : List Char :=
  if c = quote || c = '\\' then ['\\', c]
  else if c = '\n' then ['\\', 'n']
  else if c = '\r' then ['\\', 'r']
  else if c = '\t' then ['\\', 't']
  else if c.toNat = 0 then ['\\', '0']
  else if isUnseen c then codeEscape c
  else [c]

/- A text in double quotes. -/
def quoted (text : String) : String :=
  String.ofList <|
    '"' :: (text.toList.flatMap (escaped '"') ++ ['"'])

/- A character in single quotes. -/
def quotedChar (c : Char) : String :=
  String.ofList ('\'' :: (escaped '\'' c ++ ['\'']))

end Text

end LosslessCss
