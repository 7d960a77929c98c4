/-
  JSON values and their text.

  Texts are indented by two spaces, with one element of a
  list and one field of a record on each line.  Fields keep
  the order in which they are given.

  Key definitions include:
    * `Json`
    * `Json.escaped`
    * `Json.chars`
    * `Json.pretty`
-/

------------------------------------------------------------
-- Values
------------------------------------------------------------

namespace LosslessCss

/- A JSON value.  All numbers here are natural. -/
inductive Json where
  | text (value : String)
  | natural (value : Nat)
  | flag (value : Bool)
  | list (items : List Json)
  | record (fields : List (String × Json))

end LosslessCss

------------------------------------------------------------
-- Texts
------------------------------------------------------------

namespace LosslessCss

namespace Json

/- Two hexadecimal digits in lower case. -/
def hexPair (n : Nat) : List Char :=
  [Nat.digitChar (n / 16), Nat.digitChar (n % 16)]

/-
  A character inside a quoted text.  Quotes, backslashes and
  the characters below the space are escaped.
-/
def escaped (c : Char) : List Char :=
  if c = '"' then ['\\', '"']
  else if c = '\\' then ['\\', '\\']
  else if c.toNat = 0x08 then ['\\', 'b']
  else if c.toNat = 0x0C then ['\\', 'f']
  else if c = '\n' then ['\\', 'n']
  else if c = '\r' then ['\\', 'r']
  else if c = '\t' then ['\\', 't']
  else if c.toNat < 0x20 then
    ['\\', 'u', '0', '0'] ++ hexPair c.toNat
  else [c]

/- A quoted text. -/
def quoted (value : String) : List Char :=
  '"' :: (value.toList.flatMap escaped ++ ['"'])

/- A new line at the given depth. -/
def line (depth : Nat) : List Char :=
  '\n' :: List.replicate (2 * depth) ' '

/- The text of a truth value. -/
def flagChars (value : Bool) : List Char :=
  if value then "true".toList else "false".toList

mutual

/- The text of a value that stands at the given depth. -/
def chars (depth : Nat) : Json → List Char
| .text value => quoted value
| .natural value => Nat.toDigits 10 value
| .flag value => flagChars value
| .list [] => ['[', ']']
| .list (item :: items) =>
    '[' :: (line (depth + 1) ++ chars (depth + 1) item ++
      itemChars (depth + 1) items ++ line depth ++ [']'])
| .record [] => ['{', '}']
| .record ((key, value) :: fields) =>
    '{' :: (line (depth + 1) ++ quoted key ++ [':', ' '] ++
      chars (depth + 1) value ++
      fieldChars (depth + 1) fields ++ line depth ++ ['}'])

/- The text of the elements after the first one. -/
def itemChars (depth : Nat) : List Json → List Char
| [] => []
| item :: items =>
    ',' :: (line depth ++ chars depth item ++
      itemChars depth items)

/- The text of the fields after the first one. -/
def fieldChars (depth : Nat) :
    List (String × Json) → List Char
| [] => []
| (key, value) :: fields =>
    ',' :: (line depth ++ quoted key ++ [':', ' '] ++
      chars depth value ++ fieldChars depth fields)

end

/- The text of a value. -/
def pretty (value : Json) : String :=
  String.ofList (chars 0 value)

end Json

end LosslessCss
