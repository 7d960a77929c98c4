import LosslessCss.Number.Binary32
import LosslessCss.Text.Location

/-
  Tokens of a style sheet.

  A token keeps the exact source text that it was read from
  next to its meaning, so the texts of all tokens of a
  source, put together, are the source again.  Blanks and
  comments are tokens too.

  Key definitions include:
    * `TokenKind`
    * `Token`
    * `Token.endLocation`
    * `Token.isFiller`
    * `Token.rawText`
-/

------------------------------------------------------------
-- Kinds of Tokens
------------------------------------------------------------

namespace LosslessCss

/-
  What a token is, with its value.  Values have no escapes,
  no quotes and no marks such as `@`, `#` or `(`.
-/
inductive TokenKind where
  | atKeyword (name : String)
  | ident (name : String)
  | function (name : String)
  | url (address : String)
  | badUrl (address : String)
  | dimension (value : Binary32) (unit : String)
  | percentage (value : Binary32)
  | number (value : Binary32)
  | quotation (text : String)
  | badQuotation (text : String)
  | whitespace
  | hash (name : String)
  | delim (c : Char)
  | leftCurly
  | rightCurly
  | leftParen
  | rightParen
  | leftBracket
  | rightBracket
  | comma
  | colon
  | semicolon
  | cdo
  | cdc
  | eof
  | comment (text : String)
deriving DecidableEq

end LosslessCss

------------------------------------------------------------
-- Tokens
------------------------------------------------------------

namespace LosslessCss

/- A token with its source text and where that starts. -/
structure Token where
  kind : TokenKind
  raw : String
  location : Location
deriving DecidableEq

namespace Token

/- The token that marks the end of the input. -/
def endOfInput (here : Location) : Token :=
  ⟨.eof, "", here⟩

/- The place directly after the token. -/
def endLocation (t : Token) : Location :=
  t.location.advanceBy t.raw

/- Whether the token marks the end of the input. -/
def isEof (t : Token) : Bool :=
  match t.kind with
  | .eof => true
  | _ => false

/- The end mark marks the end. -/
@[simp]
theorem isEof_endOfInput
    (here : Location) :
    (endOfInput here).isEof = true :=
  rfl

/- Whether the token is a run of blanks. -/
def isWhitespace (t : Token) : Bool :=
  match t.kind with
  | .whitespace => true
  | _ => false

/- Whether the token is a comment. -/
def isComment (t : Token) : Bool :=
  match t.kind with
  | .comment _ => true
  | _ => false

/- Whether the token is an identifier. -/
def isIdent (t : Token) : Bool :=
  match t.kind with
  | .ident _ => true
  | _ => false

/- Blanks and comments are formatting, not structure. -/
def isFiller (t : Token) : Bool :=
  t.isWhitespace || t.isComment

/- The source text of a run of tokens. -/
def rawText : List Token → String
| [] => ""
| t :: tokens => t.raw ++ rawText tokens

end Token

end LosslessCss
