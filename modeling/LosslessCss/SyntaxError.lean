import LosslessCss.Text.Location

/-
  Syntax errors.  The first error ends the parse.

  Key definitions include:
    * `ErrorKind`
    * `SyntaxError`
    * `SyntaxError.message`
-/

------------------------------------------------------------
-- Syntax Errors
------------------------------------------------------------

namespace LosslessCss

/- What is wrong with the input. -/
inductive ErrorKind where
  | unclosedBlock
  | invalidDeclaration
  | unexpectedAtRule
  | invalidCharset
  | invalidImport
  | invalidNamespace
  | invalidBlockAtRule
  | unexpectedRightCurly
  | unimplemented
deriving DecidableEq

namespace ErrorKind

/- The text that starts a message. -/
def text : ErrorKind → String
| .unclosedBlock => "unclosed block"
| .invalidDeclaration => "invalid declaration"
| .unexpectedAtRule => "unexpected at-rule"
| .invalidCharset => "invalid @charset rule"
| .invalidImport => "invalid @import rule"
| .invalidNamespace => "invalid @namespace rule"
| .invalidBlockAtRule => "invalid nested at-rule"
| .unexpectedRightCurly => "unexpected \x7d"
| .unimplemented => "unimplemented"

end ErrorKind

/- An error with what was expected instead, and where. -/
structure SyntaxError where
  kind : ErrorKind
  detail : String
  location : Location
deriving DecidableEq

namespace SyntaxError

/- The full text of an error. -/
def message (e : SyntaxError) : String :=
  e.kind.text ++ ": " ++ e.detail ++ " at " ++
    e.location.label

end SyntaxError

end LosslessCss
