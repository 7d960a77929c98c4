import LosslessCss.Number.Shortest
import LosslessCss.Text.Quoted
import LosslessCss.Token

/-
  Descriptions of tokens for diagnostics.

  Key definitions include:
    * `TokenKind.describe`
    * `Token.describe`
    * `Token.listing`
-/

------------------------------------------------------------
-- Descriptions
------------------------------------------------------------

namespace LosslessCss

namespace TokenKind

/- A name followed by one value in parentheses. -/
def tagged (name value : String) : String :=
  name ++ "(" ++ value ++ ")"

/- A name followed by labelled values in braces. -/
def fielded
    (name : String)
    (fields : List (String × String)) : String :=
  name ++ " \x7b " ++
    String.intercalate ", "
      (fields.map fun field =>
        field.1 ++ ": " ++ field.2) ++
    " \x7d"

/- The name of a kind with its value. -/
def describe : TokenKind → String
| .atKeyword name => tagged "AtKeyword" (Text.quoted name)
| .ident name => tagged "Ident" (Text.quoted name)
| .function name => tagged "Function" (Text.quoted name)
| .url address => tagged "Url" (Text.quoted address)
| .badUrl address => tagged "BadUrl" (Text.quoted address)
| .dimension value unit =>
    fielded "Dimension"
      [("value", value.text), ("unit", Text.quoted unit)]
| .percentage value => tagged "Percentage" value.text
| .number value => tagged "Number" value.text
| .quotation text =>
    tagged "QuotedString" (Text.quoted text)
| .badQuotation text =>
    tagged "BadString" (Text.quoted text)
| .whitespace => "Whitespace"
| .hash name => tagged "Hash" (Text.quoted name)
| .delim c => tagged "Delim" (Text.quotedChar c)
| .leftCurly => "LCurly"
| .rightCurly => "RCurly"
| .leftParen => "LParen"
| .rightParen => "RParen"
| .leftBracket => "LBracket"
| .rightBracket => "RBracket"
| .comma => "Comma"
| .colon => "Colon"
| .semicolon => "Semicolon"
| .cdo => "Cdo"
| .cdc => "Cdc"
| .eof => "Eof"
| .comment text => tagged "Comment" (Text.quoted text)

end TokenKind

namespace Location

/- A location in parentheses. -/
def describe (here : Location) : String :=
  "(" ++ here.label ++ ")"

end Location

namespace Token

/- A token with all its parts, on one line. -/
def describe (t : Token) : String :=
  TokenKind.fielded "Token"
    [ ("token_type", t.kind.describe),
      ("raw", Text.quoted t.raw),
      ("location", t.location.describe) ]

/- A line of a token listing. -/
def listing (t : Token) : String :=
  t.location.describe ++ " " ++ t.kind.describe ++ " " ++
    Text.quoted t.raw

end Token

end LosslessCss
