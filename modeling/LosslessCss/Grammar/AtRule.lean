import LosslessCss.Grammar.Fragment
import LosslessCss.Text.Letters
import LosslessCss.Tree.Node

/-
  At-rules up to the end of a statement or the start of a
  block.

  Key definitions include:
    * `Head`
    * `Grammar.address`
    * `Grammar.statementEnd`
    * `Grammar.statementValue`
    * `Grammar.blockParameters`
    * `Grammar.atRule`
-/

------------------------------------------------------------
-- Heads of Items
------------------------------------------------------------

namespace LosslessCss

/-
  The head of an item: a whole item without children, or
  what opens the block of one.
-/
inductive Head where
  | leaf (content : Leaf)
  | opening (opening : Opening)
deriving DecidableEq

end LosslessCss

------------------------------------------------------------
-- Parts of Statements
------------------------------------------------------------

namespace LosslessCss

namespace Grammar

variable {σ : Type} [TokenSource σ]

/- Whether a token opens a function of the name `url`. -/
def isUrlFunction (t : Token) : Bool :=
  match t.kind with
  | .function name => Text.sameLetters name "url"
  | _ => false

/- Whether a token is an address or a quotation. -/
def isPlainAddress (t : Token) : Bool :=
  match t.kind with
  | .url _ => true
  | .quotation _ => true
  | _ => false

/- Parse an address: a token, or a call of `url`. -/
def address (kind : ErrorKind) : Parser σ Piece := do
  let t ← Parser.current
  if isPlainAddress t then
    Parser.advance
    pure (.value t.raw)
  else if isUrlFunction t then
    let call ← chunk opensFunction?
    pure (.function call.raw)
  else
    Parser.fail kind "expected a string or url"

/-
  Parse the end of a statement.  A semicolon is kept as
  formatting.  A right brace is left for the block around
  the statement.
-/
def statementEnd
    (pieces : List Piece)
    (kind : ErrorKind) : Parser σ (List Piece) := do
  let blank ← filler
  let pieces := Piece.pushFiller pieces blank
  let t ← Parser.current
  match t.kind with
  | .semicolon =>
      Parser.advance
      pure (Piece.pushFiller pieces t.raw)
  | .eof => pure pieces
  | .rightCurly => pure pieces
  | _ => Parser.fail kind "expected a semicolon"

end Grammar

end LosslessCss

------------------------------------------------------------
-- Statements
------------------------------------------------------------

namespace LosslessCss

namespace Grammar

variable {σ : Type} [TokenSource σ]

/- Whether a token is a quotation in double quotes. -/
def isDoubleQuoted (t : Token) : Bool :=
  match t.kind with
  | .quotation _ => t.raw.toList.head? == some '"'
  | _ => false

/- Parse the name of an encoding. -/
def charsetValue : Parser σ (List Piece) := do
  Parser.enter .charsetRule
  let blank ← filler
  let t ← Parser.current
  if isDoubleQuoted t then
    Parser.advance
    statementEnd
      (Piece.pushFiller [] blank ++ [.value t.raw])
      .invalidCharset
  else
    Parser.fail .invalidCharset
      "expected a double quoted string"

/- Whether a token ends the conditions of an import. -/
def endsImport (t : Token) : Bool :=
  match t.kind with
  | .semicolon => true
  | .leftCurly => true
  | .rightCurly => true
  | _ => false

/- Parse an address with conditions after it. -/
def importValue : Parser σ (List Piece) := do
  Parser.enter .importRule
  let blank ← filler
  let url ← address .invalidImport
  let conditions ← fragment endsImport
  statementEnd
    (conditions.foldl Piece.push
      (Piece.pushFiller [] blank ++ [url]))
    .invalidImport

/- Parse the optional name in front of an address. -/
def namespaceName : Parser σ (List Piece) := do
  let blank ← filler
  let t ← Parser.current
  if t.isIdent then
    Parser.advance
    let inner ← filler
    pure
      (Piece.pushFiller
        (Piece.pushFiller [] blank ++ [.value t.raw])
        inner)
  else
    pure (Piece.pushFiller [] blank)

/- Parse an address with an optional name before it. -/
def namespaceValue : Parser σ (List Piece) := do
  Parser.enter .namespaceRule
  let name ← namespaceName
  let url ← address .invalidNamespace
  statementEnd (name ++ [url]) .invalidNamespace

/- Parse what follows the keyword of a statement. -/
def statementValue :
    StatementRule → Parser σ (List Piece)
| .charsetRule => charsetValue
| .importRule => importValue
| .namespaceRule => namespaceValue

end Grammar

end LosslessCss

------------------------------------------------------------
-- At-Rules
------------------------------------------------------------

namespace LosslessCss

namespace Grammar

variable {σ : Type} [TokenSource σ]

/- Whether a token is a left brace. -/
def isLeftCurly (t : Token) : Bool :=
  match t.kind with
  | .leftCurly => true
  | _ => false

/-
  Parse the parameters of a block at-rule with the left
  brace after them.
-/
def blockParameters : Parser σ (List Piece) := do
  Parser.enter .blockAtRule
  let parameters ← fragment isLeftCurly
  let t ← Parser.current
  if isLeftCurly t then
    Parser.advance
    pure parameters
  else
    Parser.fail .invalidBlockAtRule "expected a block"

/- The keyword in the text of a token: all after an `@`. -/
def keywordOf (raw : String) : String :=
  match raw.toList with
  | '@' :: word => String.ofList word
  | _ => ""

/-
  Parse an at-rule from its keyword on.  The keyword counts
  as it is written, so an escape in it is not decoded.
-/
def atRule : Parser σ Head := do
  Parser.enter .atRule
  let t ← Parser.current
  match AtRule.ofKeyword? (keywordOf t.raw) with
  | none =>
      Parser.fail .unexpectedAtRule
        ("unknown at-rule " ++ t.raw)
  | some (.statement name) =>
      Parser.advance
      let value ← statementValue name
      pure (.leaf (.statement name value))
  | some (.block name) =>
      Parser.advance
      let parameters ← blockParameters
      pure (.opening (.atRule name parameters))

/- An at-rule before the end of the input takes tokens. -/
theorem consumes_atRule
    {s : σ}
    (h : (TokenSource.current s).isEof = false) :
    (atRule : Parser σ Head).Consumes s := by
  unfold atRule
  apply Parser.Consumes.enter
  apply Parser.Consumes.current
  split
  · exact Parser.consumes_fail _ _ s
  · exact (Parser.consumes_advance h).bind _
  · exact (Parser.consumes_advance h).bind _

end Grammar

end LosslessCss
