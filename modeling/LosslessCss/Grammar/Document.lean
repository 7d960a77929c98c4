import LosslessCss.Grammar.RuleList

/-
  Whole inputs: a style sheet, or a single item with
  formatting around it.

  Key definitions include:
    * `Grammar.styleSheet`
    * `Grammar.single`
    * `Grammar.document`
    * `Session.parse`
-/

------------------------------------------------------------
-- Style Sheets
------------------------------------------------------------

namespace LosslessCss

namespace Grammar

variable {σ : Type} [TokenSource σ]

/- Parse a style sheet. -/
def styleSheet (scope : Scope) : Parser σ Node := do
  Parser.enter .styleSheet
  let start ← Parser.location
  let block ← ruleList scope false
  pure (block.toNode .styleSheet start "")

end Grammar

end LosslessCss

------------------------------------------------------------
-- Single Items
------------------------------------------------------------

namespace LosslessCss

namespace Grammar

variable {σ : Type} [TokenSource σ]

/- Parse what is left of an item after its head. -/
def finishItem
    (scope : Scope)
    (head : Head)
    (start : Location) : Parser σ Node :=
  match head with
  | .leaf content => pure (.leaf content start "")
  | .opening opening => blockNode scope opening start

/- Whether a token is an at-keyword. -/
def isAtKeyword (t : Token) : Bool :=
  match t.kind with
  | .atKeyword _ => true
  | _ => false

/- Parse a rule with selectors. -/
def singleRule (scope : Scope) : Parser σ Node := do
  Parser.enter .singleRule
  let t ← Parser.current
  if isAtKeyword t then
    Parser.fail .unexpectedAtRule
      "expected a qualified rule"
  else
    let start ← Parser.location
    let (tokens, ending) ← ambiguousSpan
    match ending with
    | .block =>
        let opening ← ruleOpening tokens start
        blockNode scope opening start
    | .declaration =>
        Parser.fail .unclosedBlock "expected a rule block"

/- Parse an at-rule. -/
def singleAtRule (scope : Scope) : Parser σ Node := do
  Parser.enter .singleAtRule
  let t ← Parser.current
  if isAtKeyword t then
    let head ← atRule
    finishItem scope head t.location
  else
    Parser.fail .unexpectedAtRule "expected an at-rule"

/- Parse a declaration. -/
def singleDeclaration : Parser σ Node := do
  Parser.enter .singleDeclaration
  let start ← Parser.location
  let (tokens, ending) ← ambiguousSpan
  match ending with
  | .declaration =>
      let content ← isolatedDeclaration tokens
      pure (.leaf content start "")
  | .block =>
      Parser.fail .invalidDeclaration
        "unexpected block in a declaration"

/-
  Parse an item with formatting around it, up to the end of
  the input.  The item is the only child of a style sheet.
-/
def single
    (item : Parser σ Node)
    (kind : ErrorKind) : Parser σ Node := do
  Parser.enter .single
  let start ← Parser.location
  let before ← filler
  let node ← item
  let after ← filler
  let t ← Parser.current
  if t.isEof then
    let block : Block := ⟨[node.withBefore before], after⟩
    pure (block.toNode .styleSheet start "")
  else
    Parser.fail kind "expected the end of the input"

end Grammar

end LosslessCss

------------------------------------------------------------
-- Contexts
------------------------------------------------------------

namespace LosslessCss

namespace Grammar

variable {σ : Type} [TokenSource σ]

/- Parse an input of the given context. -/
def document (scope : Scope) : Context → Parser σ Node
| .styleSheet => styleSheet scope
| .rule => single (singleRule scope) .unclosedBlock
| .atRule =>
    single (singleAtRule scope) .unexpectedAtRule
| .declaration =>
    single singleDeclaration .invalidDeclaration

end Grammar

/- Parse an input of the given context in a session. -/
def Session.parse
    {σ : Type}
    [TokenSource σ]
    (session : Session σ)
    (context : Context) : Reply σ Node :=
  session.reply fun scope => Grammar.document scope context

namespace Session

variable {σ : Type} [TokenSource σ]

/- A session over a source has all of the grammar. -/
@[simp] theorem parse_ofSource
    (s : σ)
    (context : Context) :
    (ofSource s).parse context =
      (Grammar.document .full context).run s :=
  rfl

end Session

end LosslessCss
