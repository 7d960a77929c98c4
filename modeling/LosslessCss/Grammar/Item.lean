import LosslessCss.Grammar.AtRule
import LosslessCss.Grammar.Declaration
import LosslessCss.Grammar.Selectors

/-
  Heads of items: comments, at-rules, declarations, and the
  selectors of rules.

  A rule and a declaration start alike.  Only the token that
  ends their first run of tokens tells them apart.

  Key definitions include:
    * `SpanEnd`
    * `Grammar.ambiguousSpan`
    * `Grammar.ruleOrDeclaration`
    * `Grammar.itemHead`

  Key theorems include:
    * `Grammar.consumes_itemHead`
-/

------------------------------------------------------------
-- Rules and Declarations
------------------------------------------------------------

namespace LosslessCss

/-
  How a run of tokens ended: as a declaration, or with the
  left brace of a block, which is taken.
-/
inductive SpanEnd where
  | declaration
  | block
deriving DecidableEq

namespace Grammar

variable {σ : Type} [TokenSource σ]

/- Whether a token may stand inside an ambiguous run. -/
def isAmbiguous (t : Token) : Bool :=
  match t.kind with
  | .semicolon => false
  | .leftCurly => false
  | .rightCurly => false
  | _ => true

/-
  Take tokens up to a semicolon, which is kept, a left
  brace, which is dropped, a right brace or the end.
-/
def ambiguousSpan :
    Parser σ (List Token × SpanEnd) := do
  Parser.enter .ambiguousSpan
  let tokens ← tokensWhile isAmbiguous
  let t ← Parser.current
  match t.kind with
  | .semicolon =>
      Parser.advance
      pure (tokens ++ [t], .declaration)
  | .leftCurly =>
      Parser.advance
      pure (tokens, .block)
  | .rightCurly =>
      if tokens.isEmpty then
        Parser.fail .unexpectedRightCurly
          "expected a rule or declaration"
      else
        pure (tokens, .declaration)
  | _ => pure (tokens, .declaration)

/- Parse the selectors of a rule whose block is open. -/
def ruleOpening
    (tokens : List Token)
    (start : Location) : Parser σ Opening := do
  Parser.enter .ruleBlock
  let selectors ←
    Parser.isolated tokens start fun _ => selectorList
  pure (.rule selectors)

/- Parse the tokens of a declaration. -/
def isolatedDeclaration
    (tokens : List Token) : Parser σ Leaf := do
  let here ← Parser.location
  Parser.isolated tokens here fun _ => declaration

/- Parse a declaration, or a rule up to its block. -/
def ruleOrDeclaration : Parser σ Head := do
  Parser.enter .ruleOrDeclaration
  let start ← Parser.location
  let (tokens, ending) ← ambiguousSpan
  match ending with
  | .declaration =>
      let content ← isolatedDeclaration tokens
      pure (.leaf content)
  | .block =>
      let opening ← ruleOpening tokens start
      pure (.opening opening)

/- Parse a comment, an at-rule, a declaration or a rule. -/
def itemHead : Parser σ Head := do
  let t ← Parser.current
  match t.kind with
  | .comment _ =>
      Parser.advance
      pure (.leaf (.comment t.raw))
  | .atKeyword _ => atRule
  | _ => ruleOrDeclaration

end Grammar

end LosslessCss

------------------------------------------------------------
-- Items Take Tokens
------------------------------------------------------------

namespace LosslessCss

namespace Grammar

variable {σ : Type} [TokenSource σ]

/- A span before the end of the input takes tokens. -/
theorem consumes_ambiguousSpan
    {s : σ}
    (h : (TokenSource.current s).isEof = false) :
    (ambiguousSpan :
      Parser σ (List Token × SpanEnd)).Consumes s := by
  unfold ambiguousSpan
  apply Parser.Consumes.enter
  cases hrun : goesOn isAmbiguous s with
  | true =>
      exact (consumes_tokensWhile hrun).bind _
  | false =>
      have hempty :=
        run_tokensWhile_of_not (p := isAmbiguous) hrun
      apply Parser.Consumes.after
      · rw [hempty]
        rfl
      · intro tokens htokens
        rw [hempty] at htokens
        cases htokens
        apply Parser.Consumes.current
        split
        · exact (Parser.consumes_advance h).bind _
        · exact (Parser.consumes_advance h).bind _
        · exact Parser.consumes_fail _ _ s
        · rename_i hsemi hleft hright
          exfalso
          have hkind :
              isAmbiguous (TokenSource.current s) := by
            unfold isAmbiguous
            split
            · exact absurd ‹_› hsemi
            · exact absurd ‹_› hleft
            · exact absurd ‹_› hright
            · rfl
          simp [goesOn, h, hkind] at hrun

/- A head before the end of the input takes tokens. -/
theorem consumes_itemHead
    {s : σ}
    (h : (TokenSource.current s).isEof = false) :
    (itemHead : Parser σ Head).Consumes s := by
  unfold itemHead
  apply Parser.Consumes.current
  split
  · exact (Parser.consumes_advance h).bind _
  · exact consumes_atRule h
  · unfold ruleOrDeclaration
    apply Parser.Consumes.enter
    apply Parser.Consumes.location
    exact (consumes_ambiguousSpan h).bind _

end Grammar

end LosslessCss
