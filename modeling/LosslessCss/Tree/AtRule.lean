/-
  The known at-rules.

  A statement at-rule ends with a semicolon, and a block
  at-rule is followed by a block of items.  Keywords are
  told apart by their exact spelling.

  Key definitions include:
    * `StatementRule`
    * `BlockRule`
    * `AtRule`
    * `AtRule.keyword`
    * `AtRule.ofKeyword?`
-/

------------------------------------------------------------
-- The Two Families
------------------------------------------------------------

namespace LosslessCss

/- At-rules that never have a block. -/
inductive StatementRule where
  | charsetRule
  | importRule
  | namespaceRule
deriving DecidableEq

/- At-rules that always have a block. -/
inductive BlockRule where
  | media
  | supports
  | page
  | fontFace
  | keyframes
  | counterStyle
  | fontFeatureValues
  | viewport
  | msViewport
deriving DecidableEq

/- An at-rule of either family. -/
inductive AtRule where
  | statement (rule : StatementRule)
  | block (rule : BlockRule)
deriving DecidableEq

end LosslessCss

------------------------------------------------------------
-- Keywords
------------------------------------------------------------

namespace LosslessCss

namespace StatementRule

/- The keyword after the at sign. -/
def keyword : StatementRule → String
| .charsetRule => "charset"
| .importRule => "import"
| .namespaceRule => "namespace"

/- The name in exported trees. -/
def label : StatementRule → String
| .charsetRule => "Charset"
| .importRule => "Import"
| .namespaceRule => "Namespace"

end StatementRule

namespace BlockRule

/- The keyword after the at sign. -/
def keyword : BlockRule → String
| .media => "media"
| .supports => "supports"
| .page => "page"
| .fontFace => "font-face"
| .keyframes => "keyframes"
| .counterStyle => "counter-style"
| .fontFeatureValues => "font-feature-values"
| .viewport => "viewport"
| .msViewport => "-ms-viewport"

/- The name in exported trees. -/
def label : BlockRule → String
| .media => "Media"
| .supports => "Supports"
| .page => "Page"
| .fontFace => "FontFace"
| .keyframes => "Keyframes"
| .counterStyle => "CounterStyle"
| .fontFeatureValues => "FontFeatureValues"
| .viewport => "Viewport"
| .msViewport => "MsViewport"

end BlockRule

namespace AtRule

/- All at-rules. -/
def all : List AtRule :=
  [ .statement .charsetRule,
    .statement .importRule,
    .statement .namespaceRule,
    .block .media,
    .block .supports,
    .block .page,
    .block .fontFace,
    .block .keyframes,
    .block .counterStyle,
    .block .fontFeatureValues,
    .block .viewport,
    .block .msViewport ]

/- The keyword after the at sign. -/
def keyword : AtRule → String
| .statement rule => rule.keyword
| .block rule => rule.keyword

/- The name in exported trees. -/
def label : AtRule → String
| .statement rule => rule.label
| .block rule => rule.label

/- Whether the at-rule has a block. -/
def hasBlock : AtRule → Bool
| .statement _ => false
| .block _ => true

/- The at-rule with the given keyword. -/
def ofKeyword? (word : String) : Option AtRule :=
  all.find? fun rule => rule.keyword == word

end AtRule

end LosslessCss
