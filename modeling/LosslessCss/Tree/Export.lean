import LosslessCss.Json
import LosslessCss.Tree.Node

/-
  The tree as JSON.  Every part of every node is written, so
  that the tree can be told from its text.

  Key definitions include:
    * `Node.toJson`
    * `Node.json`
-/

------------------------------------------------------------
-- Parts of Nodes
------------------------------------------------------------

namespace LosslessCss

namespace Location

/- A location as JSON. -/
def toJson (here : Location) : Json :=
  .record
    [ ("line", .natural here.line),
      ("column", .natural here.column),
      ("offset", .natural here.offset) ]

end Location

namespace Piece

/- The name of the kind of a piece. -/
def label : Piece → String
| .value _ => "Value"
| .function _ => "Function"
| .filler _ => "Filler"

/- A piece as JSON. -/
def toJson (piece : Piece) : Json :=
  .record
    [("kind", .text piece.label), ("text", .text piece.text)]

/- A list of pieces as JSON. -/
def listJson (pieces : List Piece) : Json :=
  .list (pieces.map toJson)

end Piece

namespace Leaf

/- The name of the kind of a leaf. -/
def label : Leaf → String
| .declaration _ _ _ _ => "Declaration"
| .comment _ => "Comment"
| .statement _ _ => "NonNestedAtRule"

/- The fields of a leaf as JSON. -/
def jsonFields : Leaf → List (String × Json)
| .declaration property beforeColon value important =>
    [ ("property", .text property),
      ("before_colon", .text beforeColon),
      ("value", Piece.listJson value),
      ("important", .flag important) ]
| .comment text => [("value", .text text)]
| .statement name value =>
    [ ("name", .text name.label),
      ("value", Piece.listJson value) ]

end Leaf

namespace Opening

/- The name of the kind of a block. -/
def label : Opening → String
| .styleSheet => "StyleSheet"
| .rule _ => "Rule"
| .atRule _ _ => "NestedAtRule"

/- The fields in front of the children as JSON. -/
def jsonFields : Opening → List (String × Json)
| .styleSheet => []
| .rule selectors => [("prelude", Piece.listJson selectors)]
| .atRule name parameters =>
    [ ("name", .text name.label),
      ("params", Piece.listJson parameters) ]

end Opening

end LosslessCss

------------------------------------------------------------
-- Nodes
------------------------------------------------------------

namespace LosslessCss

namespace Node

/- The name of the kind of a node. -/
def label : Node → String
| .leaf content _ _ => content.label
| .block opening _ _ _ _ => opening.label

/- A node with the fields that its kind has. -/
def jsonRecord
    (label : String)
    (fields : List (String × Json))
    (location : Location)
    (before : String) : Json :=
  .record
    [ ("node_type", .record (("type", .text label) :: fields)),
      ("location", location.toJson),
      ("before", .text before) ]

mutual

/- A node as JSON. -/
def toJson : Node → Json
| .leaf content location before =>
    jsonRecord content.label content.jsonFields location
      before
| .block opening children after location before =>
    let block :=
      Json.record
        [ ("children", .list (toJsonAll children)),
          ("after", .text after) ]
    jsonRecord opening.label
      (opening.jsonFields ++ [("block", block)])
      location before

/- A list of nodes as JSON. -/
def toJsonAll : List Node → List Json
| [] => []
| node :: nodes => node.toJson :: toJsonAll nodes

end

/- The text of the tree as JSON. -/
def json (node : Node) : String :=
  node.toJson.pretty

end Node

end LosslessCss
