import LosslessCss.Tree.Node

/-
  The source text of a tree.

  Nothing is normalized: structure and formatting are
  written in the order in which they were recorded.

  Key definitions include:
    * `Leaf.render`
    * `Opening.render`
    * `Node.render`
    * `Node.renderAll`
-/

------------------------------------------------------------
-- Rendering
------------------------------------------------------------

namespace LosslessCss

namespace Leaf

/- The text of a leaf. -/
def render : Leaf → String
| .declaration property beforeColon value _ =>
    property ++ beforeColon ++ ":" ++ Piece.joined value
| .comment text => text
| .statement name value =>
    "@" ++ name.keyword ++ Piece.joined value

end Leaf

namespace Opening

/- The text in front of the children. -/
def render : Opening → String
| .styleSheet => ""
| .rule selectors => Piece.joined selectors ++ "\x7b"
| .atRule name parameters =>
    "@" ++ name.keyword ++ Piece.joined parameters ++
      "\x7b"

/- The text after the children. -/
def close : Opening → String
| .styleSheet => ""
| .rule _ => "\x7d"
| .atRule _ _ => "\x7d"

end Opening

namespace Node

mutual

/- The text of a node with what is in front of it. -/
def render : Node → String
| .leaf content _ before => before ++ content.render
| .block opening children after _ before =>
    before ++ opening.render ++ renderAll children ++
      after ++ opening.close

/- The text of a list of nodes. -/
def renderAll : List Node → String
| [] => ""
| node :: nodes => node.render ++ renderAll nodes

end

end Node

end LosslessCss
