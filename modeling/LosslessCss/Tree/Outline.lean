import LosslessCss.Tree.Node

/-
  The outline of a tree: one line for each node, and one for
  each value of a declaration, indented by depth.

  Key definitions include:
    * `Node.outlineLines`
    * `Node.outline`
-/

------------------------------------------------------------
-- Outlines
------------------------------------------------------------

namespace LosslessCss

namespace Outline

/- The spaces in front of a line. -/
def indent (depth : Nat) : String :=
  String.ofList (List.replicate (2 * depth) ' ')

/- The truth value of a mark. -/
def flag (b : Bool) : String :=
  if b then "true" else "false"

/- Values, each after a space. -/
def spaced (values : List String) : String :=
  String.join (values.map fun value => " " ++ value)

/- The line of a value of a declaration. -/
def valueLine? : Piece → Option String
| .value text => some ("  [Value] " ++ text)
| .function text => some ("  [Function] " ++ text)
| .filler _ => none

/- The lines of a leaf, without their indentation. -/
def leafLines : Leaf → List String
| .declaration property _ value important =>
    ("[Declaration] property: " ++ property ++
        " important: " ++ flag important) ::
      value.filterMap valueLine?
| .comment text => ["[Comment] " ++ text]
| .statement name value =>
    ["[NonNestedAtRule] @" ++ name.keyword ++
      spaced (Piece.values value)]

/- The line of a block with a number of children. -/
def openingLine
    (size : Nat) : Opening → String
| .styleSheet => "[StyleSheet (" ++ toString size ++ ")]"
| .rule selectors =>
    let names := Piece.values selectors
    "[Rule (" ++ toString names.length ++ ")] " ++
      String.intercalate ", " names
| .atRule name parameters =>
    "[NestedAtRule] @" ++ name.keyword ++
      spaced (Piece.values parameters)

end Outline

namespace Node

mutual

/- The lines of a node and of all nodes in it. -/
def outlineLines
    (depth : Nat) : Node → List String
| .leaf content _ _ =>
    (Outline.leafLines content).map
      (Outline.indent depth ++ ·)
| .block opening children _ _ _ =>
    (Outline.indent depth ++
        Outline.openingLine children.length opening) ::
      outlineAll (depth + 1) children

/- The lines of a list of nodes. -/
def outlineAll
    (depth : Nat) : List Node → List String
| [] => []
| node :: nodes =>
    outlineLines depth node ++ outlineAll depth nodes

end

/- The outline as one text, with an end to every line. -/
def outline (node : Node) : String :=
  String.join
    ((node.outlineLines 0).map fun line => line ++ "\n")

end Node

end LosslessCss
