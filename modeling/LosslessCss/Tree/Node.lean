import LosslessCss.Text.Location
import LosslessCss.Tree.AtRule
import LosslessCss.Tree.Piece

/-
  The syntax tree of a style sheet.

  A node is a leaf or a block of further nodes.  It keeps
  the formatting in front of it, and a block also keeps the
  formatting after its last child, so that no character of
  the source is lost.

  Key definitions include:
    * `Leaf`
    * `Opening`
    * `Node`
    * `Block`
    * `Node.block?`
    * `Node.pieces`
-/

------------------------------------------------------------
-- Nodes
------------------------------------------------------------

namespace LosslessCss

/- What a node without children is. -/
inductive Leaf where
  | declaration
      (property : String)
      (beforeColon : String)
      (value : List Piece)
      (important : Bool)
  | comment (text : String)
  | statement (name : StatementRule) (value : List Piece)
deriving DecidableEq

/- What stands in front of the children of a node. -/
inductive Opening where
  | styleSheet
  | rule (selectors : List Piece)
  | atRule (name : BlockRule) (parameters : List Piece)
deriving DecidableEq

/- A node of the tree. -/
inductive Node where
  | leaf
      (content : Leaf)
      (location : Location)
      (before : String)
  | block
      (opening : Opening)
      (children : List Node)
      (after : String)
      (location : Location)
      (before : String)

/- The children of a node and what follows the last one. -/
structure Block where
  children : List Node
  after : String

end LosslessCss

------------------------------------------------------------
-- Parts of a Node
------------------------------------------------------------

namespace LosslessCss

namespace Block

/- The node that a block forms with its opening. -/
def toNode
    (block : Block)
    (opening : Opening)
    (location : Location)
    (before : String) : Node :=
  .block opening block.children block.after location before

end Block

namespace Node

/- Where the node starts, after what is in front of it. -/
def location : Node → Location
| .leaf _ location _ => location
| .block _ _ _ location _ => location

/- The formatting in front of the node. -/
def before : Node → String
| .leaf _ _ before => before
| .block _ _ _ _ before => before

/- The node with other formatting in front of it. -/
def withBefore
    (before : String) : Node → Node
| .leaf content location _ =>
    .leaf content location before
| .block opening children after location _ =>
    .block opening children after location before

/- The node at another location. -/
def withLocation
    (location : Location) : Node → Node
| .leaf content _ before =>
    .leaf content location before
| .block opening children after _ before =>
    .block opening children after location before

/- The block of a node that has one. -/
def block? : Node → Option Block
| .leaf _ _ _ => none
| .block _ children after _ _ => some ⟨children, after⟩

/- Whether the node is a rule with selectors. -/
def isRule : Node → Bool
| .block (.rule _) _ _ _ _ => true
| _ => false

/- Whether the node is a declaration. -/
def isDeclaration : Node → Bool
| .leaf (.declaration _ _ _ _) _ _ => true
| _ => false

/- Whether the node is a comment. -/
def isComment : Node → Bool
| .leaf (.comment _) _ _ => true
| _ => false

/- The selectors of a rule. -/
def selectors : Node → List String
| .block (.rule pieces) _ _ _ _ => Piece.values pieces
| _ => []

/-
  The formatting in front of every selector of a rule, and
  that between the last one and the block.
-/
def beforeSelectors : Node → List String
| .block (.rule pieces) _ _ _ _ => Piece.fillers pieces
| _ => []

/- The values of a declaration or an at-rule. -/
def values : Node → List String
| .leaf (.declaration _ _ value _) _ _ =>
    Piece.values value
| .leaf (.statement _ value) _ _ => Piece.values value
| .block (.atRule _ parameters) _ _ _ _ =>
    Piece.values parameters
| _ => []

end Node

end LosslessCss

------------------------------------------------------------
-- New Nodes
------------------------------------------------------------

namespace LosslessCss

namespace Node

/- A comment with the given text between its marks. -/
def ofComment (text : String) : Node :=
  .leaf (.comment ("/*" ++ text ++ "*/")) Location.start ""

/- A declaration in its most compact form. -/
def ofDeclaration
    (property value : String)
    (important : Bool) : Node :=
  let mark :=
    if important then [Piece.filler "!important"] else []
  .leaf
    (.declaration property "" (.value value :: mark)
      important)
    Location.start ""

end Node

end LosslessCss

------------------------------------------------------------
-- Equality of Nodes
------------------------------------------------------------

namespace LosslessCss

namespace Node

mutual

/- Decide whether two nodes are equal. -/
def decEq : (a b : Node) → Decidable (a = b)
| .leaf c l w, .leaf c' l' w' =>
    if h : c = c' ∧ l = l' ∧ w = w' then
      isTrue (by simp [h])
    else
      isFalse (by simpa using h)
| .block o cs a l w, .block o' cs' a' l' w' =>
    match decEqList cs cs' with
    | isTrue hcs =>
        if h : o = o' ∧ a = a' ∧ l = l' ∧ w = w' then
          isTrue (by simp [h, hcs])
        else
          isFalse (by simpa [hcs] using h)
    | isFalse hcs => isFalse (by simp [hcs])
| .leaf _ _ _, .block _ _ _ _ _ => isFalse (by simp)
| .block _ _ _ _ _, .leaf _ _ _ => isFalse (by simp)

/- Decide whether two lists of nodes are equal. -/
def decEqList : (as bs : List Node) → Decidable (as = bs)
| [], [] => isTrue rfl
| a :: as, b :: bs =>
    match decEq a b, decEqList as bs with
    | isTrue ha, isTrue has => isTrue (by rw [ha, has])
    | isFalse ha, _ => isFalse (by simp [ha])
    | _, isFalse has => isFalse (by simp [has])
| [], _ :: _ => isFalse (by simp)
| _ :: _, [] => isFalse (by simp)

end

instance : DecidableEq Node :=
  decEq

end Node

deriving instance DecidableEq for Block

end LosslessCss
