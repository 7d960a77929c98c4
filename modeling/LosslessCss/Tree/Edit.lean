import LosslessCss.Tree.Node

/-
  Changes to a tree.

  A block is edited by the positions of its children, and a
  node is reached by a path of such positions.  The indices
  in an edit are machine words, and an index past the last
  child stands for the end of the block.

  Key definitions include:
    * `Word.saturatingAdd`
    * `Block.Place`
    * `Block.place`
    * `Block.insertBefore`
    * `Block.insertAfter`
    * `Block.remove`
    * `Block.push`
    * `Node.at?`
    * `Node.modifyAt`
-/

------------------------------------------------------------
-- Machine Words
------------------------------------------------------------

namespace LosslessCss

namespace Word

/- The largest machine word. -/
def last : UInt64 :=
  18446744073709551615

/- Add two words.  A sum that is too large is the last one. -/
def saturatingAdd (m n : UInt64) : UInt64 :=
  if m ≤ last - n then m + n else last

/- The sum is exact up to the last word. -/
theorem toNat_saturatingAdd
    (m n : UInt64) :
    (saturatingAdd m n).toNat =
      min (m.toNat + n.toNat) last.toNat := by
  have hLast : last.toNat = 18446744073709551615 := rfl
  have hFirst := m.toNat_lt
  have hSecond := n.toNat_lt
  have hRoom :
      (last - n).toNat = last.toNat - n.toNat := by
    apply UInt64.toNat_sub_of_le
    rw [UInt64.le_iff_toNat_le]
    omega
  unfold saturatingAdd
  split
  · rename_i hFits
    rw [UInt64.le_iff_toNat_le, hRoom] at hFits
    rw [UInt64.toNat_add]
    omega
  · rename_i hFits
    rw [UInt64.le_iff_toNat_le, hRoom] at hFits
    omega

end Word

end LosslessCss

------------------------------------------------------------
-- Blocks
------------------------------------------------------------

namespace LosslessCss

namespace Block

/- The number of children. -/
def size (block : Block) : Nat :=
  block.children.length

/- Whether there are no children. -/
def isEmpty (block : Block) : Bool :=
  block.children.isEmpty

/-
  A place where nodes can be inserted: the position of a
  child, or the end of the block.
-/
def Place (block : Block) : Type :=
  Fin (block.size + 1)

/- An index past the last child stands for the end. -/
def place
    (block : Block)
    (index : UInt64) : block.Place :=
  ⟨min index.toNat block.size,
    Nat.lt_succ_of_le (Nat.min_le_right _ _)⟩

/- Insert nodes at a place of the block. -/
def insertAt
    (block : Block)
    (place : block.Place)
    (nodes : List Node) : Block :=
  { block with
    children :=
      block.children.take place.val ++ nodes ++
        block.children.drop place.val }

/- Insert nodes directly before a child, or at the end. -/
def insertBefore
    (block : Block)
    (index : UInt64)
    (nodes : List Node) : Block :=
  block.insertAt (block.place index) nodes

/- Insert nodes directly after a child, or at the end. -/
def insertAfter
    (block : Block)
    (index : UInt64)
    (nodes : List Node) : Block :=
  block.insertAt
    (block.place (Word.saturatingAdd index 1))
    nodes

/- Take a child out, if there is one. -/
def remove
    (block : Block)
    (index : UInt64) : Option Node × Block :=
  match block.children[index.toNat]? with
  | none => (none, block)
  | some node =>
      (some node,
        { block with
          children :=
            block.children.eraseIdx index.toNat })

/- Add a node after the last child. -/
def push
    (block : Block)
    (node : Node) : Block :=
  { block with children := block.children ++ [node] }

end Block

end LosslessCss

------------------------------------------------------------
-- Nodes in a Tree
------------------------------------------------------------

namespace LosslessCss

namespace Node

/- Follow a path of child positions. -/
def at? : List Nat → Node → Option Node
| [], node => some node
| index :: path, .block _ children _ _ _ =>
    match children[index]? with
    | none => none
    | some child => child.at? path
| _ :: _, .leaf _ _ _ => none

/- Change the node at the end of a path, if there is one. -/
def modifyAt
    (f : Node → Node) : List Nat → Node → Node
| [], node => f node
| index :: path, .block opening children after loc before =>
    .block opening
      (children.modify index (modifyAt f path))
      after loc before
| _ :: _, .leaf content location before =>
    .leaf content location before

/- Change the block of a node, if it has one. -/
def mapBlock
    (f : Block → Block) : Node → Node
| .leaf content location before =>
    .leaf content location before
| .block opening children after location before =>
    (f ⟨children, after⟩).toNode opening location before

mutual

/- The paths to a node and to all nodes in it, in order. -/
def paths : Node → List (List Nat)
| .leaf _ _ _ => [[]]
| .block _ children _ _ _ =>
    [] :: pathsFrom 0 children

/- The paths into a list of children, from a position on. -/
def pathsFrom (index : Nat) :
    List Node → List (List Nat)
| [] => []
| node :: nodes =>
    node.paths.map (index :: ·) ++
      pathsFrom (index + 1) nodes

end

end Node

end LosslessCss

------------------------------------------------------------
-- Parts of a Node
------------------------------------------------------------

namespace LosslessCss

namespace Node

/- Replace the formatting after the last child. -/
def withAfter?
    (after : String) : Node → Option Node
| .block opening children _ location before =>
    some (.block opening children after location before)
| .leaf _ _ _ => none

/- Replace the pieces of a node that has some. -/
def withPieces?
    (pieces : List Piece) : Node → Option Node
| .leaf (.declaration property colon _ important) l b =>
    some
      (.leaf (.declaration property colon pieces important)
        l b)
| .leaf (.statement name _) l b =>
    some (.leaf (.statement name pieces) l b)
| .leaf (.comment _) _ _ => none
| .block (.rule _) children after l b =>
    some (.block (.rule pieces) children after l b)
| .block (.atRule name _) children after l b =>
    some (.block (.atRule name pieces) children after l b)
| .block .styleSheet _ _ _ _ => none

/- Replace the property of a declaration. -/
def withProperty?
    (property : String) : Node → Option Node
| .leaf (.declaration _ colon value important) l b =>
    some
      (.leaf (.declaration property colon value important)
        l b)
| _ => none

/- Replace what stands before the colon of a declaration. -/
def withBeforeColon?
    (colon : String) : Node → Option Node
| .leaf (.declaration property _ value important) l b =>
    some
      (.leaf (.declaration property colon value important)
        l b)
| _ => none

/- Replace the mark of importance of a declaration. -/
def withImportant?
    (important : Bool) : Node → Option Node
| .leaf (.declaration property colon value _) l b =>
    some
      (.leaf (.declaration property colon value important)
        l b)
| _ => none

/- Replace the whole text of a comment. -/
def withComment?
    (text : String) : Node → Option Node
| .leaf (.comment _) l b => some (.leaf (.comment text) l b)
| _ => none

/- Replace an at-rule by another one of its family. -/
def withKeyword?
    (word : String)
    (node : Node) : Option Node :=
  match AtRule.ofKeyword? word, node with
  | some (.statement name), .leaf (.statement _ value) l b =>
      some (.leaf (.statement name value) l b)
  | some (.block name),
      .block (.atRule _ parameters) children after l b =>
      some
        (.block (.atRule name parameters) children after l b)
  | _, _ => none

end Node

end LosslessCss
