import LosslessCss.Proofs.Placement
import LosslessCss.Tree.Edit

/-
  Edits of a tree are local.

  An edit of a block replaces some of its children.  The text
  of the tree changes at that place only: what is written in
  front of it and after it stays as it was, however deep the
  block is.

  Key definitions include:
    * `Block.splice`
    * `Node.writtenBefore`
    * `Node.writtenAfter`

  Key theorems include:
    * `Node.render_splice`
    * `Node.block_edits_local`
-/

------------------------------------------------------------
-- Replaced Children
------------------------------------------------------------

namespace LosslessCss

namespace Block

/-
  Replace the children from one position up to another.
  A position past the last child stands for the end.
-/
def splice
    (block : Block)
    (first last : Nat)
    (nodes : List Node) : Block :=
  { block with
    children :=
      block.children.take first ++ nodes ++
        block.children.drop last }

variable (block : Block)

theorem insertBefore_eq_splice
    (index : UInt64)
    (nodes : List Node) :
    block.insertBefore index nodes =
      block.splice (min index.toNat block.size)
        (min index.toNat block.size) nodes :=
  rfl

theorem insertAfter_eq_insertBefore
    (index : UInt64)
    (nodes : List Node) :
    block.insertAfter index nodes =
      block.insertBefore (Word.saturatingAdd index 1) nodes :=
  rfl

/-
  The position after the largest word is not a word, but no
  block with as many children as can be counted gets to it.
-/
theorem insertAfter_eq_splice
    (hSize : block.size ≤ Word.last.toNat)
    (index : UInt64)
    (nodes : List Node) :
    block.insertAfter index nodes =
      block.splice (min (index.toNat + 1) block.size)
        (min (index.toNat + 1) block.size) nodes := by
  have hNext :
      (Word.saturatingAdd index 1).toNat =
        min (index.toNat + 1) Word.last.toNat :=
    Word.toNat_saturatingAdd index 1
  have hPlace :
      min (Word.saturatingAdd index 1).toNat block.size =
        min (index.toNat + 1) block.size := by
    rw [hNext, Nat.min_assoc, Nat.min_eq_right hSize]
  rw [insertAfter_eq_insertBefore, insertBefore_eq_splice,
    hPlace]

theorem push_eq_insertBefore
    (hSize : block.size ≤ Word.last.toNat)
    (node : Node) :
    block.push node =
      block.insertBefore (UInt64.ofNat block.size)
        [node] := by
  have hIndex :
      (UInt64.ofNat block.size).toNat = block.size := by
    have hLast : Word.last.toNat < UInt64.size := by decide
    exact UInt64.toNat_ofNat_of_lt (by omega)
  rw [insertBefore_eq_splice, hIndex, Nat.min_self]
  simp [push, splice, size]

/- A child is taken out together with its position. -/
theorem remove_of_getElem?
    {index : UInt64}
    {child : Node}
    (hChild : block.children[index.toNat]? = some child) :
    block.remove index =
      (some child,
        block.splice index.toNat (index.toNat + 1) []) := by
  simp [remove, hChild, splice, List.eraseIdx_eq_take_drop_succ]

theorem remove_of_size_le
    {index : UInt64}
    (hPast : block.size ≤ index.toNat) :
    block.remove index = (none, block) := by
  have hNone : block.children[index.toNat]? = none :=
    List.getElem?_eq_none hPast
  simp [remove, hNone]

/- What has been inserted can be taken out again. -/
theorem remove_insertBefore
    {index : UInt64}
    (hInside : index.toNat ≤ block.size)
    (node : Node) :
    (block.insertBefore index [node]).remove index =
      (some node, block) := by
  rcases block with ⟨children, after⟩
  have hPlace :
      min index.toNat (Block.mk children after).size =
        index.toNat :=
    Nat.min_eq_left hInside
  have hLength :
      (children.take index.toNat).length = index.toNat :=
    List.length_take_of_le hInside
  have hChild :
      ((Block.mk children after).insertBefore index
        [node]).children[index.toNat]? = some node := by
    simp [insertBefore_eq_splice, splice, hPlace, hLength]
  have hFront :
      (children.take index.toNat).drop (index.toNat + 1) =
        [] :=
    List.drop_of_length_le (by omega)
  rw [remove_of_getElem? _ hChild]
  simp [insertBefore_eq_splice, splice, hPlace,
    List.drop_append, hLength, hFront]

end Block

end LosslessCss

------------------------------------------------------------
-- Changed Nodes
------------------------------------------------------------

namespace LosslessCss

namespace Node

@[simp] theorem block?_mapBlock
    (f : Block → Block)
    (node : Node) :
    (node.mapBlock f).block? = node.block?.map f := by
  cases node with
  | leaf _ _ _ => rfl
  | block _ _ _ _ _ => rfl

theorem mapBlock_mapBlock
    (f g : Block → Block)
    (node : Node) :
    (node.mapBlock f).mapBlock g =
      node.mapBlock fun b => g (f b) := by
  cases node with
  | leaf _ _ _ => rfl
  | block _ _ _ _ _ => rfl

theorem mapBlock_eq_self
    {node : Node}
    {block : Block}
    (hBlock : node.block? = some block)
    {f : Block → Block}
    (hSame : f block = block) :
    node.mapBlock f = node := by
  cases node with
  | leaf _ _ _ => rfl
  | block _ _ _ _ _ =>
      cases hBlock
      rw [mapBlock, hSame]
      rfl

/- The first step of a path leads to a child. -/
theorem exists_child_of_at?
    {root node : Node}
    {index : Nat}
    {path : List Nat}
    (hAt : root.at? (index :: path) = some node) :
    ∃ opening left child right after location before,
      root =
          .block opening (left ++ child :: right) after
            location before ∧
        left.length = index ∧
        child.at? path = some node := by
  cases root with
  | leaf _ _ _ => cases hAt
  | block opening children after location before =>
      rw [at?] at hAt
      cases hChild : children[index]? with
      | none => simp [hChild] at hAt
      | some child =>
          rw [hChild] at hAt
          obtain ⟨hIndex, rfl⟩ :=
            List.getElem?_eq_some_iff.mp hChild
          refine
            ⟨opening, children.take index, children[index],
              children.drop (index + 1), after, location,
              before, ?_, ?_, hAt⟩
          · rw [← List.drop_eq_getElem_cons hIndex,
              List.take_append_drop]
          · exact List.length_take_of_le hIndex.le

variable
  {opening : Opening}
  {left right : List Node}
  {child : Node}
  {after before : String}
  {location : Location}

/- A change below a child is a change of that child. -/
theorem modifyAt_child
    (f : Node → Node)
    (path : List Nat) :
    (block opening (left ++ child :: right) after location
        before).modifyAt f (left.length :: path) =
      block opening (left ++ child.modifyAt f path :: right)
        after location before := by
  simp [modifyAt, List.modify_eq_take_drop]

/- The node at the end of the path is the one that changes. -/
theorem at?_modifyAt
    {root node : Node}
    {path : List Nat}
    (hAt : root.at? path = some node)
    (f : Node → Node) :
    (root.modifyAt f path).at? path = some (f node) := by
  induction path generalizing root with
  | nil =>
      cases hAt
      rfl
  | cons index path ih =>
      rcases exists_child_of_at? hAt with
        ⟨opening, left, child, right, after, location,
          before, rfl, rfl, hChild⟩
      rw [modifyAt_child]
      simp [at?, ih hChild]

/- A change that changes nothing leaves the tree as it is. -/
theorem modifyAt_eq_self
    {root node : Node}
    {path : List Nat}
    (hAt : root.at? path = some node)
    {f : Node → Node}
    (hSame : f node = node) :
    root.modifyAt f path = root := by
  induction path generalizing root with
  | nil =>
      cases hAt
      exact hSame
  | cons index path ih =>
      rcases exists_child_of_at? hAt with
        ⟨opening, left, child, right, after, location,
          before, rfl, rfl, hChild⟩
      rw [modifyAt_child, ih hChild]

/- Two changes in one place are one change. -/
theorem modifyAt_modifyAt
    {root node : Node}
    {path : List Nat}
    (hAt : root.at? path = some node)
    (f g : Node → Node) :
    (root.modifyAt f path).modifyAt g path =
      root.modifyAt (fun n => g (f n)) path := by
  induction path generalizing root with
  | nil => rfl
  | cons index path ih =>
      rcases exists_child_of_at? hAt with
        ⟨opening, left, child, right, after, location,
          before, rfl, rfl, hChild⟩
      rw [modifyAt_child, modifyAt_child, modifyAt_child,
        ih hChild]

end Node

end LosslessCss

------------------------------------------------------------
-- The Text around a Position
------------------------------------------------------------

namespace LosslessCss

namespace Node

/-
  What a tree writes in front of a position of the block that
  a path leads to.  The position after the last child is in
  front of the formatting that closes the block.
-/
def writtenBefore
    (index : Nat) : List Nat → Node → String
| [], .block opening children _ _ before =>
    before ++ opening.render ++
      renderAll (children.take index)
| step :: path, .block opening children _ _ before =>
    before ++ opening.render ++
      renderAll (children.take step) ++
      (children[step]?.map (writtenBefore index path)).getD ""
| _, .leaf _ _ _ => ""

/- What a tree writes from such a position on. -/
def writtenAfter
    (index : Nat) : List Nat → Node → String
| [], .block opening children after _ _ =>
    renderAll (children.drop index) ++ after ++
      opening.close
| step :: path, .block opening children after _ _ =>
    (children[step]?.map (writtenAfter index path)).getD "" ++
      renderAll (children.drop (step + 1)) ++ after ++
      opening.close
| _, .leaf _ _ _ => ""

section Child

variable
  {opening : Opening}
  {left right : List Node}
  {child : Node}
  {after before : String}
  {location : Location}

theorem writtenBefore_child
    (index : Nat)
    (path : List Nat) :
    (block opening (left ++ child :: right) after location
        before).writtenBefore index (left.length :: path) =
      before ++ opening.render ++ renderAll left ++
        child.writtenBefore index path := by
  simp [writtenBefore]

theorem writtenAfter_child
    (index : Nat)
    (path : List Nat) :
    (block opening (left ++ child :: right) after location
        before).writtenAfter index (left.length :: path) =
      child.writtenAfter index path ++ renderAll right ++
        after ++ opening.close := by
  have hLeft : left.drop (left.length + 1) = [] :=
    List.drop_of_length_le (by omega)
  simp [writtenAfter, List.drop_append, hLeft]

end Child

/-
  Replaced children are written in the place of the old ones.
  All else is written as before.
-/
theorem render_splice
    {root node : Node}
    {path : List Nat}
    {block : Block}
    (hAt : root.at? path = some node)
    (hBlock : node.block? = some block)
    {f : Block → Block}
    {first last : Nat}
    {nodes : List Node}
    (hSplice : f block = block.splice first last nodes) :
    (root.modifyAt (mapBlock f) path).render =
      root.writtenBefore first path ++ renderAll nodes ++
        root.writtenAfter last path := by
  induction path generalizing root with
  | nil =>
      cases hAt
      cases node with
      | leaf _ _ _ => cases hBlock
      | block opening children after location before =>
          cases hBlock
          simp [modifyAt, mapBlock, hSplice, Block.splice,
            writtenBefore, writtenAfter, Block.render,
            String.append_assoc]
  | cons index path ih =>
      rcases exists_child_of_at? hAt with
        ⟨opening, left, child, right, after, location,
          before, rfl, rfl, hChild⟩
      rw [modifyAt_child, writtenBefore_child,
        writtenAfter_child, render, renderAll_append,
        renderAll, ih hChild]
      simp only [String.append_assoc]

/- At every position the text is cut in two. -/
theorem writtenBefore_append_writtenAfter
    {root node : Node}
    {path : List Nat}
    {block : Block}
    (hAt : root.at? path = some node)
    (hBlock : node.block? = some block)
    (index : Nat) :
    root.writtenBefore index path ++
        root.writtenAfter index path =
      root.render := by
  have hSame : block = block.splice index index [] := by
    simp [Block.splice]
  have hRender :=
    render_splice hAt hBlock (f := id) hSame
  rw [modifyAt_eq_self hAt (by cases node <;> rfl)] at hRender
  simpa [renderAll] using hRender.symm

/- The next position is behind the text of one more child. -/
theorem writtenAfter_of_getElem?
    {root node : Node}
    {path : List Nat}
    {block : Block}
    (hAt : root.at? path = some node)
    (hBlock : node.block? = some block)
    {index : Nat}
    {child : Node}
    (hChild : block.children[index]? = some child) :
    root.writtenAfter index path =
      child.render ++ root.writtenAfter (index + 1) path := by
  induction path generalizing root with
  | nil =>
      cases hAt
      cases node with
      | leaf _ _ _ => cases hBlock
      | block opening children after location before =>
          cases hBlock
          obtain ⟨hIndex, rfl⟩ :=
            List.getElem?_eq_some_iff.mp hChild
          rw [writtenAfter, writtenAfter,
            List.drop_eq_getElem_cons hIndex, renderAll]
          simp only [String.append_assoc]
  | cons step path ih =>
      rcases exists_child_of_at? hAt with
        ⟨opening, left, inner, right, after, location,
          before, rfl, rfl, hInner⟩
      rw [writtenAfter_child, writtenAfter_child, ih hInner]
      simp only [String.append_assoc]

end Node

end LosslessCss

------------------------------------------------------------
-- Edits of Blocks
------------------------------------------------------------

namespace LosslessCss

namespace Node

/-
  Every edit of a block, wherever it is in the tree, changes
  the text at the edited position only.  Positions past the
  last child stand for the end of the block, also after the
  largest index, and taking a node out undoes its insertion.
  A block that is indexed by words has no more children than
  words can count.
-/
theorem block_edits_local
    {root node : Node}
    {path : List Nat}
    {block : Block}
    (hAt : root.at? path = some node)
    (hBlock : node.block? = some block) :
    (∀ f,
      ((root.modifyAt (mapBlock f) path).at? path).bind
          block? =
        some (f block)) ∧
    (∀ index ≤ block.size,
      root.render =
        root.writtenBefore index path ++
          root.writtenAfter index path) ∧
    (∀ (index : UInt64) nodes,
      (root.modifyAt
          (mapBlock fun b => b.insertBefore index nodes)
          path).render =
        root.writtenBefore (min index.toNat block.size)
            path ++
          renderAll nodes ++
          root.writtenAfter (min index.toNat block.size)
            path) ∧
    (block.size ≤ Word.last.toNat →
      (∀ (index : UInt64) nodes,
        (root.modifyAt
            (mapBlock fun b => b.insertAfter index nodes)
            path).render =
          root.writtenBefore
              (min (index.toNat + 1) block.size) path ++
            renderAll nodes ++
            root.writtenAfter
              (min (index.toNat + 1) block.size) path) ∧
      ∀ added,
        block.push added =
          block.insertBefore (UInt64.ofNat block.size)
            [added]) ∧
    (∀ index : UInt64,
      index.toNat < block.size →
      ∃ child,
        block.children[index.toNat]? = some child ∧
        (block.remove index).1 = some child ∧
        root.render =
          root.writtenBefore index.toNat path ++
            child.render ++
            root.writtenAfter (index.toNat + 1) path ∧
        (root.modifyAt
            (mapBlock fun b => (b.remove index).2)
            path).render =
          root.writtenBefore index.toNat path ++
            root.writtenAfter (index.toNat + 1) path) ∧
    (∀ index : UInt64,
      block.size ≤ index.toNat →
      (block.remove index).1 = none ∧
        root.modifyAt (mapBlock fun b => (b.remove index).2)
            path =
          root) ∧
    (∀ index : UInt64,
      index.toNat ≤ block.size →
      ∀ added,
        ((block.insertBefore index [added]).remove index).1 =
            some added ∧
          (root.modifyAt
                (mapBlock fun b =>
                  b.insertBefore index [added])
                path).modifyAt
              (mapBlock fun b => (b.remove index).2)
              path =
            root) := by
  have hCut :=
    writtenBefore_append_writtenAfter hAt hBlock
  refine ⟨?_, ?_, ?_, ?_, ?_, ?_, ?_⟩
  · intro f
    rw [at?_modifyAt hAt, Option.bind_some,
      block?_mapBlock, hBlock, Option.map_some]
  · intro index _
    exact (hCut index).symm
  · intro index nodes
    exact
      render_splice hAt hBlock
        (block.insertBefore_eq_splice index nodes)
  · intro hSize
    refine ⟨?_, block.push_eq_insertBefore hSize⟩
    intro index nodes
    exact
      render_splice hAt hBlock
        (block.insertAfter_eq_splice hSize index nodes)
  · intro index hIndex
    have hChild : block.children[index.toNat]? = some _ :=
      List.getElem?_eq_getElem hIndex
    have hRemove := block.remove_of_getElem? hChild
    refine ⟨_, hChild, by rw [hRemove], ?_, ?_⟩
    · rw [← hCut index.toNat,
        writtenAfter_of_getElem? hAt hBlock hChild,
        String.append_assoc]
    · have hRender :=
        render_splice hAt hBlock
          (f := fun b => (b.remove index).2)
          (congrArg Prod.snd hRemove)
      rw [hRender, renderAll, String.append_empty]
  · intro index hIndex
    have hRemove := block.remove_of_size_le hIndex
    refine ⟨by rw [hRemove], ?_⟩
    exact
      modifyAt_eq_self hAt
        (mapBlock_eq_self hBlock (congrArg Prod.snd hRemove))
  · intro index hIndex added
    have hRemove := block.remove_insertBefore hIndex added
    refine ⟨by rw [hRemove], ?_⟩
    rw [modifyAt_modifyAt hAt]
    apply modifyAt_eq_self hAt
    rw [mapBlock_mapBlock]
    exact mapBlock_eq_self hBlock (congrArg Prod.snd hRemove)

/-
  Two nodes are put after a declaration in a nested block, at
  the last index that a machine word can hold, and the
  declaration is taken out.
-/
theorem block_edits_local_nested :
    ∃ (root node : Node) (block : Block),
      root.at? [0, 0] = some node ∧
      node.block? = some block ∧
      block.size ≤ Word.last.toNat ∧
      root.render = "@page\x7bp\x7br:s;\x7d\x7d" ∧
      (root.modifyAt
          (mapBlock fun b =>
            b.insertAfter Word.last
              [ofComment "c", ofDeclaration "q" "u" true])
          [0, 0]).render =
        "@page\x7bp\x7br:s;/*c*/q:u!important\x7d\x7d" ∧
      (root.modifyAt (mapBlock fun b => (b.remove 0).2)
          [0, 0]).render =
        "@page\x7bp\x7b\x7d\x7d" := by
  let declaration : Node :=
    .leaf
      (.declaration "r" "" [.value "s", .filler ";"] false)
      ⟨1, 9, 8⟩ ""
  let rule : Node :=
    .block (.rule [.filler "", .value "p", .filler ""])
      [declaration] "" ⟨1, 7, 6⟩ ""
  let page : Node :=
    .block (.atRule .page []) [rule] "" ⟨1, 1, 0⟩ ""
  let root : Node :=
    .block .styleSheet [page] "" ⟨1, 1, 0⟩ ""
  have hSize :
      (Block.mk [declaration] "").size ≤ Word.last.toNat := by
    decide
  rcases
      @block_edits_local root rule [0, 0] ⟨[declaration], ""⟩
        rfl rfl with
    ⟨-, -, -, hCounted, hRemove, -, -⟩
  have hInsert := (hCounted hSize).1
  rcases hRemove 0 (by decide) with ⟨child, -, -, -, hOut⟩
  refine
    ⟨root, rule, ⟨[declaration], ""⟩, rfl, rfl, hSize,
      by decide, ?_, ?_⟩
  · rw [hInsert]
    decide
  · rw [hOut]
    decide

end Node

end LosslessCss
