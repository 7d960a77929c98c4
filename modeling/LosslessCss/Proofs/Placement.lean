import LosslessCss.Proofs.RoundTrip

/-
  The locations of the nodes of a parsed text.

  A node is located where its own text starts when the tree
  is written from the start location on.  Formatting goes to
  many places of a tree, and it counts in each of them.

  Key definitions include:
    * `Node.WritesBefore`
    * `Node.Placed`

  Key theorems include:
    * `Node.WritesBefore.location_eq`
    * `Form.Items.placed`
    * `Form.Whole.placed`
    * `Parse.location_text`
-/

------------------------------------------------------------
-- Positions in a Tree
------------------------------------------------------------

namespace LosslessCss

namespace Node

/-
  The text that a tree writes in front of the own text of one
  of its descendants, with the formatting in front of that.
-/
inductive WritesBefore : Node → String → Node → Prop where
  | child
      {opening : Opening}
      {left right : List Node}
      {node : Node}
      {after before : String}
      {location : Location} :
      WritesBefore
        (.block opening (left ++ node :: right) after
          location before)
        (before ++ opening.render ++ renderAll left ++
          node.before)
        node
  | deeper
      {opening : Opening}
      {left right : List Node}
      {child node : Node}
      {after before text : String}
      {location : Location}
      (hChild : WritesBefore child text node) :
      WritesBefore
        (.block opening (left ++ child :: right) after
          location before)
        (before ++ opening.render ++ renderAll left ++ text)
        node

@[simp] theorem renderAll_append
    (left right : List Node) :
    renderAll (left ++ right) =
      renderAll left ++ renderAll right := by
  induction left with
  | nil => simp [renderAll]
  | cons node left ih =>
      simp [renderAll, ih, String.append_assoc]

/- A node is written as its formatting and its own text. -/
theorem before_append_render
    (node : Node) :
    node.before ++ (node.withBefore "").render =
      node.render := by
  cases node with
  | leaf _ _ _ => simp [Node.before, withBefore, render]
  | block _ _ _ _ _ =>
      simp [Node.before, withBefore, render,
        String.append_assoc]

/- The own text of a descendant is a part of the text. -/
theorem WritesBefore.render_eq
    {root node : Node}
    {text : String}
    (hWrites : root.WritesBefore text node) :
    ∃ tail,
      root.render =
        text ++ (node.withBefore "").render ++ tail := by
  induction hWrites with
  | @child opening left right node after before location =>
      refine ⟨renderAll right ++ after ++ opening.close, ?_⟩
      simp only [render, renderAll_append, renderAll,
        ← before_append_render node, String.append_assoc]
  | @deeper opening left right child node after before text
      location _ ih =>
      rcases ih with ⟨tail, hChild⟩
      refine
        ⟨tail ++ renderAll right ++ after ++ opening.close,
          ?_⟩
      simp only [render, renderAll_append, renderAll, hChild,
        String.append_assoc]

end Node

end LosslessCss

------------------------------------------------------------
-- Placed Trees
------------------------------------------------------------

namespace LosslessCss

@[simp] theorem Location.advanceBy_empty
    (here : Location) :
    here.advanceBy "" = here :=
  rfl

namespace Node

mutual

/-
  The node and its descendants have the locations that they
  get when the node is written from the given place on.
-/
def Placed (here : Location) : Node → Prop
| .leaf _ location before =>
    location = here.advanceBy before
| .block opening children _ location before =>
    location = here.advanceBy before ∧
      PlacedAll (location.advanceBy opening.render) children

/- The same for nodes that are written in a row. -/
def PlacedAll (here : Location) : List Node → Prop
| [] => True
| node :: nodes =>
    Placed here node ∧
      PlacedAll (here.advanceBy node.render) nodes

end

theorem Placed.location_eq
    {here : Location}
    {node : Node}
    (hPlaced : node.Placed here) :
    node.location = here.advanceBy node.before := by
  cases node with
  | leaf _ _ _ =>
      simp only [Placed] at hPlaced
      exact hPlaced
  | block _ _ _ _ _ =>
      simp only [Placed] at hPlaced
      exact hPlaced.1

/- A node in a row is placed after those in front of it. -/
theorem PlacedAll.placed_of_append
    {here : Location}
    {left right : List Node}
    {node : Node}
    (hPlaced : PlacedAll here (left ++ node :: right)) :
    node.Placed (here.advanceBy (renderAll left)) := by
  induction left generalizing here with
  | nil =>
      simp only [List.nil_append, PlacedAll] at hPlaced
      simpa [renderAll] using hPlaced.1
  | cons first left ih =>
      simp only [List.cons_append, PlacedAll] at hPlaced
      have hNode := ih hPlaced.2
      rwa [renderAll, Location.advanceBy_append]

/- In a placed tree every descendant has its location. -/
theorem WritesBefore.location_eq
    {here : Location}
    {root node : Node}
    {text : String}
    (hWrites : root.WritesBefore text node)
    (hPlaced : root.Placed here) :
    node.location = here.advanceBy text := by
  induction hWrites generalizing here with
  | child =>
      simp only [Placed] at hPlaced
      rcases hPlaced with ⟨rfl, hChildren⟩
      have hNode := hChildren.placed_of_append.location_eq
      simpa only [Location.advanceBy_append] using hNode
  | deeper _ ih =>
      simp only [Placed] at hPlaced
      rcases hPlaced with ⟨rfl, hChildren⟩
      have hNode := ih hChildren.placed_of_append
      simpa only [Location.advanceBy_append] using hNode

theorem Placed.withBefore
    {here : Location}
    {node : Node}
    {before : String}
    (hPlaced : node.Placed (here.advanceBy before))
    (hBare : node.before = "") :
    (node.withBefore before).Placed here := by
  cases node with
  | leaf _ _ _ =>
      simp only [Node.before] at hBare
      simpa [Node.withBefore, Placed, hBare]
        using hPlaced
  | block _ _ _ _ _ =>
      simp only [Node.before] at hBare
      simpa [Node.withBefore, Placed, hBare]
        using hPlaced

end Node

end LosslessCss

------------------------------------------------------------
-- Placed Forms
------------------------------------------------------------

namespace LosslessCss

namespace Form

theorem startOf_of_located
    {here : Location}
    {t : Token}
    {ts : List Token}
    (hLocated : Token.Located here ts)
    (hHead : ts.head? = some t) :
    startOf ts = here := by
  cases ts with
  | nil => cases hHead
  | cons u ts => exact hLocated.1

/- An item without children is placed in front of its text. -/
theorem Flat.placed
    {here : Location}
    {ts rest : List Token}
    {leaf : Leaf}
    {before : String}
    (hForm : Flat ts rest leaf)
    (hLocated : Token.Located (here.advanceBy before) ts) :
    (Node.leaf leaf (startOf ts) before).Placed here := by
  rcases hForm.exists_head with ⟨t, hHead, _⟩
  simp only [Node.Placed]
  exact startOf_of_located hLocated hHead

/- A block is placed when the items in it are. -/
theorem Opens.placed
    {here : Location}
    {ts : List Token}
    {opening : Opening}
    {inner : Block}
    {before : String}
    (hForm : Opens ts opening)
    (hLocated : Token.Located (here.advanceBy before) ts)
    (hSpelled : ∀ t ∈ ts, t.Spelled)
    (hInner :
      Node.PlacedAll
        ((here.advanceBy before).advanceBy
          (Token.rawText ts))
        inner.children) :
    (inner.toNode opening (startOf ts) before).Placed
      here := by
  rcases hForm.exists_head with ⟨t, hHead, _⟩
  simp only [Block.toNode, Node.Placed,
    startOf_of_located hLocated hHead,
    hForm.render_eq hSpelled, true_and]
  exact hInner

/-
  The formatting in front of the first item starts at the
  given place, and the tokens follow after it.
-/
theorem Items.placed
    {here : Location}
    {before : String}
    {ts rest : List Token}
    {block : Block}
    (hForm : Items before ts rest block)
    (hLocated : Token.Located (here.advanceBy before) ts)
    (hSpelled : ∀ t ∈ ts, t.Spelled) :
    Node.PlacedAll here block.children := by
  induction hForm generalizing here with
  | done => simp only [Node.PlacedAll]
  | separator _ _ ih =>
      rcases hLocated with ⟨hHead, hTail⟩
      apply ih
      · rw [Location.advanceBy_append, ← hHead]
        exact hTail
      · exact fun t hMem => hSpelled t (by simp [hMem])
  | @flat before item ts rest leaf block hItem _ ih =>
      rcases Token.located_append.mp hLocated with
        ⟨hHead, hTail⟩
      have hText :=
        hItem.render_eq fun t hMem =>
          hSpelled t (by simp [hMem])
      have hNext :
          here.advanceBy
              (Node.leaf leaf (startOf item) before).render =
            (here.advanceBy before).advanceBy
              (Token.rawText item) := by
        rw [Node.render, hText, Location.advanceBy_append]
      refine ⟨hItem.placed hHead, ?_⟩
      apply ih
      · rwa [hNext, Location.advanceBy_empty]
      · exact fun t hMem => hSpelled t (by simp [hMem])
  | @block before head body ts rest right opening inner block
      hHead _ hBody hRight _ ihBody ihTail =>
      rcases Token.located_append.mp hLocated with
        ⟨hFront, hAfter⟩
      rcases Token.located_append.mp hAfter with
        ⟨hInside, hPlace, hTail⟩
      have hSpelledHead :
          ∀ t ∈ head, t.Spelled :=
        fun t hMem => hSpelled t (by simp [hMem])
      have hSpelledBody :
          ∀ t ∈ body, t.Spelled :=
        fun t hMem => hSpelled t (by simp [hMem])
      have hInner :=
        ihBody (by rwa [Location.advanceBy_empty])
          hSpelledBody
      have hBrace :=
        (hSpelled right (by simp)).raw_rightCurly hRight
      have hNext :
          here.advanceBy
              (inner.toNode opening (startOf head)
                before).render =
            right.endLocation := by
        rw [Block.render_toNode,
          hHead.render_eq hSpelledHead,
          hBody.render_eq hSpelledBody, hHead.close_eq,
          Token.endLocation, hPlace, hBrace]
        simp only [Location.advanceBy_append,
          Location.advanceBy_empty]
      refine
        ⟨hHead.placed hFront hSpelledHead hInner, ?_⟩
      apply ihTail
      · rwa [hNext, Location.advanceBy_empty]
      · exact fun t hMem => hSpelled t (by simp [hMem])

/- One item is placed in front of its text. -/
theorem Item.placed
    {here : Location}
    {ts rest : List Token}
    {node : Node}
    (hForm : Item ts rest node)
    (hLocated : Token.Located here ts)
    (hSpelled : ∀ t ∈ ts, t.Spelled) :
    node.Placed here := by
  cases hForm with
  | flat hItem => exact hItem.placed hLocated
  | block hHead hBody _ =>
      rcases Token.located_append.mp hLocated with
        ⟨hFront, hAfter⟩
      rcases Token.located_append.mp hAfter with
        ⟨hInside, _⟩
      have hInner :=
        hBody.placed hInside fun t hMem =>
          hSpelled t (by simp [hMem])
      exact
        hHead.placed hFront
          (fun t hMem => hSpelled t (by simp [hMem])) hInner

/- The nodes of a whole input are placed one by one. -/
theorem Whole.placed
    {here : Location}
    {ts : List Token}
    {block : Block}
    (hForm : Whole ts block)
    (hLocated : Token.Located here ts)
    (hSpelled : ∀ t ∈ ts, t.Spelled) :
    Node.PlacedAll here block.children := by
  cases hForm with
  | items hItems => exact hItems.placed hLocated hSpelled
  | single _ hItem _ =>
      rcases Token.located_append.mp hLocated with
        ⟨_, hAfter⟩
      rcases Token.located_append.mp hAfter with
        ⟨hInside, _⟩
      have hNode :=
        hItem.placed hInside fun t hMem =>
          hSpelled t (by simp [hMem])
      simp only [Node.PlacedAll, and_true]
      exact hNode.withBefore hItem.before_eq

end Form

end LosslessCss

------------------------------------------------------------
-- Bytes
------------------------------------------------------------

namespace LosslessCss

/- Offsets count the bytes of what has been passed. -/
theorem Location.offset_advanceOver
    (here : Location)
    (cs : List Char) :
    (here.advanceOver cs).offset =
      here.offset + Text.byteLength cs := by
  induction cs generalizing here with
  | nil => simp [Text.byteLength]
  | cons c cs ih =>
      have hStep :
          (here.advance c).offset =
            here.offset + c.utf8Size := by
        unfold advance
        split
        · rename_i hFeed
          subst hFeed
          rfl
        · rfl
      rw [advanceOver_cons, ih, hStep, Text.byteLength,
        Nat.add_assoc]

/- The bytes of the first part lead to the second one. -/
theorem Text.splitAtByte_append
    (cs ds : List Char) :
    splitAtByte (byteLength cs) (cs ++ ds) =
      some (cs, ds) := by
  induction cs with
  | nil => simp [byteLength, splitAtByte]
  | cons c cs ih =>
      have hPos := Char.utf8Size_pos c
      have hSome : c.utf8Size + byteLength cs ≠ 0 := by
        omega
      rcases Nat.exists_eq_add_one_of_ne_zero hSome with
        ⟨n, hSize⟩
      rw [byteLength, List.cons_append, hSize, splitAtByte,
        if_pos (by omega), ← hSize, Nat.add_sub_cancel_left,
        ih]
      rfl

end LosslessCss

------------------------------------------------------------
-- Located Nodes
------------------------------------------------------------

namespace LosslessCss

namespace Parse

/-
  The tree of a text is located at the start, and every node
  of it is located after what is written in front of it.
  The text of the node is found there by its byte.
-/
theorem location_text
    {css : String}
    {settings : Settings}
    {root : Node}
    (hParse : text css settings = .ok root) :
    root.location = settings.location ∧
      ∀ {before : String} {node : Node},
        root.WritesBefore before node →
          node.location =
              settings.location.advanceBy before ∧
            ∃ tail,
              Text.splitAtByte
                  (node.location.offset -
                    settings.location.offset)
                  css.toList =
                some
                  (before.toList,
                    (node.withBefore "").render.toList ++
                      tail) := by
  rcases form_of_text hParse with ⟨block, hWhole, hRoot⟩
  have hPlaced : root.Placed settings.location := by
    have hChildren :=
      hWhole.placed
        (PulledText.located_upcoming css settings.location)
        (PulledText.spelled_of_mem_upcoming css
          settings.location)
    rw [hRoot]
    exact ⟨rfl, hChildren⟩
  have hText : root.render = css := by
    rw [hRoot, Block.render_toNode, render_eq_of_form hWhole]
    simp [Opening.render, Opening.close]
  refine ⟨by rw [hRoot]; rfl, ?_⟩
  intro before node hWrites
  have hLocation := hWrites.location_eq hPlaced
  refine ⟨hLocation, ?_⟩
  rcases hWrites.render_eq with ⟨tail, hParts⟩
  have hBytes :
      node.location.offset - settings.location.offset =
        Text.byteLength before.toList := by
    rw [hLocation, Location.advanceBy,
      Location.offset_advanceOver, Nat.add_sub_cancel_left]
  refine ⟨tail.toList, ?_⟩
  rw [hBytes, ← hText, hParts, String.append_assoc,
    String.toList_append, Text.splitAtByte_append,
    String.toList_append]

/-
  A character of two bytes stands in front of a declaration
  inside of a block.
-/
theorem location_text_nested :
    ∃ root node,
      text "é\x7br:s\x7d" ⟨.styleSheet, ⟨3, 7, 40⟩, none⟩ =
        .ok root ∧
      root.WritesBefore "é\x7b" node ∧
      node.location =
        (⟨3, 7, 40⟩ : Location).advanceBy "é\x7b" := by
  let node : Node :=
    .leaf (.declaration "r" "" [.value "s"] false)
      ⟨3, 9, 43⟩ ""
  let rule : Node :=
    .block (.rule [.filler "", .value "é", .filler ""])
      [node] "" ⟨3, 7, 40⟩ ""
  let root : Node :=
    .block .styleSheet [rule] "" ⟨3, 7, 40⟩ ""
  have hParse :
      text "é\x7br:s\x7d" ⟨.styleSheet, ⟨3, 7, 40⟩, none⟩ =
        .ok root :=
    eq_ok_of_toOption (by decide +kernel)
  have hRule : rule.WritesBefore "é\x7b" node :=
    @Node.WritesBefore.child _ [] [] node _ _ _
  have hWrites : root.WritesBefore "é\x7b" node :=
    @Node.WritesBefore.deeper _ [] [] rule _ _ _ _ _ hRule
  exact
    ⟨root, node, hParse, hWrites,
      ((location_text hParse).2 hWrites).1⟩

end Parse

end LosslessCss
