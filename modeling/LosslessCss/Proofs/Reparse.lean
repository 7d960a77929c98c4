import LosslessCss.Proofs.Placement
import LosslessCss.Proofs.SealedRuns

/-
  Every node can be parsed alone.

  The tokens of a node are a run of the tokens of the text,
  and this run is sealed.  So the text of the node has the
  same tokens, and as a style sheet it has that node as its
  only child, with the same descendants and locations.

  Key theorems include:
    * `Form.Items.exists_child_of_append`
    * `Form.Items.exists_descendant`
    * `Parse.reparse_node`
-/

------------------------------------------------------------
-- The Tokens of a Descendant
------------------------------------------------------------

namespace LosslessCss

open Grammar

namespace Form

/- Each child has its own run of the tokens of its list. -/
theorem Items.exists_child_of_append
    {ts rest : List Token}
    {left right : List Node}
    {node : Node}
    {after : String}
    (hForm :
      Items "" ts rest ⟨left ++ node :: right, after⟩)
    (hSpelled : ∀ t ∈ ts, t.Spelled) :
    ∃ us first ws,
      ts = us ++ (first ++ ws) ∧
        Token.rawText us = Node.renderAll left ∧
        Child "" first (ws ++ rest) node := by
  induction left generalizing ts with
  | nil =>
      rcases hForm.exists_child rfl with
        ⟨first, tail, hParts, hChild, -⟩
      exact ⟨[], first, tail, hParts, rfl, hChild⟩
  | cons other left ih =>
      rcases hForm.exists_child rfl with
        ⟨before, tail, rfl, hOther, hTail⟩
      have hText :=
        hOther.render_eq fun t hMem =>
          hSpelled t (by simp [hMem])
      rcases ih hTail fun t hMem =>
          hSpelled t (by simp [hMem]) with
        ⟨us, first, ws, rfl, hLeft, hChild⟩
      refine
        ⟨before ++ us, first, ws, by simp, ?_, hChild⟩
      rw [Token.rawText_append, hLeft, Node.renderAll, hText,
        String.empty_append]

/-
  Each descendant has its own run of tokens, and the tokens
  in front of it are the text that is written in front of it.
-/
theorem Items.exists_descendant
    {root node : Node}
    {text : String}
    (hWrites : root.WritesBefore text node)
    {opening : Opening}
    {children : List Node}
    {after before : String}
    {location : Location}
    {ts rest : List Token}
    (hRoot :
      root = .block opening children after location before)
    (hForm : Items "" ts rest ⟨children, after⟩)
    (hSpelled : ∀ t ∈ ts, t.Spelled) :
    ∃ us first ws,
      ts = us ++ (first ++ ws) ∧
        text =
          before ++ opening.render ++ Token.rawText us ++
            node.before ∧
        Child "" first (ws ++ rest) node := by
  induction hWrites generalizing
      opening children after before location ts rest with
  | child =>
      cases hRoot
      rcases hForm.exists_child_of_append hSpelled with
        ⟨us, first, ws, hParts, hLeft, hChild⟩
      exact ⟨us, first, ws, hParts, by rw [hLeft], hChild⟩
  | @deeper _ left right child node _ _ text _ hChild ih =>
      cases hRoot
      rcases hForm.exists_child_of_append hSpelled with
        ⟨us, first, ws, rfl, hLeft, hFirst⟩
      cases child with
      | leaf _ _ _ => cases hChild
      | block inside others filler place bare =>
          rcases hFirst.exists_body with
            ⟨front, head, body, close, rfl, hBare, hHead,
              hBody, -⟩
          rcases ih rfl hBody fun t hMem =>
              hSpelled t (by simp [hMem]) with
            ⟨vs, inner, xs, rfl, hText, hInner⟩
          have hOpening :=
            hHead.render_eq fun t hMem =>
              hSpelled t (by simp [hMem])
          refine
            ⟨us ++ (front ++ (head ++ vs)), inner,
              xs ++ close :: ws, by simp, ?_, ?_⟩
          · rw [hText, hBare, hOpening, ← hLeft]
            simp [String.append_assoc]
          · simpa using hInner

end Form

end LosslessCss

------------------------------------------------------------
-- Parsing a Descendant
------------------------------------------------------------

namespace LosslessCss

open TokenSource (upcoming)

namespace Parse

/-
  Each node of a tree is written somewhere in the text.  What
  is written for it, parsed from that place on, is a style
  sheet with this node and nothing else.
-/
theorem reparse_node
    {css before : String}
    {here : Location}
    {source other : Option String}
    {root node : Node}
    (hParse :
      text css ⟨.styleSheet, here, source⟩ = .ok root)
    (hNode : root.WritesBefore before node) :
    ∃ p tail,
      before = p ++ node.before ∧
        root.render = p ++ node.render ++ tail ∧
        text node.render
            ⟨.styleSheet, here.advanceBy p, other⟩ =
          .ok
            (.block .styleSheet [node] "" (here.advanceBy p)
              "") := by
  rcases text_styleSheet_iff.mp hParse with
    ⟨⟨children, after⟩, hForm, hRoot⟩
  have hSpelled :=
    PulledText.spelled_of_mem_upcoming css here
  rcases Form.Items.exists_descendant hNode hRoot hForm
      hSpelled with
    ⟨us, first, ws, hTokens, hText, hChild⟩
  have hBefore : before = Token.rawText us ++ node.before := by
    simpa [Opening.render] using hText
  rcases hNode.render_eq with ⟨tail, hParts⟩
  refine ⟨Token.rawText us, tail, hBefore, ?_, ?_⟩
  · rw [hParts, hBefore, ← node.before_append_render]
    simp only [String.append_assoc]
  -- The text of the node has the tokens of the node.
  have hRender : node.render = Token.rawText first := by
    have hEq :=
      hChild.render_eq fun t hMem =>
        hSpelled t (by simp [hTokens, hMem])
    rwa [String.empty_append] at hEq
  have hAlone :
      upcoming
          (PulledText.ofText node.render
            (here.advanceBy (Token.rawText us))) =
        first := by
    rw [hRender]
    apply PulledText.upcoming_of_sealed
      (PulledText.upcoming_of_append hTokens)
    simpa using hChild.sealed
  have hSheet :
      Form.Items "" (first ++ []) [] ⟨[node], ""⟩ :=
    (hChild.congr_rest Token.startsLike_nil).items_cons .done
  refine text_styleSheet_iff.mpr ⟨⟨[node], ""⟩, ?_, rfl⟩
  rwa [hAlone, ← List.append_nil first]

/-
  A quotation that is cut off by its line and an escaped
  semicolon, in a declaration that ends with a brace.
-/
theorem reparse_node_nested :
    ∃ root node,
      text "m\x7b/*k*/ p:'q\n\\;\x7dz:1"
          ⟨.styleSheet, ⟨3, 7, 40⟩, none⟩ =
        .ok root ∧
      root.WritesBefore "m\x7b/*k*/ " node ∧
      node.render = " p:'q\n\\;" ∧
      text node.render
          ⟨.styleSheet,
            (⟨3, 7, 40⟩ : Location).advanceBy "m\x7b/*k*/",
            none⟩ =
        .ok
          (.block .styleSheet [node] ""
            ((⟨3, 7, 40⟩ : Location).advanceBy "m\x7b/*k*/")
            "") := by
  let comment : Node :=
    .leaf (.comment "/*k*/") ⟨3, 9, 42⟩ ""
  let node : Node :=
    .leaf
      (.declaration "p" ""
        [.value "'q", .filler "\n", .value "\\;"] false)
      ⟨3, 15, 48⟩ " "
  let rule : Node :=
    .block (.rule [.filler "", .value "m", .filler ""])
      [comment, node] "" ⟨3, 7, 40⟩ ""
  let last : Node :=
    .leaf (.declaration "z" "" [.value "1"] false)
      ⟨4, 4, 56⟩ ""
  let root : Node :=
    .block .styleSheet [rule, last] "" ⟨3, 7, 40⟩ ""
  have hParse :
      text "m\x7b/*k*/ p:'q\n\\;\x7dz:1"
          ⟨.styleSheet, ⟨3, 7, 40⟩, none⟩ =
        .ok root :=
    eq_ok_of_toOption (by decide +kernel)
  have hRule : rule.WritesBefore "m\x7b/*k*/ " node :=
    @Node.WritesBefore.child _ [comment] [] node _ _ _
  have hWrites : root.WritesBefore "m\x7b/*k*/ " node :=
    @Node.WritesBefore.deeper _ [] [last] rule _ _ _ _ _ hRule
  rcases @reparse_node _ _ _ _ none _ _ hParse hWrites with
    ⟨p, tail, hBefore, -, hAgain⟩
  have hChars :
      "m\x7b/*k*/".toList ++ [' '] = p.toList ++ [' '] := by
    simpa [node, Node.before] using
      congrArg String.toList hBefore
  have hFront : "m\x7b/*k*/" = p :=
    String.toList_injective (List.append_cancel_right hChars)
  subst hFront
  exact ⟨root, node, hParse, hWrites, by decide, hAgain⟩

end Parse

end LosslessCss
