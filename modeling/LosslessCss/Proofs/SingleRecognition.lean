import LosslessCss.Proofs.RoundTrip

/-
  Recognizing a single item.

  In each of the contexts of a single item the grammar finds
  the items of one kind, between blanks and comments, and
  nothing else.

  Key definitions include:
    * `Context.fits`
    * `Form.Single`

  Key theorems include:
    * `Grammar.yields_single_iff_form`
    * `Grammar.yields_document_iff_single`
    * `Parse.text_single_iff`
-/

------------------------------------------------------------
-- Contexts of a Single Item
------------------------------------------------------------

namespace LosslessCss

/- Whether the node is an at-rule, with a block or without. -/
def Node.isAtRule : Node → Bool
| .leaf (.statement _ _) _ _ => true
| .block (.atRule _ _) _ _ _ _ => true
| _ => false

namespace Context

/- Whether a node is the kind of item of a context. -/
def fits : Context → Node → Bool
| .styleSheet, _ => false
| .rule, node => node.isRule
| .atRule, node => node.isAtRule
| .declaration, node => node.isDeclaration

theorem ne_styleSheet_of_fits
    {context : Context}
    {node : Node}
    (hFits : context.fits node = true) :
    context ≠ .styleSheet := by
  rintro rfl
  cases hFits

/- A rule fits no other context. -/
theorem eq_rule_of_fits
    {context : Context}
    {node : Node}
    (hFits : context.fits node = true)
    (hRule : node.isRule = true) :
    context = .rule := by
  unfold Node.isRule at hRule
  split at hRule
  · cases context with
    | rule => rfl
    | _ => cases hFits
  · cases hRule

/- A comment fits no context of a single item. -/
theorem isComment_of_fits
    {context : Context}
    {node : Node}
    (hFits : context.fits node = true) :
    node.isComment = false := by
  by_contra hComment
  unfold Node.isComment at hComment
  split at hComment
  · cases context <;> cases hFits
  · exact hComment rfl

/- The formatting in front of a node does not count. -/
@[simp] theorem fits_withBefore
    (context : Context)
    (node : Node)
    (before : String) :
    context.fits (node.withBefore before) =
      context.fits node := by
  cases node with
  | leaf content _ _ =>
      cases context <;> cases content <;> rfl
  | block opening _ _ _ _ =>
      cases context <;> cases opening <;> rfl

end Context

open Grammar

/-
  One item of the kind of a context, with formatting around
  it.  The formatting in front is as long as possible.
-/
inductive Form.Single (context : Context) :
    List Token → Block → Prop where
  | intro
      {before item after : List Token}
      {node : Node}
      (hBefore : Form.Fillers before)
      (hStart :
        Token.Stops Token.isFiller (item ++ after))
      (hItem : Form.Item item after node)
      (hFits : context.fits node = true)
      (hAfter : Form.Fillers after) :
      Form.Single context (before ++ (item ++ after))
        ⟨[node.withBefore (Token.rawText before)],
          Token.rawText after⟩

end LosslessCss

------------------------------------------------------------
-- Items of One Kind
------------------------------------------------------------

namespace LosslessCss

open TokenSource (Passes upcoming)

/- What has the form of a declaration becomes one. -/
theorem Form.Declaration.leaf_eq
    {ts : List Token}
    {leaf : Leaf}
    (hForm : Form.Declaration ts leaf) :
    ∃ property beforeColon value important,
      leaf =
        .declaration property beforeColon value
          important := by
  cases hForm with
  | intro _ _ _ _ => exact ⟨_, _, _, _, rfl⟩

namespace Grammar

variable {σ : Type} [TokenSource σ]

/- A block is read where its items and its brace stand. -/
theorem yields_blockNode_of_form
    {s s' : σ}
    {body : List Token}
    {right : Token}
    {opening : Opening}
    {start : Location}
    {inner : Block}
    (hPasses : Passes s (body ++ [right]) s')
    (hBody :
      Form.Items "" body (right :: upcoming s') inner)
    (hRight : isRightCurly right = true) :
    (blockNode .full opening start).Yields s
      (inner.toNode opening start "") s' := by
  rcases TokenSource.passes_append.mp hPasses with
    ⟨m, hInside, hLast⟩
  have hUpcoming := hLast.upcoming_eq
  rcases hLast with ⟨rfl, _, rfl⟩
  have hItems : (items true "").Yields s inner m :=
    yields_items_of_form hBody hInside hUpcoming.symm
      (by simp [endsItems, hRight])
  exact
    yields_blockNode.mpr ⟨inner, m, hItems, hRight, rfl, rfl⟩

/- Reading a single rule is recognizing its form. -/
theorem yields_singleRule
    {s s' : σ}
    {node : Node}
    (hFiller : Token.Stops Token.isFiller (upcoming s)) :
    (singleRule .full : Parser σ Node).Yields s node s' ↔
      ∃ ts, Passes s ts s' ∧
        Form.Item ts (upcoming s') node ∧
        node.isRule = true := by
  constructor
  · intro h
    rcases item_of_yields_singleRule hFiller h with
      ⟨ts, hPasses, hItem⟩
    refine ⟨ts, hPasses, hItem, ?_⟩
    unfold singleRule at h
    rw [Parser.yields_bind_enter,
      Parser.yields_bind_current] at h
    split at h
    · exact absurd h Parser.yields_fail
    · rw [Parser.yields_bind_location,
        Parser.yields_bind] at h
      rcases h with ⟨⟨run, ending⟩, m, _, hAfter⟩
      cases ending with
      | declaration => exact absurd hAfter Parser.yields_fail
      | block =>
          rcases Parser.yields_bind.mp hAfter with
            ⟨opening, n, hOpening, hBlock⟩
          unfold ruleOpening at hOpening
          rw [Parser.yields_bind_enter,
            Parser.yields_bind] at hOpening
          rcases hOpening with ⟨selectors, _, _, hPure⟩
          rcases Parser.yields_pure.mp hPure with ⟨rfl, _⟩
          rcases yields_blockNode.mp hBlock with
            ⟨inner, _, _, _, _, rfl⟩
          rfl
  · intro h
    rcases h with ⟨ts, hPasses, hItem, hRule⟩
    cases hItem with
    | flat _ => cases hRule
    | @block head body _ right opening inner
        hHead hBody hRight =>
        rcases hHead.exists_head with ⟨t, hFirst, _⟩
        rcases TokenSource.passes_append.mp hPasses with
          ⟨m, hPassesHead, hPassesBody⟩
        have hBlock :
            (blockNode .full opening
              (TokenSource.location s)).Yields m _ s' :=
          yields_blockNode_of_form hPassesBody hBody hRight
        rw [startOf_of_passes hPassesHead hFirst]
        cases hHead with
        | atRule _ _ _ => cases hRule
        | @rule run left chunks hRun hStart hSelectors
            hLeft =>
            have hOther :=
              startsOther_current_of_rule hPassesHead hStart
                hLeft
            simp only [Form.startsOther,
              Bool.or_eq_false_iff] at hOther
            have hEof : ∀ t ∈ run, t.isEof = false :=
              fun t hMem =>
                hPassesHead.isEof_of_mem
                  (List.mem_append_left _ hMem)
            unfold singleRule
            rw [Parser.yields_bind_enter,
              Parser.yields_bind_current,
              if_neg (by simp [hOther.2]),
              Parser.yields_bind_location,
              Parser.yields_bind]
            refine
              ⟨(run, .block), m,
                yields_ambiguousSpan_block.mpr
                  ⟨left, hPassesHead, hRun, hLeft⟩, ?_⟩
            exact
              Parser.yields_bind.mpr
                ⟨_, m,
                  (yields_ruleOpening hEof).mpr
                    ⟨rfl, chunks, hSelectors, rfl⟩,
                  hBlock⟩

/- Reading a single at-rule is recognizing its form. -/
theorem yields_singleAtRule
    {s s' : σ}
    {node : Node} :
    (singleAtRule .full : Parser σ Node).Yields s node s' ↔
      ∃ ts, Passes s ts s' ∧
        Form.Item ts (upcoming s') node ∧
        node.isAtRule = true := by
  constructor
  · intro h
    rcases item_of_yields_singleAtRule h with
      ⟨ts, hPasses, hItem⟩
    refine ⟨ts, hPasses, hItem, ?_⟩
    unfold singleAtRule at h
    rw [Parser.yields_bind_enter,
      Parser.yields_bind_current] at h
    split at h
    · rcases Parser.yields_bind.mp h with
        ⟨head, m, hHead, hNode⟩
      cases head with
      | leaf leaf =>
          rcases yields_atRule_leaf.mp hHead with
            ⟨name, pieces, _, _, _, _, rfl⟩
          rcases Parser.yields_pure.mp hNode with ⟨rfl, _⟩
          rfl
      | opening opening =>
          rcases yields_atRule_opening.mp hHead with
            ⟨name, pieces, _, _, _, _, _, _, rfl⟩
          rcases yields_blockNode.mp hNode with
            ⟨inner, _, _, _, _, rfl⟩
          rfl
    · exact absurd h Parser.yields_fail
  · intro h
    rcases h with ⟨ts, hPasses, hItem, hAtRule⟩
    -- Both kinds of at-rules start with their keyword.
    have hRead :
        ∀ {head : Head} {m : σ},
          isAtKeyword (TokenSource.current s) = true →
          itemHead.Yields s head m →
          (finishItem .full head
            (TokenSource.current s).location).Yields
              m node s' →
            (singleAtRule .full : Parser σ Node).Yields
              s node s' := by
      intro head m hKeyword hHead hNode
      unfold singleAtRule
      rw [Parser.yields_bind_enter,
        Parser.yields_bind_current, if_pos hKeyword,
        Parser.yields_bind]
      exact
        ⟨head, m,
          (yields_itemHead_of_isAtKeyword hKeyword).mp hHead,
          hNode⟩
    cases hItem with
    | flat hFlat =>
        rcases hFlat.exists_head with ⟨t, hFirst, _⟩
        have hHead :=
          yields_itemHead_leaf.mpr ⟨ts, hPasses, hFlat⟩
        rw [startOf_of_passes hPasses hFirst] at hRead ⊢
        cases hFlat with
        | comment _ => cases hAtRule
        | declaration _ _ hContent =>
            rcases hContent.leaf_eq with ⟨_, _, _, _, rfl⟩
            cases hAtRule
        | statement hKeyword _ =>
            apply hRead _ hHead
            · exact Parser.yields_pure.mpr ⟨rfl, rfl⟩
            · rw [hPasses.1]
              exact hKeyword.1
    | @block head body _ right opening inner
        hHead hBody hRight =>
        rcases hHead.exists_head with ⟨t, hFirst, _⟩
        rcases TokenSource.passes_append.mp hPasses with
          ⟨m, hPassesHead, hPassesBody⟩
        have hOpening :=
          yields_itemHead_opening.mpr
            ⟨head, hPassesHead, hHead⟩
        rw [startOf_of_passes hPassesHead hFirst]
          at hRead ⊢
        cases hHead with
        | rule _ _ _ _ => cases hAtRule
        | atRule hKeyword _ _ =>
            apply hRead _ hOpening
            · exact
                yields_blockNode_of_form hPassesBody hBody
                  hRight
            · rw [hPassesHead.1]
              exact hKeyword.1

/- Reading a single declaration is recognizing its form. -/
theorem yields_singleDeclaration
    {s s' : σ}
    {node : Node} :
    (singleDeclaration : Parser σ Node).Yields s node s' ↔
      ∃ ts, Passes s ts s' ∧
        Form.Item ts (upcoming s') node ∧
        node.isDeclaration = true := by
  constructor
  · intro h
    rcases item_of_yields_singleDeclaration h with
      ⟨ts, hPasses, hItem⟩
    refine ⟨ts, hPasses, hItem, ?_⟩
    unfold singleDeclaration at h
    rw [Parser.yields_bind_enter,
      Parser.yields_bind_location, Parser.yields_bind] at h
    rcases h with ⟨⟨run, ending⟩, m, hSpan, hAfter⟩
    cases ending with
    | block => exact absurd hAfter Parser.yields_fail
    | declaration =>
        rcases form_of_yields_ambiguousSpan hSpan with
          ⟨_, _, _, hRun, _, _⟩
        rcases Parser.yields_bind.mp hAfter with
          ⟨content, n, hContent, hPure⟩
        rw [yields_isolatedDeclaration
          fun t => hRun.isEof_of_mem] at hContent
        rcases Parser.yields_pure.mp hPure with ⟨rfl, _⟩
        rcases hContent.2.leaf_eq with ⟨_, _, _, _, rfl⟩
        rfl
  · intro h
    rcases h with ⟨ts, hPasses, hItem, hDeclaration⟩
    cases hItem with
    | block hHead _ _ => cases hDeclaration
    | flat hFlat =>
        rcases hFlat.exists_head with ⟨t, hFirst, _⟩
        rw [startOf_of_passes hPasses hFirst]
        cases hFlat with
        | comment _ => cases hDeclaration
        | statement _ _ => cases hDeclaration
        | declaration hRun hEnd hContent =>
            have hSome :=
              run_ne_nil_of_declaration hEnd hContent
            unfold singleDeclaration
            rw [Parser.yields_bind_enter,
              Parser.yields_bind_location,
              Parser.yields_bind]
            refine
              ⟨_, s',
                yields_ambiguousSpan_of_form hPasses hRun
                  hEnd hSome, ?_⟩
            exact
              Parser.yields_bind.mpr
                ⟨_, s',
                  (yields_isolatedDeclaration
                    fun t => hPasses.isEof_of_mem).mpr
                    ⟨rfl, hContent⟩,
                  Parser.yields_pure.mpr ⟨rfl, rfl⟩⟩

/- A single item is read where its form stands. -/
theorem yields_single_iff_form
    {context : Context}
    {item : Parser σ Node}
    {kind : ErrorKind}
    (hItem :
      ∀ {s s' node},
        Token.Stops Token.isFiller (upcoming s) →
          (item.Yields s node s' ↔
            ∃ ts, Passes s ts s' ∧
              Form.Item ts (upcoming s') node ∧
              context.fits node = true))
    {s s' : σ}
    {root : Node} :
    (single item kind).Yields s root s' ↔
      ∃ block, Passes s (upcoming s) s' ∧
        Form.Single context (upcoming s) block ∧
        root =
          block.toNode .styleSheet
            (TokenSource.location s) "" := by
  rw [yields_single]
  constructor
  · intro h
    rcases h with
      ⟨before, after, node, m, n, hBefore, hFillers, hStops,
        hNode, hAfter, hAfterFillers, hEnd, hRoot⟩
    rcases (hItem hStops).mp hNode with
      ⟨ts, hPasses, hForm, hFits⟩
    have hAll := hBefore.append (hPasses.append hAfter)
    have hShown := hAll.upcoming_eq
    rw [hEnd, List.append_nil] at hShown
    rw [hAfter.upcoming_eq, hEnd, List.append_nil] at hForm
    rw [(hPasses.append hAfter).upcoming_eq, hEnd,
      List.append_nil] at hStops
    rw [hShown]
    exact
      ⟨_, hAll,
        .intro hFillers hStops hForm hFits hAfterFillers,
        hRoot⟩
  · intro h
    rcases h with ⟨block, hPasses, hForm, hRoot⟩
    have hEnd : upcoming s' = [] := by
      simpa using hPasses.upcoming_eq
    generalize upcoming s = ts at hPasses hForm
    cases hForm with
    | @intro before item after node hBefore hStart hNode
        hFits hAfter =>
        rcases TokenSource.passes_append.mp hPasses with
          ⟨m, hFront, hRest⟩
        rcases TokenSource.passes_append.mp hRest with
          ⟨n, hInside, hBack⟩
        have hStops :
            Token.Stops Token.isFiller (upcoming m) := by
          rw [hRest.upcoming_eq, hEnd, List.append_nil]
          exact hStart
        have hUpcoming : upcoming n = after := by
          rw [hBack.upcoming_eq, hEnd, List.append_nil]
        rw [← hUpcoming] at hNode
        exact
          ⟨before, after, node, m, n, hFront, hBefore,
            hStops,
            (hItem hStops).mpr ⟨item, hInside, hNode, hFits⟩,
            hBack, hAfter, hEnd, hRoot⟩

/-
  What is read in a context of a single item has the form of
  it, and what has the form is read.
-/
theorem yields_document_iff_single
    {context : Context}
    (hContext : context ≠ .styleSheet)
    {s s' : σ}
    {root : Node} :
    (document .full context).Yields s root s' ↔
      ∃ block, Passes s (upcoming s) s' ∧
        Form.Single context (upcoming s) block ∧
        root =
          block.toNode .styleSheet
            (TokenSource.location s) "" := by
  cases context with
  | styleSheet => exact absurd rfl hContext
  | rule => exact yields_single_iff_form yields_singleRule
  | atRule =>
      exact
        yields_single_iff_form fun _ => yields_singleAtRule
  | declaration =>
      exact
        yields_single_iff_form
          fun _ => yields_singleDeclaration

end Grammar

namespace Parse

/- The tree of a single item is a form of all tokens. -/
theorem text_single_iff
    {context : Context}
    (hContext : context ≠ .styleSheet)
    {css : String}
    {here : Location}
    {source : Option String}
    {root : Node} :
    text css ⟨context, here, source⟩ = .ok root ↔
      ∃ block,
        Form.Single context
          (upcoming (PulledText.ofText css here)) block ∧
        root = block.toNode .styleSheet here "" := by
  rw [text_eq_ok_iff]
  constructor
  · rintro ⟨s', hYields⟩
    rcases
        (Grammar.yields_document_iff_single hContext).mp
          hYields with
      ⟨block, _, hForm, hRoot⟩
    exact ⟨block, hForm, hRoot⟩
  · rintro ⟨block, hForm, hRoot⟩
    rcases TokenSource.exists_passes_upcoming
        (PulledText.ofText css here) with
      ⟨s', hPasses, _⟩
    exact
      ⟨s', (Grammar.yields_document_iff_single hContext).mpr
        ⟨block, hPasses, hForm, hRoot⟩⟩

end Parse

end LosslessCss
