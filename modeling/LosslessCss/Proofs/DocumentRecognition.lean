import LosslessCss.Proofs.ItemRecognition

/-
  The grammar recognizes whole inputs.

  A successful parse of a style sheet is the same as a form
  of all its tokens.  A single item is the only child of its
  style sheet, with formatting around it.

  Key theorems include:
    * `Grammar.yields_styleSheet`
    * `Grammar.yields_single`
    * `Grammar.form_of_yields_single`
    * `Grammar.form_of_yields_document`
-/

------------------------------------------------------------
-- Style Sheets
------------------------------------------------------------

namespace LosslessCss

open TokenSource (Passes upcoming)

namespace Grammar

variable {σ : Type} [TokenSource σ]

/- Reading a style sheet is recognizing all items. -/
theorem yields_styleSheet
    {s s' : σ}
    {node : Node} :
    (styleSheet .full : Parser σ Node).Yields s node s' ↔
      ∃ block, Passes s (upcoming s) s' ∧
        Form.Items "" (upcoming s) [] block ∧
        node =
          block.toNode .styleSheet
            (TokenSource.location s) "" := by
  unfold styleSheet
  rw [Parser.yields_bind_enter, Parser.yields_bind_location,
    ruleList_eq, Parser.yields_bind]
  simp only [Parser.yields_bind_enter, yields_items,
    Parser.yields_pure]
  constructor
  · intro h
    rcases h with
      ⟨block, m, ⟨ts, hPasses, hForm, hEnds⟩, rfl, rfl⟩
    have hEnd : upcoming s' = [] := by
      rw [TokenSource.upcoming_eq_nil_iff]
      simpa [endsItems] using hEnds
    have hAll := hPasses.upcoming_eq
    rw [hEnd] at hForm hAll
    rw [List.append_nil] at hAll
    rw [hAll]
    exact ⟨block, hPasses, hForm, rfl⟩
  · intro h
    rcases h with ⟨block, hPasses, hForm, rfl⟩
    have hEnd : upcoming s' = [] := by
      simpa using hPasses.upcoming_eq
    refine ⟨block, s', ⟨_, hPasses, ?_, ?_⟩, rfl, rfl⟩
    · rw [hEnd]
      exact hForm
    · rw [TokenSource.upcoming_eq_nil_iff] at hEnd
      simp [endsItems, hEnd]

end Grammar

end LosslessCss

------------------------------------------------------------
-- Single Items
------------------------------------------------------------

namespace LosslessCss

open TokenSource (Passes upcoming)

namespace Grammar

variable {σ : Type} [TokenSource σ]

/- A block that is read after its opening is an item. -/
theorem item_of_yields_blockNode
    {s m s' : σ}
    {head : List Token}
    {opening : Opening}
    {node : Node}
    (hPasses : Passes s head m)
    (hHead : Form.Opens head opening)
    (hBlock :
      (blockNode .full opening (TokenSource.location s)).Yields
        m node s') :
    ∃ ts, Passes s ts s' ∧
      Form.Item ts (upcoming s') node := by
  rcases yields_blockNode.mp hBlock with
    ⟨inner, k, hInner, hRight, rfl, rfl⟩
  rcases form_of_yields_items hInner with
    ⟨body, hBody, hItems, _⟩
  have hEof := isEof_of_test hRight fun _ _ => rfl
  have hLast := Passes.single hEof
  rcases hHead.exists_head with ⟨t, hFirst, _⟩
  have hStart :
      Form.startOf head = TokenSource.location s :=
    startOf_of_passes hPasses hFirst
  rw [hLast.upcoming_eq] at hItems
  rw [← hStart]
  exact
    ⟨_, hPasses.append (hBody.append hLast),
      .block hHead hItems hRight⟩

/- A leaf that is read is an item. -/
theorem item_of_flat
    {s s' : σ}
    {ts : List Token}
    {leaf : Leaf}
    (hPasses : Passes s ts s')
    (hFlat : Form.Flat ts (upcoming s') leaf) :
    Form.Item ts (upcoming s')
      (.leaf leaf (TokenSource.location s) "") := by
  rcases hFlat.exists_head with ⟨t, hFirst, _⟩
  have hStart :
      Form.startOf ts = TokenSource.location s :=
    startOf_of_passes hPasses hFirst
  rw [← hStart]
  exact .flat hFlat

/- No comment stands where no formatting does. -/
theorem isComment_current_of_stops
    {s : σ}
    (hStops : Token.Stops Token.isFiller (upcoming s)) :
    (TokenSource.current s).isComment = false := by
  rw [stops_upcoming_iff] at hStops
  by_contra hComment
  have hComment :
      (TokenSource.current s).isComment = true := by
    simpa using hComment
  simp [Token.isFiller, hComment,
    isEof_of_test hComment fun _ _ => rfl] at hStops

/- A single rule is an item. -/
theorem item_of_yields_singleRule
    {s s' : σ}
    {node : Node}
    (hFiller : Token.Stops Token.isFiller (upcoming s))
    (h :
      (singleRule .full : Parser σ Node).Yields
        s node s') :
    ∃ ts, Passes s ts s' ∧
      Form.Item ts (upcoming s') node := by
  unfold singleRule at h
  rw [Parser.yields_bind_enter,
    Parser.yields_bind_current] at h
  split at h
  · exact absurd h Parser.yields_fail
  · rename_i hKeyword
    rw [Parser.yields_bind_location, Parser.yields_bind] at h
    rcases h with ⟨⟨ts, ending⟩, m, hSpan, hAfter⟩
    cases ending with
    | declaration => exact absurd hAfter Parser.yields_fail
    | block =>
        rcases yields_ambiguousSpan_block.mp hSpan with
          ⟨left, hPasses, hAll, hLeft⟩
        rcases Parser.yields_bind.mp hAfter with
          ⟨_, n, hOpening, hBlock⟩
        rw [yields_ruleOpening fun t hMem =>
          hPasses.isEof_of_mem
            (List.mem_append_left _ hMem)] at hOpening
        rcases hOpening with ⟨rfl, chunks, hChunks, rfl⟩
        have hComment :
            (TokenSource.current s).isComment = false :=
          isComment_current_of_stops hFiller
        have hStart : Token.Stops Form.startsOther ts := by
          apply hPasses.stops
          simpa [Form.startsOther, hComment] using hKeyword
        exact
          item_of_yields_blockNode hPasses
            (.rule hAll hStart hChunks hLeft) hBlock

/- Where an at-keyword stands, an at-rule is read. -/
theorem yields_itemHead_of_isAtKeyword
    {s s' : σ}
    {head : Head}
    (hKeyword :
      isAtKeyword (TokenSource.current s) = true) :
    (itemHead : Parser σ Head).Yields s head s' ↔
      (atRule : Parser σ Head).Yields s head s' := by
  rcases isAtKeyword_iff_kind.mp hKeyword with ⟨word, hKind⟩
  unfold itemHead
  rw [Parser.yields_bind_current, hKind]

/- A single at-rule is an item. -/
theorem item_of_yields_singleAtRule
    {s s' : σ}
    {node : Node}
    (h :
      (singleAtRule .full : Parser σ Node).Yields
        s node s') :
    ∃ ts, Passes s ts s' ∧
      Form.Item ts (upcoming s') node := by
  unfold singleAtRule at h
  rw [Parser.yields_bind_enter,
    Parser.yields_bind_current] at h
  split at h
  · rename_i hKeyword
    rw [Parser.yields_bind] at h
    rcases h with ⟨head, m, hHead, hNode⟩
    rw [← yields_itemHead_of_isAtKeyword hKeyword] at hHead
    cases head with
    | leaf content =>
        rcases yields_itemHead_leaf.mp hHead with
          ⟨ts, hPasses, hFlat⟩
        rcases Parser.yields_pure.mp hNode with ⟨rfl, rfl⟩
        exact ⟨ts, hPasses, item_of_flat hPasses hFlat⟩
    | opening opening =>
        rcases yields_itemHead_opening.mp hHead with
          ⟨head, hPasses, hOpens⟩
        exact
          item_of_yields_blockNode hPasses hOpens hNode
  · exact absurd h Parser.yields_fail

/- A single declaration is an item. -/
theorem item_of_yields_singleDeclaration
    {s s' : σ}
    {node : Node}
    (h :
      (singleDeclaration : Parser σ Node).Yields s node s') :
    ∃ ts, Passes s ts s' ∧
      Form.Item ts (upcoming s') node := by
  unfold singleDeclaration at h
  rw [Parser.yields_bind_enter, Parser.yields_bind_location,
    Parser.yields_bind] at h
  rcases h with ⟨⟨ts, ending⟩, m, hSpan, hAfter⟩
  cases ending with
  | block => exact absurd hAfter Parser.yields_fail
  | declaration =>
      rcases form_of_yields_ambiguousSpan hSpan with
        ⟨run, mark, rfl, hPasses, hAll, hEnd⟩
      rcases Parser.yields_bind.mp hAfter with
        ⟨content, n, hContent, hPure⟩
      rw [yields_isolatedDeclaration
        fun t => hPasses.isEof_of_mem] at hContent
      rcases hContent with ⟨rfl, hForm⟩
      rcases Parser.yields_pure.mp hPure with ⟨rfl, rfl⟩
      exact
        ⟨_, hPasses,
          item_of_flat hPasses
            (.declaration hAll hEnd hForm)⟩

/-
  A single item is read between two runs of formatting, of
  which the first one is as long as possible.
-/
theorem yields_single
    {item : Parser σ Node}
    {kind : ErrorKind}
    {s s' : σ}
    {root : Node} :
    (single item kind).Yields s root s' ↔
      ∃ before after node m n,
        Passes s before m ∧ Form.Fillers before ∧
          Token.Stops Token.isFiller (upcoming m) ∧
          item.Yields m node n ∧
          Passes n after s' ∧ Form.Fillers after ∧
          upcoming s' = [] ∧
          root =
            Block.toNode
              ⟨[node.withBefore (Token.rawText before)],
                Token.rawText after⟩
              .styleSheet (TokenSource.location s) "" := by
  unfold single
  rw [Parser.yields_bind_enter, Parser.yields_bind_location]
  simp only [Parser.yields_bind, yields_filler]
  constructor
  · intro h
    rcases h with
      ⟨_, m, ⟨before, hBefore, hFillers, hStops, rfl⟩, node,
        n, hNode, _, k,
        ⟨after, hAfter, hAfterFillers, _, rfl⟩, hLast⟩
    rw [← Parser.yields_bind,
      Parser.yields_bind_current] at hLast
    split at hLast
    · rename_i hEof
      rcases Parser.yields_pure.mp hLast with ⟨rfl, rfl⟩
      exact
        ⟨before, after, node, m, n, hBefore, hFillers,
          hStops, hNode, hAfter, hAfterFillers,
          TokenSource.upcoming_eq_nil_iff.mpr hEof, rfl⟩
    · exact absurd hLast Parser.yields_fail
  · intro h
    rcases h with
      ⟨before, after, node, m, n, hBefore, hFillers, hStops,
        hNode, hAfter, hAfterFillers, hEnd, rfl⟩
    have hEof := TokenSource.upcoming_eq_nil_iff.mp hEnd
    refine
      ⟨_, m, ⟨before, hBefore, hFillers, hStops, rfl⟩, node,
        n, hNode, _, s',
        ⟨after, hAfter, hAfterFillers, ?_, rfl⟩, ?_⟩
    · rw [hEnd]
      exact Token.stops_nil
    · rw [← Parser.yields_bind, Parser.yields_bind_current,
        if_pos hEof, Parser.yields_pure]
      exact ⟨rfl, rfl⟩

/- A single item stands between two runs of formatting. -/
theorem form_of_yields_single
    {item : Parser σ Node}
    {kind : ErrorKind}
    (hItem :
      ∀ {s s' node},
        Token.Stops Token.isFiller (upcoming s) →
          item.Yields s node s' →
            ∃ ts, Passes s ts s' ∧
              Form.Item ts (upcoming s') node)
    {s s' : σ}
    {root : Node}
    (h : (single item kind).Yields s root s') :
    ∃ block, Passes s (upcoming s) s' ∧
      Form.Whole (upcoming s) block ∧
      root =
        block.toNode .styleSheet
          (TokenSource.location s) "" := by
  rcases yields_single.mp h with
    ⟨before, after, node, m, n, hBefore, hFillers, hStops,
      hNode, hAfter, hAfterFillers, hEnd, hRoot⟩
  rcases hItem hStops hNode with ⟨ts, hPasses, hForm⟩
  rw [hAfter.upcoming_eq, hEnd, List.append_nil] at hForm
  have hAll := hBefore.append (hPasses.append hAfter)
  have hShown := hAll.upcoming_eq
  rw [hEnd, List.append_nil] at hShown
  rw [hShown]
  exact
    ⟨_, hAll, .single hFillers hForm hAfterFillers, hRoot⟩

/- What is read in any context has the form of it. -/
theorem form_of_yields_document
    {context : Context}
    {s s' : σ}
    {root : Node}
    (h : (document .full context).Yields s root s') :
    ∃ block, Passes s (upcoming s) s' ∧
      Form.Whole (upcoming s) block ∧
      root =
        block.toNode .styleSheet
          (TokenSource.location s) "" := by
  cases context with
  | styleSheet =>
      rcases yields_styleSheet.mp h with
        ⟨block, hPasses, hForm, hRoot⟩
      exact ⟨block, hPasses, .items hForm, hRoot⟩
  | rule =>
      exact form_of_yields_single item_of_yields_singleRule h
  | atRule =>
      exact
        form_of_yields_single
          (fun _ => item_of_yields_singleAtRule) h
  | declaration =>
      exact
        form_of_yields_single
          (fun _ => item_of_yields_singleDeclaration) h

end Grammar

end LosslessCss
