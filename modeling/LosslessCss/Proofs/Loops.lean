import LosslessCss.Grammar.Document

/-
  The loops of the grammar as parsers.

  Each loop runs directly over its source, so that its bound
  can be seen.  Here every loop is shown to be one round of
  plain parsers followed by the loop again.  All later
  results use these equations and never look inside a loop.

  Key definitions include:
    * `Grammar.items`

  Key theorems include:
    * `Grammar.tokensWhile_eq`
    * `Grammar.span_eq`
    * `Grammar.chunksWhile_eq`
    * `Grammar.items_eq`
-/

------------------------------------------------------------
-- Equality of Parsers
------------------------------------------------------------

namespace LosslessCss

namespace Reply

variable {σ α β : Type}

@[simp] theorem after_after
    (r : Reply σ α)
    (first second : List Event) :
    (r.after second).after first =
      r.after (first ++ second) := by
  simp [after]

end Reply

namespace Parser

variable {σ : Type} [TokenSource σ] {α β : Type}

/- Parsers that reply alike everywhere are equal. -/
theorem ext_run
    {p q : Parser σ α}
    (h : ∀ s, p.run s = q.run s) :
    p = q := by
  cases p
  cases q
  congr
  exact funext h

theorem run_pure
    (value : α)
    (s : σ) :
    (pure value : Parser σ α).run s = .ok value s :=
  rfl

theorem run_bind
    (p : Parser σ α)
    (f : α → Parser σ β)
    (s : σ) :
    (p >>= f).run s = continueWith (p.run s) f :=
  rfl

/- Going on with a plain result changes the result only. -/
theorem continueWith_pure
    (r : Reply σ α)
    (f : α → β) :
    continueWith r (fun a => pure (f a)) = r.map f := by
  rcases r with ⟨outcome, s, trace⟩
  cases outcome with
  | ok value =>
      simp [continueWith, run_pure, Reply.ok, Reply.after,
        Reply.map, Except.map]
  | error e => rfl

/- Looking at the token hands it to what follows. -/
theorem run_bind_current
    (f : Token → Parser σ β)
    (s : σ) :
    (current >>= f).run s =
      (f (TokenSource.current s)).run s :=
  rfl

/- Moving forward puts the arrival into the trace. -/
theorem run_bind_advance
    (f : Unit → Parser σ β)
    (s : σ) :
    (advance >>= f).run s =
      ((f ()).run (TokenSource.advance s)).after
        (TokenSource.arrival (TokenSource.advance s)) :=
  rfl

theorem run_bind_enter
    (routine : Routine)
    (f : Unit → Parser σ β)
    (s : σ) :
    (enter routine >>= f).run s =
      ((f ()).run s).after [.enter routine] :=
  rfl

end Parser

end LosslessCss

------------------------------------------------------------
-- Runs of Tokens and Spans
------------------------------------------------------------

namespace LosslessCss

namespace Grammar

variable {σ : Type} [TokenSource σ]

/- A run is empty, or a token with a run after it. -/
theorem tokensWhile_eq
    (p : Token → Bool) :
    (tokensWhile p : Parser σ (List Token)) =
      (do
        let t ← Parser.current
        if !t.isEof && p t then
          Parser.advance
          let tail ← tokensWhile p
          pure (t :: tail)
        else
          pure []) := by
  apply Parser.ext_run
  intro s
  rw [Parser.run_bind_current]
  change (takeRun p s).val = _
  rw [takeRun]
  by_cases h : goesOn p s = true
  · have hTest :
        (!(TokenSource.current s).isEof &&
          p (TokenSource.current s)) = true := h
    simp only [h, hTest, if_true, dite_true]
    rw [Parser.run_bind_advance, Parser.run_bind,
      Parser.continueWith_pure]
    rfl
  · have hTest :
        ¬ (!(TokenSource.current s).isEof &&
          p (TokenSource.current s)) = true := h
    simp only [h, hTest]
    rfl

/-
  The rest of a span is its closer, or a token or an inner
  span with the rest of the span after it.
-/
theorem span_eq
    (closer : Closer) :
    (span closer : Parser σ String) =
      (do
        let t ← Parser.current
        if closer.closes t then
          Parser.advance
          pure t.raw
        else if t.isEof then
          Parser.fail .unclosedBlock
            "expected a closing bracket"
        else
          match opens? t with
          | none =>
              Parser.advance
              let tail ← span closer
              pure (t.raw ++ tail)
          | some opener =>
              Parser.enter opener.routine
              Parser.advance
              let body ← span opener.closer
              let tail ← span closer
              pure (t.raw ++ body ++ tail)) := by
  apply Parser.ext_run
  intro s
  rw [Parser.run_bind_current]
  change (takeSpan closer s).val = _
  rw [takeSpan]
  by_cases hCloses :
      closer.closes (TokenSource.current s) = true
  · simp only [hCloses, if_true]
    rw [Parser.run_bind_advance, Parser.run_pure]
    simp [Reply.after, Reply.ok]
  by_cases hEof : (TokenSource.current s).isEof = true
  · simp only [hCloses, hEof, Bool.false_eq_true, if_false,
      if_true, dite_true]
    rfl
  simp only [hCloses, hEof, Bool.false_eq_true, if_false,
    dite_false]
  cases hOpens : opens? (TokenSource.current s) with
  | none =>
      dsimp only
      rw [Parser.run_bind_advance, Parser.run_bind,
        Parser.continueWith_pure]
      rfl
  | some opener =>
      dsimp only
      rw [Parser.run_bind_enter, Parser.run_bind_advance]
      cases hBody :
          (takeSpan opener.closer
            (TokenSource.advance s)).val.outcome with
      | error e =>
          rw [Parser.run_bind_of_error (span _) _ _ hBody]
          rfl
      | ok text =>
          rw [Parser.run_bind_of_ok (span _) _ _ hBody,
            Parser.run_bind, Parser.continueWith_pure,
            Reply.after_after, Reply.after_after]
          rfl

end Grammar

end LosslessCss

------------------------------------------------------------
-- Chunks and Items
------------------------------------------------------------

namespace LosslessCss

namespace Grammar

variable {σ : Type} [TokenSource σ]

/- A list of chunks is empty, or a chunk with a list after. -/
theorem chunksWhile_eq
    (opens : Token → Option Opener)
    (p : Token → Bool) :
    (chunksWhile opens p : Parser σ (List Chunk)) =
      (do
        let t ← Parser.current
        if !t.isEof && p t then
          let first ← chunk opens
          let tail ← chunksWhile opens p
          pure (first :: tail)
        else
          pure []) := by
  apply Parser.ext_run
  intro s
  rw [Parser.run_bind_current]
  change (takeChunks opens p s).val = _
  rw [takeChunks]
  by_cases h : goesOn p s = true
  · have hTest :
        (!(TokenSource.current s).isEof &&
          p (TokenSource.current s)) = true := h
    simp only [h, hTest, if_true, dite_true]
    split
    · rename_i e hFirst
      rw [Parser.run_bind_of_error _ _ _ hFirst]
    · rename_i first hFirst
      rw [Parser.run_bind_of_ok _ _ _ hFirst,
        Parser.run_bind, Parser.continueWith_pure]
      rfl
  · have hTest :
        ¬ (!(TokenSource.current s).isEof &&
          p (TokenSource.current s)) = true := h
    simp only [h, hTest]
    rfl

/- Parse items, with the formatting before the next one. -/
def items
    (nested : Bool)
    (before : String) : Parser σ Block :=
  ⟨fun s => (takeItems .full nested before s).val,
    fun s => (takeItems .full nested before s).property⟩

/- A list of items starts without formatting. -/
theorem ruleList_eq
    (nested : Bool) :
    (ruleList .full nested : Parser σ Block) =
      (do
        Parser.enter .ruleList
        items nested "") :=
  rfl

/- A fragment has no list of items. -/
theorem ruleList_fragment
    (nested : Bool) :
    (ruleList .fragment nested : Parser σ Block) =
      (do
        Parser.enter .ruleList
        Parser.fail .unimplemented
          "rule lists are not available in a fragment") :=
  rfl

/- A block fails where its items fail. -/
theorem run_blockNode_of_error
    (opening : Opening)
    (start : Location)
    {s : σ}
    {e : SyntaxError}
    (hItems : ((items true "").run s).outcome = .error e) :
    (blockNode .full opening start).run s =
      ⟨.error e, ((items true "").run s).source,
        .enter .ruleList ::
          ((items true "").run s).trace⟩ := by
  have hList :
      ((ruleList .full true).run s).outcome = .error e := hItems
  unfold blockNode
  rw [Parser.run_bind_of_error _ _ _ hList]
  rfl

/- A block ends with the right brace after its items. -/
theorem run_blockNode_of_closed
    (opening : Opening)
    (start : Location)
    {s : σ}
    {block : Block}
    (hItems : ((items true "").run s).outcome = .ok block)
    (hRight :
      isRightCurly
        (TokenSource.current
          ((items true "").run s).source) = true) :
    (blockNode .full opening start).run s =
      ⟨.ok (block.toNode opening start ""),
        TokenSource.advance ((items true "").run s).source,
        .enter .ruleList ::
          (((items true "").run s).trace ++
            TokenSource.arrival
              (TokenSource.advance
                ((items true "").run s).source))⟩ := by
  have hList :
      ((ruleList .full true).run s).outcome = .ok block := hItems
  unfold blockNode
  rw [Parser.run_bind_of_ok _ _ _ hList,
    Parser.run_bind_current]
  rw [if_pos (by exact hRight), Parser.run_bind_advance,
    Parser.run_pure]
  simp [Reply.after, Reply.ok, ruleList_eq,
    Parser.run_bind_enter]

/- A block without its right brace fails. -/
theorem run_blockNode_of_unclosed
    (opening : Opening)
    (start : Location)
    {s : σ}
    {block : Block}
    (hItems : ((items true "").run s).outcome = .ok block)
    (hRight :
      ¬ isRightCurly
        (TokenSource.current
          ((items true "").run s).source) = true) :
    (blockNode .full opening start).run s =
      ⟨.error
          (unclosedBlock opening
            ((items true "").run s).source),
        ((items true "").run s).source,
        .enter .ruleList ::
          ((items true "").run s).trace⟩ := by
  have hList :
      ((ruleList .full true).run s).outcome = .ok block := hItems
  unfold blockNode
  rw [Parser.run_bind_of_ok _ _ _ hList,
    Parser.run_bind_current]
  rw [if_neg (by exact hRight)]
  simp [Reply.after, Reply.error, Parser.fail,
    unclosedBlock, ruleList_eq, Parser.run_bind_enter]

/-
  A list of items is over, or formatting or an item with the
  list after it.
-/
theorem items_eq
    (nested : Bool)
    (before : String) :
    (items nested before : Parser σ Block) =
      (do
        let t ← Parser.current
        if endsItems nested t then
          pure ⟨[], before⟩
        else if isSeparator t then
          Parser.advance
          items nested (before ++ t.raw)
        else
          let head ← itemHead
          let node ← finishItem .full head t.location
          let tail ← items nested ""
          pure (tail.cons (node.withBefore before))) := by
  apply Parser.ext_run
  intro s
  rw [Parser.run_bind_current]
  change (takeItems .full nested before s).val = _
  rw [takeItems]
  simp only
  split
  · rfl
  · split
    · rfl
    · split
      · rename_i e hHead
        rw [Parser.run_bind_of_error _ _ _ hHead]
      · rename_i content hHead
        rw [Parser.run_bind_of_ok _ _ _ hHead]
        simp only [finishItem]
        rw [Parser.run_bind_of_ok (pure _) _ _ rfl,
          Parser.run_bind, Parser.continueWith_pure]
        rfl
      · rename_i opening hHead
        rw [Parser.run_bind_of_ok _ _ _ hHead]
        simp only [finishItem]
        cases hBody :
            (inScope .full _
              (takeItems .full true ""
                (itemHead.run s).source)).val.outcome with
        | error e =>
            have hBlock :=
              run_blockNode_of_error opening
                (TokenSource.current s).location hBody
            have hNode := congrArg Reply.outcome hBlock
            rw [Parser.run_bind_of_error _ _ _ hNode,
              hBlock]
            rfl
        | ok block =>
            simp only
            split
            · rename_i hRight
              have hBlock :=
                run_blockNode_of_closed opening
                  (TokenSource.current s).location hBody
                  hRight
              have hNode := congrArg Reply.outcome hBlock
              rw [Parser.run_bind_of_ok _ _ _ hNode, hBlock,
                Parser.run_bind, Parser.continueWith_pure]
              simp only [Reply.after, Reply.map, items,
                List.append_assoc, List.cons_append]
              rfl
            · rename_i hRight
              have hBlock :=
                run_blockNode_of_unclosed opening
                  (TokenSource.current s).location hBody
                  hRight
              have hNode := congrArg Reply.outcome hBlock
              rw [Parser.run_bind_of_error _ _ _ hNode,
                hBlock]
              rfl

end Grammar

end LosslessCss
