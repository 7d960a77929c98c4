import LosslessCss.Grammar.Span
import LosslessCss.Tree.Piece

/-
  Selector lists: the text in front of the block of a rule,
  split at the commas outside of all spans.

  The pieces alternate between formatting and selectors, and
  formatting comes first and last.  A comma is formatting
  and stands with that of the selector after it.

  Key definitions include:
    * `SelectorDraft`
    * `Grammar.arrangeSelectors`
    * `Grammar.selectorList`
-/

------------------------------------------------------------
-- Drafts
------------------------------------------------------------

namespace LosslessCss

/-
  A selector list that is being put together.  The slot is
  the formatting in front of the selector at work, and what
  is pending came after the last part of that selector.
-/
structure SelectorDraft where
  done : List Piece
  slot : String
  selector : String
  pending : String
deriving DecidableEq

namespace SelectorDraft

/- The draft of an empty list. -/
def empty : SelectorDraft :=
  ⟨[], "", "", ""⟩

/- Add a comma, which ends the selector at work. -/
def addComma
    (draft : SelectorDraft)
    (raw : String) : SelectorDraft :=
  { done :=
      draft.done ++
        [.filler draft.slot, .value draft.selector]
    slot := draft.pending ++ raw
    selector := ""
    pending := "" }

/- Add formatting. -/
def addFiller
    (draft : SelectorDraft)
    (raw : String) : SelectorDraft :=
  if draft.selector = "" then
    { draft with slot := draft.slot ++ raw }
  else
    { draft with pending := draft.pending ++ raw }

/- Add a part of the selector at work. -/
def addPart
    (draft : SelectorDraft)
    (raw : String) : SelectorDraft :=
  { draft with
    selector := draft.selector ++ draft.pending ++ raw
    pending := "" }

/- Add a chunk. -/
def add
    (draft : SelectorDraft)
    (chunk : Chunk) : SelectorDraft :=
  match chunk.head.kind with
  | .comma => draft.addComma chunk.raw
  | .whitespace => draft.addFiller chunk.raw
  | .comment _ => draft.addFiller chunk.raw
  | _ => draft.addPart chunk.raw

/-
  The finished pieces.  Formatting alone is one piece, and
  there is no selector then.
-/
def finish (draft : SelectorDraft) : List Piece :=
  if draft.done.isEmpty && draft.selector = "" then
    [.filler (draft.slot ++ draft.pending)]
  else
    draft.done ++
      [ .filler draft.slot,
        .value draft.selector,
        .filler draft.pending ]

end SelectorDraft

end LosslessCss

------------------------------------------------------------
-- Selector Lists
------------------------------------------------------------

namespace LosslessCss

namespace Grammar

variable {σ : Type} [TokenSource σ]

/- The pieces of a selector list. -/
def arrangeSelectors (chunks : List Chunk) : List Piece :=
  (chunks.foldl SelectorDraft.add .empty).finish

/- Parse a selector list up to the end of the input. -/
def selectorList : Parser σ (List Piece) := do
  Parser.enter .selectorList
  let chunks ← chunksWhile opens? fun _ => true
  pure (arrangeSelectors chunks)

end Grammar

end LosslessCss
