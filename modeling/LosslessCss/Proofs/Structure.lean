import LosslessCss.Proofs.CoveredForms
import LosslessCss.Tree.Outline

/-
  The structure of a tree: what is left of it without its
  formatting and its locations.

  An outline only shows structure.  Formatting between the
  chunks of a value or around those of a selector does not
  count for the structure that these are arranged to.

  Key definitions include:
    * `Piece.solids`
    * `Node.stripped`
    * `SelectorDraft.Resembles`

  Key theorems include:
    * `Node.outline_eq_of_stripped`
    * `Importance.foldAll_congr`
    * `SelectorDraft.Resembles.foldl_add`
-/

------------------------------------------------------------
-- Solid Pieces
------------------------------------------------------------

namespace LosslessCss

namespace Piece

/- The pieces that are not formatting. -/
def solids (pieces : List Piece) : List Piece :=
  pieces.filter fun piece => !piece.isFiller

@[simp] theorem solids_nil :
    solids [] = [] :=
  rfl

@[simp] theorem solids_append
    (ps qs : List Piece) :
    solids (ps ++ qs) = solids ps ++ solids qs :=
  List.filter_append ps qs

@[simp] theorem solids_filler
    (text : String)
    (pieces : List Piece) :
    solids (.filler text :: pieces) = solids pieces :=
  rfl

@[simp] theorem solids_value
    (text : String)
    (pieces : List Piece) :
    solids (.value text :: pieces) =
      .value text :: solids pieces :=
  rfl

@[simp] theorem solids_function
    (text : String)
    (pieces : List Piece) :
    solids (.function text :: pieces) =
      .function text :: solids pieces :=
  rfl

@[simp] theorem solids_pushFiller
    (pieces : List Piece)
    (added : String) :
    solids (pushFiller pieces added) = solids pieces := by
  unfold pushFiller
  split
  · rfl
  · split
    · rename_i last hLast
      have hParts := List.dropLast_append_getLast? _ hLast
      calc
        solids (pieces.dropLast ++ [.filler (last ++ added)])
            = solids (pieces.dropLast ++ [.filler last]) := by
              simp
        _ = solids pieces := by rw [hParts]
    · simp

@[simp] theorem solids_push
    (pieces : List Piece)
    (piece : Piece) :
    solids (push pieces piece) =
      solids pieces ++ solids [piece] := by
  cases piece with
  | value text => simp [push]
  | function text => simp [push]
  | filler text => simp [push]

@[simp] theorem solids_foldl_push
    (pieces others : List Piece) :
    solids (others.foldl push pieces) =
      solids pieces ++ solids others := by
  induction others generalizing pieces with
  | nil => simp
  | cons other others ih =>
      have hOne :
          solids (other :: others) =
            solids [other] ++ solids others :=
        solids_append [other] others
      rw [List.foldl_cons, ih, solids_push, hOne,
        List.append_assoc]

/- The values of pieces are those of the solid ones. -/
theorem values_solids
    (pieces : List Piece) :
    values (solids pieces) = values pieces := by
  simp [values, solids]

end Piece

end LosslessCss

------------------------------------------------------------
-- Stripped Trees
------------------------------------------------------------

namespace LosslessCss

namespace Leaf

/- A leaf without its formatting. -/
def stripped : Leaf → Leaf
| .declaration property _ value important =>
    .declaration property "" (Piece.solids value) important
| .comment text => .comment text
| .statement name value =>
    .statement name (Piece.solids value)

end Leaf

namespace Opening

/- What opens a block, without its formatting. -/
def stripped : Opening → Opening
| .styleSheet => .styleSheet
| .rule selectors => .rule (Piece.solids selectors)
| .atRule name parameters =>
    .atRule name (Piece.solids parameters)

end Opening

namespace Node

mutual

/- A tree without its formatting and its locations. -/
def stripped : Node → Node
| .leaf content _ _ =>
    .leaf content.stripped Location.start ""
| .block opening children _ _ _ =>
    .block opening.stripped (strippedAll children) ""
      Location.start ""

/- A list of trees without formatting and locations. -/
def strippedAll : List Node → List Node
| [] => []
| node :: nodes => stripped node :: strippedAll nodes

end

end Node

namespace Outline

theorem leafLines_stripped
    (leaf : Leaf) :
    leafLines leaf.stripped = leafLines leaf := by
  cases leaf with
  | comment text => rfl
  | statement name value =>
      simp [leafLines, Leaf.stripped, Piece.values_solids]
  | declaration property before value important =>
      have hLines :
          (Piece.solids value).filterMap valueLine? =
            value.filterMap valueLine? := by
        induction value with
        | nil => rfl
        | cons piece value ih =>
            cases piece with
            | value text => simp [valueLine?, ih]
            | function text => simp [valueLine?, ih]
            | filler text => exact ih
      simp [leafLines, Leaf.stripped, hLines]

theorem openingLine_stripped
    (size : Nat)
    (opening : Opening) :
    openingLine size opening.stripped =
      openingLine size opening := by
  unfold Opening.stripped openingLine
  cases opening with
  | styleSheet => rfl
  | rule selectors => simp only [Piece.values_solids]
  | atRule name parameters => simp only [Piece.values_solids]

end Outline

namespace Node

theorem length_strippedAll
    (nodes : List Node) :
    (strippedAll nodes).length = nodes.length := by
  induction nodes with
  | nil => rfl
  | cons node nodes ih => simp [strippedAll, ih]

mutual

/- An outline shows the stripped tree. -/
theorem outlineLines_stripped
    (depth : Nat) :
    ∀ node : Node,
      outlineLines depth node.stripped =
        outlineLines depth node
| .leaf content _ _ => by
    simp [stripped, outlineLines, Outline.leafLines_stripped]
| .block opening children _ _ _ => by
    simp [stripped, outlineLines,
      Outline.openingLine_stripped, length_strippedAll,
      outlineAll_stripped (depth + 1) children]

theorem outlineAll_stripped
    (depth : Nat) :
    ∀ nodes : List Node,
      outlineAll depth (strippedAll nodes) =
        outlineAll depth nodes
| [] => rfl
| node :: nodes => by
    simp [strippedAll, outlineAll,
      outlineLines_stripped depth node,
      outlineAll_stripped depth nodes]

end

/- Trees of the same structure have the same outline. -/
theorem outline_eq_of_stripped
    {node other : Node}
    (hSame : node.stripped = other.stripped) :
    node.outline = other.outline := by
  unfold outline
  rw [← outlineLines_stripped, hSame, outlineLines_stripped]

end Node

namespace Block

/- The children of a block without their formatting. -/
def stripped (block : Block) : List Node :=
  Node.strippedAll block.children

@[simp] theorem stripped_cons
    (node : Node)
    (block : Block) :
    (block.cons node).stripped =
      node.stripped :: block.stripped := by
  simp [stripped, cons, Node.strippedAll]

@[simp] theorem stripped_toNode
    (block : Block)
    (opening : Opening)
    (here : Location)
    (before : String) :
    (block.toNode opening here before).stripped =
      .block opening.stripped block.stripped ""
        Location.start "" := by
  simp [stripped, toNode, Node.stripped]

end Block

end LosslessCss

------------------------------------------------------------
-- Values
------------------------------------------------------------

namespace LosslessCss

namespace Grammar

theorem solids_addToValue_congr
    {ps qs : List Piece}
    (hSame : Piece.solids ps = Piece.solids qs)
    (chunk : Chunk) :
    Piece.solids (addToValue ps chunk) =
      Piece.solids (addToValue qs chunk) := by
  unfold addToValue
  split <;> simp [hSame]

/- Formatting in front does not count for a value. -/
theorem solids_foldl_addToValue_congr
    {ps qs : List Piece}
    (hSame : Piece.solids ps = Piece.solids qs)
    (chunks : List Chunk) :
    Piece.solids (chunks.foldl addToValue ps) =
      Piece.solids (chunks.foldl addToValue qs) := by
  induction chunks generalizing ps qs with
  | nil => exact hSame
  | cons chunk chunks ih =>
      exact ih (solids_addToValue_congr hSame chunk)

/- A blank among the chunks of a value does not count. -/
theorem solids_arrangeValue_insert
    {blank : Chunk}
    (hBlank : blank.head.kind = .whitespace)
    (chunks others : List Chunk) :
    Piece.solids (arrangeValue (chunks ++ blank :: others)) =
      Piece.solids (arrangeValue (chunks ++ others)) := by
  unfold arrangeValue
  rw [List.foldl_append, List.foldl_append, List.foldl_cons]
  apply solids_foldl_addToValue_congr
  simp [addToValue, hBlank]

end Grammar

namespace Importance

theorem solids_dropWhile
    (pieces : List Piece) :
    Piece.solids (pieces.dropWhile Piece.isFiller) =
      Piece.solids pieces := by
  induction pieces with
  | nil => rfl
  | cons piece pieces ih =>
      cases piece with
      | value text => rfl
      | function text => rfl
      | filler text => exact ih

/- The first piece behind formatting is the first solid. -/
theorem solids_of_dropWhile
    {pieces others : List Piece}
    {piece : Piece}
    (hFirst :
      pieces.dropWhile Piece.isFiller = piece :: others) :
    Piece.solids pieces = piece :: Piece.solids others := by
  have hSolid :=
    List.head?_dropWhile_not Piece.isFiller pieces
  rw [hFirst] at hSolid
  rw [← solids_dropWhile, hFirst]
  cases piece with
  | value text => rfl
  | function text => rfl
  | filler text => cases hSolid

/- A mark that is folded are the last two solid pieces. -/
theorem solids_of_foldLast?
    {reversed folded : List Piece}
    (hFold : foldLast? reversed = some folded) :
    ∃ word bang,
      isWord word = true ∧ isBang bang = true ∧
        Piece.solids reversed =
          word :: bang :: Piece.solids folded := by
  unfold foldLast? at hFold
  simp only at hFold
  split at hFold
  · cases hFold
  rename_i word beforeWord hWord
  split at hFold
  · cases hFold
  rename_i bang beforeBang hBang
  split at hFold
  case isFalse => cases hFold
  rename_i hMark
  rw [Bool.and_eq_true] at hMark
  cases hFold
  refine ⟨word, bang, hMark.1, hMark.2, ?_⟩
  have hOuter :
      Piece.solids (takeFiller beforeBang).2 =
        Piece.solids beforeBang := by
    unfold takeFiller
    split
    · rfl
    · rfl
  rw [solids_of_dropWhile hWord, solids_of_dropWhile hBang,
    Piece.solids_filler, hOuter]

/- Two last solid pieces that are a mark are folded. -/
theorem exists_foldLast?
    {reversed others : List Piece}
    {word bang : Piece}
    (hWord : isWord word = true)
    (hBang : isBang bang = true)
    (hSolids :
      Piece.solids reversed = word :: bang :: others) :
    ∃ folded, foldLast? reversed = some folded := by
  unfold foldLast?
  simp only
  cases hFirst : reversed.dropWhile Piece.isFiller with
  | nil =>
      rw [← solids_dropWhile, hFirst] at hSolids
      cases hSolids
  | cons first beforeFirst =>
      rw [solids_of_dropWhile hFirst] at hSolids
      rcases List.cons.inj hSolids with ⟨rfl, hRest⟩
      cases hSecond :
          beforeFirst.dropWhile Piece.isFiller with
      | nil =>
          rw [← solids_dropWhile, hSecond] at hRest
          cases hRest
      | cons second beforeSecond =>
          rw [solids_of_dropWhile hSecond] at hRest
          rcases List.cons.inj hRest with ⟨rfl, _⟩
          simp [hSecond, hWord, hBang]

/- Folding marks only depends on the solid pieces. -/
theorem foldReversed_congr
    {reversed other : List Piece}
    (hSame : Piece.solids reversed = Piece.solids other) :
    Piece.solids (foldReversed reversed).1 =
        Piece.solids (foldReversed other).1 ∧
      (foldReversed reversed).2 = (foldReversed other).2 := by
  fun_induction foldReversed reversed generalizing other with
  | case1 reversed hNone =>
      have hOther : foldLast? other = none := by
        rw [Option.eq_none_iff_forall_ne_some]
        intro folded hFold
        rcases solids_of_foldLast? hFold with
          ⟨word, bang, hWord, hBang, hSolids⟩
        rcases exists_foldLast? hWord hBang
            (hSame.trans hSolids) with
          ⟨_, hSome⟩
        rw [hNone] at hSome
        cases hSome
      rw [foldReversed]
      split
      · exact ⟨hSame, rfl⟩
      · rename_i hSome
        rw [hOther] at hSome
        cases hSome
  | case2 reversed folded hFold _ ih =>
      rcases solids_of_foldLast? hFold with
        ⟨word, bang, hWord, hBang, hSolids⟩
      rcases exists_foldLast? hWord hBang
          (hSame.symm.trans hSolids) with
        ⟨folded', hFold'⟩
      rcases solids_of_foldLast? hFold' with
        ⟨word', bang', _, _, hSolids'⟩
      have hNext :
          Piece.solids folded = Piece.solids folded' := by
        have hBoth :=
          hSolids.symm.trans (hSame.trans hSolids')
        simp only [List.cons.injEq] at hBoth
        exact hBoth.2.2
      rw [foldReversed.eq_def other]
      split
      · rename_i hNone
        rw [hFold'] at hNone
        cases hNone
      · rename_i hSome
        rw [hFold'] at hSome
        cases hSome
        exact ⟨(ih hNext).1, rfl⟩

theorem foldAll_congr
    {pieces others : List Piece}
    (hSame : Piece.solids pieces = Piece.solids others) :
    Piece.solids (foldAll pieces).1 =
        Piece.solids (foldAll others).1 ∧
      (foldAll pieces).2 = (foldAll others).2 := by
  have hReverse :
      ∀ ps : List Piece,
        Piece.solids ps.reverse = (Piece.solids ps).reverse :=
    fun ps => List.filter_reverse ..
  have hBack :
      Piece.solids pieces.reverse =
        Piece.solids others.reverse := by
    rw [hReverse, hReverse, hSame]
  have hBoth := foldReversed_congr hBack
  unfold foldAll
  simp only
  rw [hReverse, hReverse, hBoth.1]
  exact ⟨rfl, hBoth.2⟩

end Importance

end LosslessCss

------------------------------------------------------------
-- Selectors
------------------------------------------------------------

namespace LosslessCss

namespace SelectorDraft

/- Two drafts that only differ in formatting. -/
structure Resembles
    (draft other : SelectorDraft) : Prop where
  solids_done :
    Piece.solids draft.done = Piece.solids other.done
  isEmpty_done : draft.done.isEmpty = other.done.isEmpty
  selector_eq : draft.selector = other.selector

/- Drafts that only differ in formatting stay so. -/
theorem Resembles.addComma
    {draft other : SelectorDraft}
    (hLike : draft.Resembles other)
    (raw : String) :
    (draft.addComma raw).Resembles (other.addComma raw) ∧
      (draft.addComma raw).pending =
        (other.addComma raw).pending := by
  refine ⟨⟨?_, ?_, rfl⟩, rfl⟩
  · simp [SelectorDraft.addComma, hLike.solids_done,
      hLike.selector_eq]
  · have hSome :
        ∀ (pieces : List Piece) (first second : Piece),
          (pieces ++ [first, second]).isEmpty = false := by
      intro pieces first second
      cases pieces with
      | nil => rfl
      | cons _ _ => rfl
    simp [SelectorDraft.addComma, hSome]

theorem Resembles.add
    {draft other : SelectorDraft}
    (hLike : draft.Resembles other)
    (hPending : draft.pending = other.pending)
    (chunk : Chunk) :
    (draft.add chunk).Resembles (other.add chunk) ∧
      (draft.add chunk).pending =
        (other.add chunk).pending := by
  unfold SelectorDraft.add
  have hFiller :
      (draft.addFiller chunk.raw).Resembles
          (other.addFiller chunk.raw) ∧
        (draft.addFiller chunk.raw).pending =
          (other.addFiller chunk.raw).pending := by
    unfold addFiller
    rw [hLike.selector_eq]
    split
    · exact
        ⟨⟨hLike.solids_done, hLike.isEmpty_done, rfl⟩,
          hPending⟩
    · exact
        ⟨⟨hLike.solids_done, hLike.isEmpty_done, rfl⟩,
          by simp [hPending]⟩
  split
  · exact hLike.addComma chunk.raw
  · exact hFiller
  · exact hFiller
  · exact
      ⟨⟨hLike.solids_done, hLike.isEmpty_done,
          by simp [addPart, hLike.selector_eq, hPending]⟩,
        rfl⟩

theorem Resembles.foldl_add
    {draft other : SelectorDraft}
    (hLike : draft.Resembles other)
    (hPending : draft.pending = other.pending)
    (chunks : List Chunk) :
    (chunks.foldl SelectorDraft.add draft).Resembles
      (chunks.foldl SelectorDraft.add other) := by
  induction chunks generalizing draft other with
  | nil => exact hLike
  | cons chunk chunks ih =>
      rcases hLike.add hPending chunk with ⟨hNext, hSame⟩
      exact ih hNext hSame

/- Drafts that only differ in formatting end alike. -/
theorem Resembles.solids_finish
    {draft other : SelectorDraft}
    (hLike : draft.Resembles other) :
    Piece.solids draft.finish =
      Piece.solids other.finish := by
  unfold finish
  rw [hLike.isEmpty_done, hLike.selector_eq]
  split
  · rfl
  · simp [hLike.solids_done]

/- Formatting behind a selector is pending. -/
theorem foldl_add_fillers
    {draft : SelectorDraft}
    {chunks : List Chunk}
    (hSelector : draft.selector ≠ "")
    (hFillers : ∀ chunk ∈ chunks, chunk.isFiller = true) :
    chunks.foldl add draft =
      { draft with
        pending := draft.pending ++ Chunk.rawText chunks } := by
  induction chunks generalizing draft with
  | nil => simp [Chunk.rawText]
  | cons chunk chunks ih =>
      rcases List.forall_mem_cons.mp hFillers with
        ⟨hFirst, hOthers⟩
      have hAdd :
          draft.add chunk =
            { draft with
              pending := draft.pending ++ chunk.raw } := by
        rcases add_cases draft chunk with
          ⟨hComma, _⟩ | ⟨_, hAdd⟩ | ⟨_, hNone, _⟩
        · simp [Chunk.isFiller, Token.isFiller,
            Token.isWhitespace, Token.isComment, hComma]
            at hFirst
        · rw [hAdd, addFiller, if_neg hSelector]
        · rw [hFirst] at hNone
          cases hNone
      have hNext :=
        @ih
          { draft with pending := draft.pending ++ chunk.raw }
          hSelector hOthers
      rw [List.foldl_cons, hAdd, hNext]
      simp [Chunk.rawText, String.append_assoc]

end SelectorDraft

end LosslessCss
