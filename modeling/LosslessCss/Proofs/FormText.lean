import LosslessCss.Proofs.Form
import LosslessCss.Proofs.TokenKinds
import LosslessCss.Tree.Render
import Mathlib.Data.List.Basic

/-
  The texts of the forms.

  Whatever has a form is written as the tokens that it was
  made of.  Pieces are arranged in several ways, and none of
  them drops or moves a character.  Braces and colons are not
  kept in a tree, so they have to be spelled the usual way.

  Key definitions include:
    * `Token.Spelled`
    * `SelectorDraft.text`
    * `SelectorDraft.Settled`

  Key theorems include:
    * `Grammar.joined_arrangeSelectors`
    * `Importance.joined_foldAll`
    * `Form.Items.render_eq`
    * `Form.Whole.render_eq`
-/

------------------------------------------------------------
-- Pieces
------------------------------------------------------------

namespace LosslessCss

namespace Piece

/- Two lists of pieces are written one after the other. -/
@[simp] theorem joined_append
    (ps qs : List Piece) :
    joined (ps ++ qs) = joined ps ++ joined qs := by
  induction ps with
  | nil => simp [joined]
  | cons p ps ih => simp [joined, ih, String.append_assoc]

@[simp] theorem joined_singleton
    (p : Piece) :
    joined [p] = p.text := by
  simp [joined]

/- Added formatting is written at the end. -/
@[simp] theorem joined_pushFiller
    (ps : List Piece)
    (added : String) :
    joined (pushFiller ps added) = joined ps ++ added := by
  unfold pushFiller
  split
  · rename_i hEmpty
    simp [hEmpty]
  · split
    · rename_i last hLast
      have hParts := List.dropLast_append_getLast? _ hLast
      calc
        joined (ps.dropLast ++ [.filler (last ++ added)])
            = joined (ps.dropLast ++ [.filler last]) ++
                added := by
              simp [text, String.append_assoc]
        _ = joined ps ++ added := by rw [hParts]
    · simp [text]

/- An added piece is written at the end. -/
@[simp] theorem joined_push
    (ps : List Piece)
    (p : Piece) :
    joined (push ps p) = joined ps ++ p.text := by
  cases p with
  | value t => simp [push]
  | function t => simp [push]
  | filler t => simp [push, text]

theorem joined_foldl_push
    (ps qs : List Piece) :
    joined (qs.foldl push ps) = joined ps ++ joined qs := by
  induction qs generalizing ps with
  | nil => simp [joined]
  | cons q qs ih =>
      simp [ih, joined, String.append_assoc]

end Piece

namespace Chunk

@[simp] theorem rawText_append
    (cs ds : List Chunk) :
    rawText (cs ++ ds) = rawText cs ++ rawText ds := by
  induction cs with
  | nil => simp [rawText]
  | cons c cs ih =>
      simp [rawText, ih, String.append_assoc]

end Chunk

end LosslessCss

------------------------------------------------------------
-- Arrangements
------------------------------------------------------------

namespace LosslessCss

namespace Grammar

/- A fragment is written as its formatting and its chunks. -/
theorem joined_arrangeFragment
    (leading : String)
    (chunks : List Chunk) :
    Piece.joined (arrangeFragment leading chunks) =
      leading ++ Chunk.rawText chunks := by
  have hParts :
      trimFiller chunks ++ trailingFiller chunks =
        chunks := by
    unfold trimFiller trailingFiller
    rw [← List.reverse_append,
      List.takeWhile_append_dropWhile, List.reverse_reverse]
  have hText :
      Chunk.rawText chunks =
        Chunk.rawText (trimFiller chunks) ++
          Chunk.rawText (trailingFiller chunks) := by
    rw [← Chunk.rawText_append, hParts]
  unfold arrangeFragment
  simp only [Piece.joined_pushFiller, hText]
  split
  · rename_i hBody
    simp [hBody, Piece.joined]
  · simp [Piece.joined, Piece.text, String.append_assoc]

/- A value is written as its chunks. -/
theorem joined_arrangeValue
    (chunks : List Chunk) :
    Piece.joined (arrangeValue chunks) =
      Chunk.rawText chunks := by
  have hAdd :
      ∀ (ps : List Piece) (c : Chunk),
        Piece.joined (addToValue ps c) =
          Piece.joined ps ++ c.raw := by
    intro ps c
    unfold addToValue
    split <;> simp [Piece.text]
  have hAll :
      ∀ ps : List Piece,
        Piece.joined (chunks.foldl addToValue ps) =
          Piece.joined ps ++ Chunk.rawText chunks := by
    induction chunks with
    | nil => simp [Chunk.rawText]
    | cons c chunks ih =>
        intro ps
        simp [ih, hAdd, Chunk.rawText, String.append_assoc]
  unfold arrangeValue
  rw [hAll]
  simp [Piece.joined]

end Grammar

end LosslessCss

------------------------------------------------------------
-- Selector Drafts
------------------------------------------------------------

namespace LosslessCss

namespace SelectorDraft

/- All text that a draft has taken up, in order. -/
def text (draft : SelectorDraft) : String :=
  Piece.joined draft.done ++ draft.slot ++
    draft.selector ++ draft.pending

/-
  Nothing is pending behind an empty selector.  A chunk that
  is no formatting may have an empty text, and this is what
  keeps the slot in front of it from changing places with
  the pending text then.
-/
def Settled (draft : SelectorDraft) : Prop :=
  draft.selector = "" → draft.pending = ""

/- A chunk is added at the end of a draft. -/
theorem add_spec
    (draft : SelectorDraft)
    (chunk : Chunk)
    (hSettled : draft.Settled) :
    (draft.add chunk).Settled ∧
      (draft.add chunk).text = draft.text ++ chunk.raw := by
  have hFiller :
      (draft.addFiller chunk.raw).Settled ∧
        (draft.addFiller chunk.raw).text =
          draft.text ++ chunk.raw := by
    unfold addFiller
    by_cases hEmpty : draft.selector = ""
    · have hPending := hSettled hEmpty
      simp [Settled, text, hEmpty, hPending,
        String.append_assoc]
    · simp [Settled, text, hEmpty, String.append_assoc]
  unfold add
  split
  · simp [addComma, Settled, text, Piece.joined, Piece.text,
      String.append_assoc]
  · exact hFiller
  · exact hFiller
  · simp [addPart, Settled, text, String.append_assoc]

/- Chunks are added at the end of a draft, one by one. -/
theorem foldl_add_spec
    (chunks : List Chunk)
    (draft : SelectorDraft)
    (hSettled : draft.Settled) :
    (chunks.foldl add draft).Settled ∧
      (chunks.foldl add draft).text =
        draft.text ++ Chunk.rawText chunks := by
  induction chunks generalizing draft with
  | nil => simp [Chunk.rawText, hSettled]
  | cons chunk chunks ih =>
      rcases add_spec draft chunk hSettled with
        ⟨hNext, hText⟩
      rcases ih _ hNext with ⟨hLast, hAll⟩
      refine ⟨hLast, ?_⟩
      rw [List.foldl_cons, hAll, hText, Chunk.rawText,
        String.append_assoc]

/- A draft is finished without a change to its text. -/
theorem joined_finish
    (draft : SelectorDraft) :
    Piece.joined draft.finish = draft.text := by
  unfold finish
  split
  · rename_i hEmpty
    simp only [Bool.and_eq_true, List.isEmpty_iff,
      decide_eq_true_eq] at hEmpty
    simp [text, hEmpty, Piece.joined, Piece.text]
  · simp [text, Piece.joined, Piece.text,
      String.append_assoc]

end SelectorDraft

namespace Grammar

/- A selector list is written as its chunks. -/
theorem joined_arrangeSelectors
    (chunks : List Chunk) :
    Piece.joined (arrangeSelectors chunks) =
      Chunk.rawText chunks := by
  have hEmpty : SelectorDraft.empty.Settled := fun _ => rfl
  unfold arrangeSelectors
  rw [SelectorDraft.joined_finish,
    (SelectorDraft.foldl_add_spec chunks _ hEmpty).2]
  simp [SelectorDraft.text, SelectorDraft.empty,
    Piece.joined]

end Grammar

end LosslessCss

------------------------------------------------------------
-- Marks of Importance
------------------------------------------------------------

namespace LosslessCss

namespace Importance

/- Folding the last mark keeps the text. -/
theorem joined_foldLast?
    {reversed folded : List Piece}
    (hFold : foldLast? reversed = some folded) :
    Piece.joined folded.reverse =
      Piece.joined reversed.reverse := by
  unfold foldLast? at hFold
  simp only at hFold
  split at hFold
  · cases hFold
  rename_i word beforeWord hWord
  split at hFold
  · cases hFold
  rename_i bang beforeBang hBang
  split at hFold
  case isFalse => cases hFold
  cases hFold
  -- The list is cut in five, and the first four are folded.
  have hAll :
      reversed =
        reversed.takeWhile Piece.isFiller ++
          word :: (beforeWord.takeWhile Piece.isFiller ++
            bang :: ((takeFiller beforeBang).1 ++
              (takeFiller beforeBang).2)) := by
    rw [takeFiller_append, ← hBang,
      List.takeWhile_append_dropWhile, ← hWord,
      List.takeWhile_append_dropWhile]
  have hText :=
    congrArg (fun ps => Piece.joined ps.reverse) hAll
  rw [hText]
  simp [Piece.text]

/- Folding all marks at the end keeps the text. -/
theorem joined_foldReversed
    (reversed : List Piece) :
    Piece.joined (foldReversed reversed).1.reverse =
      Piece.joined reversed.reverse := by
  fun_induction foldReversed reversed with
  | case1 => rfl
  | case2 reversed folded hFold _ ih =>
      rw [ih, joined_foldLast? hFold]

theorem joined_foldAll
    (pieces : List Piece) :
    Piece.joined (foldAll pieces).1 =
      Piece.joined pieces := by
  unfold foldAll
  rw [joined_foldReversed, List.reverse_reverse]

end Importance

end LosslessCss

------------------------------------------------------------
-- Spelled Tokens
------------------------------------------------------------

namespace LosslessCss

namespace Token

/-
  Braces and colons are spelled as they are written when a
  tree is rendered.  Other tokens keep their spelling.
-/
def Spelled (t : Token) : Prop :=
  (t.kind = .leftCurly → t.raw = "\x7b") ∧
    (t.kind = .rightCurly → t.raw = "\x7d") ∧
    (t.kind = .colon → t.raw = ":")

theorem Spelled.raw_leftCurly
    {t : Token}
    (hSpelled : t.Spelled)
    (hLeft : Grammar.isLeftCurly t = true) :
    t.raw = "\x7b" :=
  hSpelled.1 (Grammar.isLeftCurly_iff_kind.mp hLeft)

theorem Spelled.raw_rightCurly
    {t : Token}
    (hSpelled : t.Spelled)
    (hRight : Grammar.isRightCurly t = true) :
    t.raw = "\x7d" :=
  hSpelled.2.1 (Grammar.isRightCurly_iff_kind.mp hRight)

end Token

end LosslessCss

------------------------------------------------------------
-- Texts of Forms
------------------------------------------------------------

namespace LosslessCss

namespace Form

theorem Chunks.rawText_eq
    {opens : Token → Option Opener}
    {p : Token → Bool}
    {ts : List Token}
    {chunks : List Chunk}
    (hForm : Chunks opens p ts chunks) :
    Chunk.rawText chunks = Token.rawText ts := by
  induction hForm with
  | nil => rfl
  | token _ _ _ ih =>
      simp [Chunk.rawText, Token.rawText, ih]
  | span _ _ _ _ ih =>
      simp [Chunk.rawText, Token.rawText, ih,
        String.append_assoc]

theorem Fragment.joined_eq
    {ends : Token → Bool}
    {ts rest : List Token}
    {pieces : List Piece}
    (hForm : Fragment ends ts rest pieces) :
    Piece.joined pieces = Token.rawText ts := by
  rcases hForm with
    ⟨leading, body, chunks, hParts, _, _, hBody, _, hPieces⟩
  rw [hPieces, hParts, Grammar.joined_arrangeFragment,
    hBody.rawText_eq, Token.rawText_append]

theorem Address.text_eq
    {ts : List Token}
    {address : Piece}
    (hForm : Address ts address) :
    address.text = Token.rawText ts := by
  cases hForm with
  | token _ => simp [Piece.text, Token.rawText]
  | call _ _ => simp [Piece.text, Token.rawText]

theorem Alias.joined_eq
    {ts : List Token}
    {pieces : List Piece}
    (hForm : Alias ts pieces) :
    Piece.joined pieces = Token.rawText ts := by
  cases hForm with
  | absent _ => simp [Piece.joined]
  | present _ _ _ =>
      simp [Piece.joined, Piece.text, Token.rawText,
        String.append_assoc]

/- The value of a statement holds all that follows it. -/
theorem Statement.joined_eq
    {name : StatementRule}
    {ts rest : List Token}
    {pieces : List Piece}
    (hForm : Statement name ts rest pieces) :
    Piece.joined pieces = Token.rawText ts := by
  cases hForm with
  | charsetRule _ _ _ _ =>
      simp [Piece.joined, Piece.text, Token.rawText,
        String.append_assoc]
  | importRule _ hUrl hConditions _ =>
      simp [Piece.joined_foldl_push, Piece.joined,
        hUrl.text_eq, hConditions.joined_eq,
        String.append_assoc]
  | namespaceRule hName hUrl _ _ =>
      simp [hName.joined_eq, hUrl.text_eq,
        String.append_assoc]

theorem Declaration.render_eq
    {ts : List Token}
    {leaf : Leaf}
    (hForm : Declaration ts leaf)
    (hSpelled : ∀ t ∈ ts, t.Spelled) :
    leaf.render = Token.rawText ts := by
  cases hForm with
  | @intro property colon between value chunks
      _ _ hColon hValue =>
      have hMark : colon.raw = ":" :=
        (hSpelled colon (by simp)).2.2 hColon
      simp [Leaf.render, Importance.joined_foldAll,
        Grammar.joined_arrangeValue, hValue.rawText_eq,
        Token.rawText, hMark, String.append_assoc]

/- An item without children is written as its tokens. -/
theorem Flat.render_eq
    {ts rest : List Token}
    {leaf : Leaf}
    (hForm : Flat ts rest leaf)
    (hSpelled : ∀ t ∈ ts, t.Spelled) :
    leaf.render = Token.rawText ts := by
  cases hForm with
  | comment _ => simp [Leaf.render, Token.rawText]
  | statement hKeyword hValue =>
      simp [Leaf.render, Token.rawText, hKeyword.2,
        hValue.joined_eq]
  | declaration _ _ hContent =>
      exact hContent.render_eq hSpelled

/- An opening is written as its tokens, brace included. -/
theorem Opens.render_eq
    {ts : List Token}
    {opening : Opening}
    (hForm : Opens ts opening)
    (hSpelled : ∀ t ∈ ts, t.Spelled) :
    opening.render = Token.rawText ts := by
  cases hForm with
  | @rule _ left _ _ _ hSelectors hLeft =>
      have hBrace :=
        (hSpelled left (by simp)).raw_leftCurly hLeft
      simp [Opening.render, Token.rawText, hBrace,
        Grammar.joined_arrangeSelectors,
        hSelectors.rawText_eq]
  | @atRule _ left _ _ _ hKeyword hParameters hLeft =>
      have hBrace :=
        (hSpelled left (by simp)).raw_leftCurly hLeft
      simp [Opening.render, Token.rawText, hBrace,
        hKeyword.2, hParameters.joined_eq,
        String.append_assoc]

/- What opens with a brace is closed with one. -/
theorem Opens.close_eq
    {ts : List Token}
    {opening : Opening}
    (hForm : Opens ts opening) :
    opening.close = "\x7d" := by
  cases hForm with
  | rule _ _ _ _ => rfl
  | atRule _ _ _ => rfl

end Form

end LosslessCss

------------------------------------------------------------
-- Texts of Items
------------------------------------------------------------

namespace LosslessCss

namespace Block

/- The text of a block, without what encloses it. -/
def render (block : Block) : String :=
  Node.renderAll block.children ++ block.after

@[simp] theorem render_cons
    (block : Block)
    (node : Node) :
    (block.cons node).render =
      node.render ++ block.render := by
  simp [Block.cons, render, Node.renderAll,
    String.append_assoc]

@[simp] theorem render_toNode
    (block : Block)
    (opening : Opening)
    (location : Location)
    (before : String) :
    (block.toNode opening location before).render =
      before ++ opening.render ++ block.render ++
        opening.close := by
  simp [toNode, Node.render, render, String.append_assoc]

end Block

namespace Node

@[simp] theorem render_withBefore
    (node : Node)
    (before : String)
    (hBare : node.before = "") :
    (node.withBefore before).render =
      before ++ node.render := by
  cases node with
  | leaf _ _ _ =>
      simp only [Node.before] at hBare
      simp [withBefore, render, hBare]
  | block _ _ _ _ _ =>
      simp only [Node.before] at hBare
      simp [withBefore, render, hBare, String.append_assoc]

end Node

namespace Form

/- A list of items is written as its tokens. -/
theorem Items.render_eq
    {before : String}
    {ts rest : List Token}
    {block : Block}
    (hForm : Items before ts rest block)
    (hSpelled : ∀ t ∈ ts, t.Spelled) :
    block.render = before ++ Token.rawText ts := by
  induction hForm with
  | done => simp [Block.render, Node.renderAll, Token.rawText]
  | separator _ _ ih =>
      rw [ih fun t hMem => hSpelled t (by simp [hMem])]
      simp [Token.rawText, String.append_assoc]
  | flat hItem _ ih =>
      have hHead :=
        hItem.render_eq fun t hMem =>
          hSpelled t (by simp [hMem])
      have hTail :=
        ih fun t hMem => hSpelled t (by simp [hMem])
      simp [Node.render, hHead, hTail, String.append_assoc]
  | @block before head body ts rest right opening inner block
      hHead _ _ hRight _ ihBody ihTail =>
      have hOpening :=
        hHead.render_eq fun t hMem =>
          hSpelled t (by simp [hMem])
      have hInner :=
        ihBody fun t hMem => hSpelled t (by simp [hMem])
      have hTail :=
        ihTail fun t hMem => hSpelled t (by simp [hMem])
      have hBrace :=
        (hSpelled right (by simp)).raw_rightCurly hRight
      simp [hOpening, hInner, hTail, hHead.close_eq, hBrace,
        Token.rawText, String.append_assoc]

/- One item is written as its tokens. -/
theorem Item.render_eq
    {ts rest : List Token}
    {node : Node}
    (hForm : Item ts rest node)
    (hSpelled : ∀ t ∈ ts, t.Spelled) :
    node.render = Token.rawText ts := by
  cases hForm with
  | flat hItem =>
      simp [Node.render, hItem.render_eq hSpelled]
  | @block head body rest right opening inner
      hHead hBody hRight =>
      have hOpening :=
        hHead.render_eq fun t hMem =>
          hSpelled t (by simp [hMem])
      have hInner :=
        hBody.render_eq fun t hMem =>
          hSpelled t (by simp [hMem])
      have hBrace :=
        (hSpelled right (by simp)).raw_rightCurly hRight
      simp [hOpening, hInner, hHead.close_eq, hBrace,
        Token.rawText, String.append_assoc]

theorem Item.before_eq
    {ts rest : List Token}
    {node : Node}
    (hForm : Item ts rest node) :
    node.before = "" := by
  cases hForm with
  | flat _ => rfl
  | block _ _ _ => rfl

/- A whole input is written as its tokens. -/
theorem Whole.render_eq
    {ts : List Token}
    {block : Block}
    (hForm : Whole ts block)
    (hSpelled : ∀ t ∈ ts, t.Spelled) :
    block.render = Token.rawText ts := by
  cases hForm with
  | items hItems =>
      rw [hItems.render_eq hSpelled, String.empty_append]
  | @single before item after node _ hItem _ =>
      have hNode :=
        hItem.render_eq fun t hMem =>
          hSpelled t (by simp [hMem])
      simp [Block.render, Node.renderAll, hItem.before_eq,
        hNode, String.append_assoc]

end Form

end LosslessCss
