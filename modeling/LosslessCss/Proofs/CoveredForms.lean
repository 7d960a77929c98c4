import LosslessCss.Proofs.Acceptance
import LosslessCss.Proofs.Segments

/-
  The tokens that are covered by the segments of a tree.

  Whatever the form of some tokens, the segments of their
  tree cover them, one after another.  The text of a
  fragment, a function in a value and a selector are each in
  one segment as a whole.

  Key definitions include:
    * `Form.fragmentPieces`
    * `SelectorDraft.Holds`
    * `SelectorDraft.GoesOn`

  Key theorems include:
    * `Form.fragment_iff`
    * `Importance.exists_of_foldAll`
    * `SelectorDraft.goesOn`
    * `Form.Items.covers`
-/

------------------------------------------------------------
-- Fragments
------------------------------------------------------------

namespace LosslessCss

open Grammar

open Segment (Covers Joins)

namespace Form

theorem Chunks.append
    {opens : Token → Option Opener}
    {p : Token → Bool}
    {ts us : List Token}
    {chunks others : List Chunk}
    (hFirst : Chunks opens p ts chunks)
    (hSecond : Chunks opens p us others) :
    Chunks opens p (ts ++ us) (chunks ++ others) := by
  induction hFirst with
  | nil => exact hSecond
  | token hOpens hTest _ ih => exact .token hOpens hTest ih
  | span hOpens hTest hBody _ ih =>
      rw [List.cons_append, List.append_assoc]
      exact .span hOpens hTest hBody ih

/- The tokens can be cut where the chunks are. -/
theorem Chunks.exists_append
    {opens : Token → Option Opener}
    {p : Token → Bool}
    {ts : List Token}
    {chunks others : List Chunk}
    (hForm : Chunks opens p ts (chunks ++ others)) :
    ∃ us vs, ts = us ++ vs ∧ Chunks opens p us chunks ∧
      Chunks opens p vs others := by
  induction chunks generalizing ts with
  | nil => exact ⟨[], ts, rfl, .nil, hForm⟩
  | cons chunk chunks ih =>
      cases hForm with
      | token hOpens hTest hRest =>
          rcases ih hRest with ⟨us, vs, rfl, hFirst, hSecond⟩
          exact
            ⟨_ :: us, vs, rfl, .token hOpens hTest hFirst,
              hSecond⟩
      | @span t _ body _ _ hOpens hTest hBody hRest =>
          rcases ih hRest with ⟨us, vs, rfl, hFirst, hSecond⟩
          exact
            ⟨t :: (body ++ us), vs, by simp,
              .span hOpens hTest hBody hFirst, hSecond⟩

/- Chunks that are formatting are single tokens. -/
theorem Chunks.fillers
    {p : Token → Bool}
    {ts : List Token}
    {chunks : List Chunk}
    (hForm : Chunks opens? p ts chunks)
    (hAll : ∀ chunk ∈ chunks, chunk.isFiller = true) :
    Fillers ts ∧ ∀ t ∈ ts, p t = true := by
  induction hForm with
  | nil => exact ⟨by simp [Fillers], by simp⟩
  | token _ hTest _ ih =>
      rcases List.forall_mem_cons.mp hAll with
        ⟨hFirst, hOthers⟩
      rcases ih hOthers with ⟨hFillers, hTests⟩
      exact
        ⟨List.forall_mem_cons.mpr ⟨hFirst, hFillers⟩,
          List.forall_mem_cons.mpr ⟨hTest, hTests⟩⟩
  | span hOpens _ _ _ _ =>
      have hFirst := hAll _ (List.mem_cons_self ..)
      rw [Sheet.opens?_of_isFiller hFirst] at hOpens
      cases hOpens

/- Formatting is a chunk for each token. -/
theorem chunks_of_fillers
    {p : Token → Bool}
    {ts : List Token}
    (hFillers : Fillers ts)
    (hTests : ∀ t ∈ ts, p t = true) :
    Chunks opens? p ts (ts.map fun t => ⟨t, t.raw⟩) := by
  induction ts with
  | nil => exact .nil
  | cons t ts ih =>
      rcases List.forall_mem_cons.mp hFillers with
        ⟨hFirst, hOthers⟩
      rcases List.forall_mem_cons.mp hTests with
        ⟨hTest, hRest⟩
      exact
        .token (Sheet.opens?_of_isFiller hFirst) hTest
          (ih hOthers hRest)

/-
  The pieces of a fragment whose text has formatting in front
  of it and behind it.
-/
def fragmentPieces
    (leading core trail : List Token) : List Piece :=
  let front := Piece.pushFiller [] (Token.rawText leading)
  let middle :=
    if Token.rawText core = "" then
      front
    else
      front ++ [.value (Token.rawText core)]
  Piece.pushFiller middle (Token.rawText trail)

/- Formatting behind chunks is split off again. -/
theorem arrangeFragment_append
    {chunks fillers : List Chunk}
    (hLast :
      ∀ chunk ∈ chunks.getLast?, chunk.isFiller = false)
    (hFillers : ∀ chunk ∈ fillers, chunk.isFiller = true) :
    trimFiller (chunks ++ fillers) = chunks ∧
      trailingFiller (chunks ++ fillers) = fillers := by
  have hBack : ∀ chunk ∈ fillers.reverse,
      chunk.isFiller = true :=
    fun chunk hMem => hFillers chunk (List.mem_reverse.mp hMem)
  unfold trimFiller trailingFiller
  rw [List.reverse_append,
    List.dropWhile_append_of_pos hBack,
    List.takeWhile_append_of_pos hBack]
  rw [← List.head?_reverse] at hLast
  cases hChunks : chunks.reverse with
  | nil =>
      rw [List.reverse_eq_nil_iff] at hChunks
      simp [hChunks]
  | cons chunk others =>
      rw [hChunks] at hLast
      have hNone : chunk.isFiller = false := hLast chunk rfl
      rw [List.takeWhile_cons_of_neg (by simp [hNone]),
        List.dropWhile_cons_of_neg (by simp [hNone]),
        ← hChunks]
      simp

/-
  A fragment is formatting, chunks of which the first and the
  last are none, and formatting again.
-/
theorem fragment_iff
    {ends : Token → Bool}
    {ts rest : List Token}
    {pieces : List Piece} :
    Fragment ends ts rest pieces ↔
      ∃ leading core trail chunks,
        ts = leading ++ (core ++ trail) ∧
          Fillers leading ∧
          Chunks opens? (fun t => !ends t) core chunks ∧
          (∀ chunk ∈ chunks.getLast?,
            chunk.isFiller = false) ∧
          Fillers trail ∧ (∀ t ∈ trail, (!ends t) = true) ∧
          Token.Stops Token.isFiller
            (core ++ trail ++ rest) ∧
          Token.Stops (fun t => !ends t) rest ∧
          pieces = fragmentPieces leading core trail := by
  constructor
  · rintro
      ⟨leading, body, chunks, rfl, hLeading, hStart, hBody,
        hEnds, rfl⟩
    have hParts :
        trimFiller chunks ++ trailingFiller chunks =
          chunks := by
      unfold trimFiller trailingFiller
      rw [← List.reverse_append,
        List.takeWhile_append_dropWhile,
        List.reverse_reverse]
    rw [← hParts] at hBody
    rcases hBody.exists_append with
      ⟨core, trail, rfl, hCore, hTrail⟩
    have hFillers :
        ∀ chunk ∈ trailingFiller chunks,
          chunk.isFiller = true := by
      intro chunk hMem
      unfold trailingFiller at hMem
      rw [List.mem_reverse] at hMem
      exact List.mem_takeWhile_imp hMem
    rcases hTrail.fillers hFillers with ⟨hAll, hTests⟩
    refine
      ⟨leading, core, trail, _, rfl, hLeading, hCore, ?_,
        hAll, hTests, hStart, hEnds, ?_⟩
    · intro chunk hMem
      unfold trimFiller at hMem
      rw [List.getLast?_reverse] at hMem
      have hNot :=
        List.head?_dropWhile_not Chunk.isFiller chunks.reverse
      rw [Option.mem_def.mp hMem] at hNot
      exact hNot
    · unfold arrangeFragment fragmentPieces
      rw [hCore.rawText_eq, hTrail.rawText_eq]
  · rintro
      ⟨leading, core, trail, chunks, rfl, hLeading, hCore,
        hLast, hTrail, hTests, hStart, hEnds, rfl⟩
    have hTrailForm := chunks_of_fillers hTrail hTests
    have hFillers :
        ∀ chunk ∈ trail.map fun t => (⟨t, t.raw⟩ : Chunk),
          chunk.isFiller = true := by
      intro chunk hMem
      rcases List.mem_map.mp hMem with ⟨t, hToken, rfl⟩
      exact hTrail t hToken
    rcases arrangeFragment_append hLast hFillers with
      ⟨hTrim, hTrailing⟩
    refine
      ⟨leading, core ++ trail, _, rfl, hLeading, hStart,
        hCore.append hTrailForm, hEnds, ?_⟩
    unfold arrangeFragment fragmentPieces
    rw [hTrim, hTrailing, hCore.rawText_eq,
      hTrailForm.rawText_eq]

section Fragments

variable {leading core trail : List Token}

theorem covers_fragmentPieces
    (hRaw : ∀ t ∈ leading ++ (core ++ trail), t.raw ≠ "") :
    Covers
      (Piece.segments (fragmentPieces leading core trail))
      (leading ++ (core ++ trail)) := by
  rw [List.forall_mem_append, List.forall_mem_append] at hRaw
  have hNone : Covers (Piece.segments []) [] := .nil
  have hFront := Piece.covers_pushFiller hRaw.1 hNone
  unfold fragmentPieces
  simp only
  rw [← List.append_assoc]
  apply Piece.covers_pushFiller hRaw.2.2
  split
  · rename_i hText
    rw [Token.eq_nil_of_rawText hRaw.2.1 hText,
      List.append_nil]
    exact hFront
  · rw [Piece.segments_append]
    exact hFront.append (Piece.covers_singleton rfl)

/- The text of a fragment belongs together. -/
theorem joins_fragmentPieces
    {left right : List Token}
    (hRaw :
      ∀ t ∈ leading ++ (left ++ right ++ trail),
        t.raw ≠ "")
    (hLeft : left ≠ [])
    (hRight : right ≠ []) :
    Joins
      (Piece.segments
        (fragmentPieces leading (left ++ right) trail))
      (leading ++ left) (right ++ trail) := by
  rw [List.forall_mem_append, List.forall_mem_append] at hRaw
  have hNone : Covers (Piece.segments []) [] := .nil
  have hFront := Piece.covers_pushFiller hRaw.1 hNone
  have hText : Token.rawText (left ++ right) ≠ "" := by
    intro hText
    have hEmpty := Token.eq_nil_of_rawText hRaw.2.1 hText
    exact hLeft (List.append_eq_nil_iff.mp hEmpty).1
  unfold fragmentPieces
  simp only
  rw [if_neg hText]
  apply Piece.joins_pushFiller hRaw.2.2
  have hSolid :
      (Piece.value
        (Token.rawText (left ++ right))).isFiller = false :=
    rfl
  have hJoins :=
    Piece.joins_of_solid hSolid rfl hFront hLeft hRight hNone
  rwa [List.append_nil] at hJoins

end Fragments

end Form

end LosslessCss

------------------------------------------------------------
-- Values
------------------------------------------------------------

namespace LosslessCss

open Grammar

open Segment (Covers Joins)

namespace Importance

/- Whether a piece may be folded to formatting. -/
def isFoldable (piece : Piece) : Bool :=
  piece.isFiller || isWord piece || isBang piece

/- The last mark is cut off with the formatting around it. -/
theorem exists_of_foldLast?
    {reversed folded : List Piece}
    (hFold : foldLast? reversed = some folded) :
    ∃ taken rest,
      reversed = taken ++ rest ∧ taken ≠ [] ∧
        (∀ piece ∈ taken, isFoldable piece = true) ∧
        folded =
          .filler (Piece.joined taken.reverse) :: rest := by
  unfold foldLast? at hFold
  simp only at hFold
  split at hFold
  · cases hFold
  rename_i word beforeWord hWord
  split at hFold
  · cases hFold
  rename_i bang beforeBang hBang
  split at hFold
  case isFalse => cases hFold
  rename_i hMark
  rw [Bool.and_eq_true] at hMark
  cases hFold
  have hAll :
      reversed =
        (reversed.takeWhile Piece.isFiller ++
            word :: beforeWord.takeWhile Piece.isFiller ++
            bang :: (takeFiller beforeBang).1) ++
          (takeFiller beforeBang).2 := by
    rw [List.append_assoc, List.cons_append,
      takeFiller_append, ← hBang, List.append_assoc,
      List.cons_append, List.takeWhile_append_dropWhile,
      ← hWord, List.takeWhile_append_dropWhile]
  refine ⟨_, _, hAll, by simp, ?_, rfl⟩
  have hFillers :
      ∀ ps : List Piece,
        ∀ piece ∈ ps.takeWhile Piece.isFiller,
          isFoldable piece = true := by
    intro ps piece hMem
    simp [isFoldable, List.mem_takeWhile_imp hMem]
  have hOuter :
      ∀ piece ∈ (takeFiller beforeBang).1,
        isFoldable piece = true := by
    unfold takeFiller
    split
    · simp [isFoldable, Piece.isFiller]
    · simp
  intro piece hMem
  simp only [List.mem_append, List.mem_cons] at hMem
  rcases hMem with (hMem | rfl | hMem) | rfl | hMem
  · exact hFillers _ piece hMem
  · simp [isFoldable, hMark.1]
  · exact hFillers _ piece hMem
  · simp [isFoldable, hMark.2]
  · exact hOuter piece hMem

/- All marks at the end are cut off together. -/
theorem exists_of_foldReversed
    (reversed : List Piece) :
    (foldReversed reversed).1 = reversed ∨
      ∃ taken rest,
        reversed = taken ++ rest ∧ taken ≠ [] ∧
          (∀ piece ∈ taken, isFoldable piece = true) ∧
          (foldReversed reversed).1 =
            .filler (Piece.joined taken.reverse) :: rest := by
  fun_induction foldReversed reversed with
  | case1 => exact .inl rfl
  | case2 reversed folded hFold _ ih =>
      rcases exists_of_foldLast? hFold with
        ⟨taken, rest, rfl, hSome, hTaken, rfl⟩
      refine .inr ?_
      rcases ih with
        hSame | ⟨others, last, hParts, hMore, hOthers, hSame⟩
      · exact ⟨taken, rest, rfl, hSome, hTaken, hSame⟩
      · -- The piece that was folded is folded once more.
        cases others with
        | nil => exact absurd rfl hMore
        | cons other others =>
            rcases List.cons.inj hParts with ⟨rfl, rfl⟩
            refine
              ⟨taken ++ others, last, by simp, by simp [hSome],
                ?_, ?_⟩
            · exact
                List.forall_mem_append.mpr
                  ⟨hTaken,
                    (List.forall_mem_cons.mp hOthers).2⟩
            · rw [hSame]
              simp [Piece.text]

/- Folding merges the last pieces, or changes nothing. -/
theorem exists_of_foldAll
    (pieces : List Piece) :
    (foldAll pieces).1 = pieces ∨
      ∃ rest taken,
        pieces = rest ++ taken ∧
          (∀ piece ∈ taken, isFoldable piece = true) ∧
          (foldAll pieces).1 =
            rest ++ [.filler (Piece.joined taken)] := by
  unfold foldAll
  simp only
  rcases exists_of_foldReversed pieces.reverse with
    hSame | ⟨taken, rest, hParts, _, hTaken, hSame⟩
  · rw [hSame, List.reverse_reverse]
    exact .inl rfl
  · refine .inr ⟨rest.reverse, taken.reverse, ?_, ?_, ?_⟩
    · rw [← List.reverse_append, ← hParts,
        List.reverse_reverse]
    · intro piece hMem
      exact hTaken piece (List.mem_reverse.mp hMem)
    · rw [hSame, List.reverse_cons]

theorem covers_foldAll
    {pieces : List Piece}
    {ts : List Token}
    (hCovers : Covers (Piece.segments pieces) ts) :
    Covers (Piece.segments (foldAll pieces).1) ts := by
  rcases exists_of_foldAll pieces with
    hSame | ⟨rest, taken, rfl, _, hSame⟩
  · rw [hSame]
    exact hCovers
  · rw [Piece.segments_append] at hCovers
    rcases hCovers.exists_append with
      ⟨us, vs, rfl, hRest, hTaken⟩
    rw [hSame, Piece.segments_append]
    exact hRest.append (Piece.covers_merged hTaken)

end Importance

namespace Grammar

theorem covers_addToValue
    {pieces : List Piece}
    {chunk : Chunk}
    {ts us : List Token}
    (hRaw : ∀ t ∈ us, t.raw ≠ "")
    (hText : chunk.raw = Token.rawText us)
    (hCovers : Covers (Piece.segments pieces) ts) :
    Covers (Piece.segments (addToValue pieces chunk))
      (ts ++ us) := by
  have hPiece
      {piece : Piece}
      (hPiece : piece.text = chunk.raw) :
      Covers (Piece.segments (pieces ++ [piece]))
        (ts ++ us) := by
    rw [Piece.segments_append]
    exact
      hCovers.append
        (Piece.covers_singleton (hPiece.trans hText))
  unfold addToValue
  split
  · rw [hText]
    exact Piece.covers_pushFiller hRaw hCovers
  · rw [hText]
    exact Piece.covers_pushFiller hRaw hCovers
  · rw [hText]
    exact Piece.covers_pushFiller hRaw hCovers
  · exact hPiece rfl
  · exact hPiece rfl

/- The pieces of a value cover its tokens. -/
theorem covers_foldl_addToValue
    {opens : Token → Option Opener}
    {p : Token → Bool}
    {pieces : List Piece}
    {chunks : List Chunk}
    {ts us : List Token}
    (hForm : Form.Chunks opens p us chunks)
    (hRaw : ∀ t ∈ us, t.raw ≠ "")
    (hCovers : Covers (Piece.segments pieces) ts) :
    Covers (Piece.segments (chunks.foldl addToValue pieces))
      (ts ++ us) := by
  induction hForm generalizing pieces ts with
  | nil =>
      rw [List.append_nil]
      exact hCovers
  | @token t us chunks _ _ _ ih =>
      have hRun : ∀ u ∈ [t], u.raw ≠ "" :=
        fun u hMem => hRaw u (by simp_all)
      have hText :
          (⟨t, t.raw⟩ : Chunk).raw = Token.rawText [t] := by
        simp [Token.rawText]
      rw [List.append_cons]
      exact
        ih (List.forall_mem_cons.mp hRaw).2
          (covers_addToValue hRun hText hCovers)
  | @span t _ body us chunks _ _ _ _ ih =>
      rw [← List.cons_append, List.forall_mem_append] at hRaw
      rw [← List.cons_append, ← List.append_assoc]
      exact
        ih hRaw.2 (covers_addToValue hRaw.1 rfl hCovers)

theorem covers_arrangeValue
    {opens : Token → Option Opener}
    {p : Token → Bool}
    {chunks : List Chunk}
    {ts : List Token}
    (hForm : Form.Chunks opens p ts chunks)
    (hRaw : ∀ t ∈ ts, t.raw ≠ "") :
    Covers (Piece.segments (arrangeValue chunks)) ts := by
  have hNone : Covers (Piece.segments []) [] := .nil
  exact covers_foldl_addToValue hForm hRaw hNone

end Grammar

end LosslessCss

------------------------------------------------------------
-- Selectors
------------------------------------------------------------

namespace LosslessCss

open Grammar

open Segment (Covers Joins)

namespace SelectorDraft

/- A chunk is a comma, formatting or a part of a selector. -/
theorem add_cases
    (draft : SelectorDraft)
    (chunk : Chunk) :
    (chunk.head.kind = .comma ∧
        draft.add chunk = draft.addComma chunk.raw) ∨
      (chunk.isFiller = true ∧
        draft.add chunk = draft.addFiller chunk.raw) ∨
      (chunk.head.kind ≠ .comma ∧ chunk.isFiller = false ∧
        draft.add chunk = draft.addPart chunk.raw) := by
  unfold add Chunk.isFiller Token.isFiller Token.isWhitespace
    Token.isComment
  split <;> simp_all

/-
  The tokens that a draft has taken up behind some finished
  pieces, with those of its parts told apart.
-/
structure Holds
    (draft : SelectorDraft)
    (finished : List Piece)
    (ts slot selector pending : List Token) : Prop where
  settled : draft.Settled
  exists_done :
    ∃ more us,
      draft.done = finished ++ more ∧
        Covers (Piece.segments more) us ∧
        ts = us ++ (slot ++ (selector ++ pending))
  slot_eq : draft.slot = Token.rawText slot
  selector_eq : draft.selector = Token.rawText selector
  pending_eq : draft.pending = Token.rawText pending

/- A chunk is added behind the tokens of a draft. -/
theorem Holds.add
    {draft : SelectorDraft}
    {finished : List Piece}
    {ts slot selector pending run : List Token}
    {chunk : Chunk}
    (hHolds : draft.Holds finished ts slot selector pending)
    (hRun : chunk.raw = Token.rawText run) :
    ∃ slot' selector' pending',
      (draft.add chunk).Holds finished (ts ++ run) slot'
        selector' pending' := by
  rcases hHolds with
    ⟨hSettled, ⟨more, us, hDone, hMore, rfl⟩, hSlot,
      hSelector, hPending⟩
  have hNext := (add_spec draft chunk hSettled).1
  rcases add_cases draft chunk with
    ⟨_, hAdd⟩ | ⟨_, hAdd⟩ | ⟨_, _, hAdd⟩
  · rw [hAdd] at hNext ⊢
    have hSlotPiece :
        Covers (Piece.segments [.filler draft.slot]) slot :=
      Piece.covers_singleton hSlot
    have hSelectorPiece :
        Covers (Piece.segments [.value draft.selector])
          selector :=
      Piece.covers_singleton hSelector
    refine
      ⟨pending ++ run, [], [], hNext,
        ⟨more ++
            [.filler draft.slot, .value draft.selector],
          us ++ (slot ++ selector), ?_, ?_, by simp⟩,
        ?_, rfl, rfl⟩
    · simp [addComma, hDone]
    · rw [Piece.segments_append]
      exact hMore.append (hSlotPiece.append hSelectorPiece)
    · simp [addComma, hPending, hRun]
  · rw [hAdd] at hNext ⊢
    by_cases hEmpty : draft.selector = ""
    · rw [addFiller, if_pos hEmpty] at hNext ⊢
      refine
        ⟨slot ++ (selector ++ pending) ++ run, [], [], hNext,
          ⟨more, us, hDone, hMore, by simp⟩, ?_, hEmpty,
          hSettled hEmpty⟩
      simp [hSlot, hRun, ← hSelector, ← hPending, hEmpty,
        hSettled hEmpty]
    · rw [addFiller, if_neg hEmpty] at hNext ⊢
      refine
        ⟨slot, selector, pending ++ run, hNext,
          ⟨more, us, hDone, hMore, by simp⟩, hSlot,
          hSelector, ?_⟩
      simp [hPending, hRun]
  · rw [hAdd] at hNext ⊢
    refine
      ⟨slot, selector ++ (pending ++ run), [], hNext,
        ⟨more, us, hDone, hMore, by simp⟩, hSlot, ?_, rfl⟩
    simp [addPart, hSelector, hPending, hRun,
      String.append_assoc]

/- Chunks are added behind the tokens of a draft. -/
theorem Holds.foldl_add
    {opens : Token → Option Opener}
    {p : Token → Bool}
    {draft : SelectorDraft}
    {finished : List Piece}
    {ts slot selector pending us : List Token}
    {chunks : List Chunk}
    (hForm : Form.Chunks opens p us chunks)
    (hHolds : draft.Holds finished ts slot selector pending) :
    ∃ slot' selector' pending',
      (chunks.foldl SelectorDraft.add draft).Holds finished
        (ts ++ us) slot' selector' pending' := by
  induction hForm
    generalizing draft ts slot selector pending with
  | nil =>
      rw [List.append_nil]
      exact ⟨slot, selector, pending, hHolds⟩
  | @token t us chunks _ _ _ ih =>
      have hText :
          (⟨t, t.raw⟩ : Chunk).raw = Token.rawText [t] := by
        simp [Token.rawText]
      rcases hHolds.add hText with ⟨_, _, _, hNext⟩
      rw [List.append_cons]
      exact ih hNext
  | @span t _ body us chunks _ _ _ _ ih =>
      have hText :
          (⟨t, t.raw ++ Token.rawText body⟩ : Chunk).raw =
            Token.rawText (t :: body) :=
        rfl
      rcases hHolds.add hText with ⟨_, _, _, hNext⟩
      rw [← List.cons_append, ← List.append_assoc]
      exact ih hNext

/- The pieces of a finished draft cover its tokens. -/
theorem Holds.exists_finish
    {draft : SelectorDraft}
    {finished : List Piece}
    {ts slot selector pending : List Token}
    (hHolds : draft.Holds finished ts slot selector pending) :
    ∃ pieces,
      draft.finish = finished ++ pieces ∧
        Covers (Piece.segments pieces) ts := by
  rcases hHolds with
    ⟨_, ⟨more, us, hDone, hMore, rfl⟩, hSlot, hSelector,
      hPending⟩
  unfold finish
  split
  · rename_i hEmpty
    simp only [Bool.and_eq_true, List.isEmpty_iff,
      decide_eq_true_eq] at hEmpty
    rw [hEmpty.1] at hDone
    rcases List.append_eq_nil_iff.mp hDone.symm with
      ⟨rfl, rfl⟩
    cases hMore
    refine ⟨_, rfl, Piece.covers_singleton ?_⟩
    simp [Piece.text, hSlot, hPending, ← hSelector, hEmpty.2]
  · refine ⟨more ++ _, by rw [hDone, List.append_assoc], ?_⟩
    have hSlotPiece :
        Covers (Piece.segments [.filler draft.slot]) slot :=
      Piece.covers_singleton hSlot
    have hSelectorPiece :
        Covers (Piece.segments [.value draft.selector])
          selector :=
      Piece.covers_singleton hSelector
    have hPendingPiece :
        Covers (Piece.segments [.filler draft.pending])
          pending :=
      Piece.covers_singleton hPending
    rw [Piece.segments_append]
    exact
      hMore.append
        (hSlotPiece.append
          (hSelectorPiece.append hPendingPiece))

/- An empty draft has taken up nothing. -/
theorem holds_empty :
    empty.Holds [] [] [] [] [] :=
  ⟨fun _ => rfl, ⟨[], [], rfl, .nil, rfl⟩, rfl, rfl, rfl⟩

end SelectorDraft

theorem Grammar.covers_arrangeSelectors
    {opens : Token → Option Opener}
    {p : Token → Bool}
    {ts : List Token}
    {chunks : List Chunk}
    (hForm : Form.Chunks opens p ts chunks) :
    Covers (Piece.segments (arrangeSelectors chunks)) ts := by
  rcases SelectorDraft.holds_empty.foldl_add hForm with
    ⟨_, _, _, hHolds⟩
  rcases hHolds.exists_finish with ⟨pieces, hSame, hCovers⟩
  unfold arrangeSelectors
  rw [hSame]
  exact hCovers

namespace SelectorDraft

/-
  The selector of a draft goes on with the first of the given
  tokens, and further pieces cover the others.
-/
def GoesOn
    (draft : SelectorDraft)
    (chunks : List Chunk)
    (ts : List Token) : Prop :=
  ∃ more rest pieces,
    ts = more ++ rest ∧
      (chunks.foldl add draft).finish =
        draft.done ++
          .filler draft.slot ::
            .value (draft.selector ++ Token.rawText more) ::
              pieces ∧
      Covers (Piece.segments pieces) rest

/- A chunk belongs to the selector, or ends it. -/
theorem GoesOn.cons
    {opens : Token → Option Opener}
    {p : Token → Bool}
    {draft : SelectorDraft}
    {chunk : Chunk}
    {chunks : List Chunk}
    {pending run us : List Token}
    (hSelector : draft.selector ≠ "")
    (hPending : draft.pending = Token.rawText pending)
    (hRun : chunk.raw = Token.rawText run)
    (hForm : Form.Chunks opens p us chunks)
    (hNext :
      ∀ {other : SelectorDraft} {behind : List Token},
        other.selector ≠ "" →
          other.pending = Token.rawText behind →
            other.GoesOn chunks (behind ++ us)) :
    draft.GoesOn (chunk :: chunks) (pending ++ (run ++ us)) := by
  unfold GoesOn
  rw [List.foldl_cons]
  rcases add_cases draft chunk with
    ⟨_, hAdd⟩ | ⟨_, hAdd⟩ | ⟨_, _, hAdd⟩
  · -- The selector is finished as it is.
    have hHolds :
        (draft.addComma chunk.raw).Holds
          (draft.done ++
            [.filler draft.slot, .value draft.selector])
          (pending ++ run) (pending ++ run) [] [] := by
      refine
        ⟨fun _ => rfl, ⟨[], [], ?_, .nil, ?_⟩, ?_, rfl, rfl⟩
      · simp [addComma]
      · simp
      · simp [addComma, hPending, hRun]
    rcases hHolds.foldl_add hForm with ⟨_, _, _, hLast⟩
    rcases hLast.exists_finish with ⟨pieces, hSame, hCovers⟩
    rw [hAdd, hSame, ← List.append_assoc]
    exact
      ⟨[], pending ++ run ++ us, pieces, rfl,
        by simp [Token.rawText], hCovers⟩
  · rw [hAdd, addFiller, if_neg hSelector,
      ← List.append_assoc]
    have hBehind :
        draft.pending ++ chunk.raw =
          Token.rawText (pending ++ run) := by
      simp [hPending, hRun]
    exact hNext hSelector hBehind
  · have hLonger :
        (draft.addPart chunk.raw).selector ≠ "" := by
      simp [addPart, hSelector]
    have hNone :
        (draft.addPart chunk.raw).pending =
          Token.rawText [] :=
      rfl
    rcases hNext hLonger hNone with
      ⟨more, rest, pieces, hParts, hSame, hCovers⟩
    rw [List.nil_append] at hParts
    rw [hAdd, hSame]
    refine
      ⟨pending ++ (run ++ more), rest, pieces, ?_, ?_,
        hCovers⟩
    · simp [hParts]
    · simp [addPart, hPending, hRun, String.append_assoc]

/- A selector that has been started is a piece at last. -/
theorem goesOn
    {opens : Token → Option Opener}
    {p : Token → Bool}
    {draft : SelectorDraft}
    {chunks : List Chunk}
    {pending us : List Token}
    (hForm : Form.Chunks opens p us chunks)
    (hSelector : draft.selector ≠ "")
    (hPending : draft.pending = Token.rawText pending) :
    draft.GoesOn chunks (pending ++ us) := by
  induction hForm generalizing draft pending with
  | nil =>
      refine ⟨[], pending, [.filler draft.pending], ?_, ?_, ?_⟩
      · simp
      · simp [finish, hSelector, Token.rawText]
      · exact Piece.covers_singleton hPending
  | @token t us chunks _ _ hRest ih =>
      have hText :
          (⟨t, t.raw⟩ : Chunk).raw = Token.rawText [t] := by
        simp [Token.rawText]
      exact .cons hSelector hPending hText hRest ih
  | @span t _ body us chunks _ _ _ hRest ih =>
      rw [← List.cons_append]
      exact .cons hSelector hPending rfl hRest ih

end SelectorDraft

end LosslessCss

------------------------------------------------------------
-- Forms
------------------------------------------------------------

namespace LosslessCss

open Grammar

open Segment (Covers Joins covers_loose covers_mark)

namespace Form

theorem Fragment.covers
    {ends : Token → Bool}
    {ts rest : List Token}
    {pieces : List Piece}
    (hForm : Fragment ends ts rest pieces)
    (hRaw : ∀ t ∈ ts, t.raw ≠ "") :
    Covers (Piece.segments pieces) ts := by
  rcases fragment_iff.mp hForm with
    ⟨leading, core, trail, _, rfl, _, _, _, _, _, _, _, rfl⟩
  exact covers_fragmentPieces hRaw

theorem Address.covers
    {ts : List Token}
    {address : Piece}
    (hForm : Address ts address) :
    Covers (Piece.segments [address]) ts :=
  Piece.covers_singleton hForm.text_eq

theorem covers_pushFiller_nil
    {ts : List Token}
    (hRaw : ∀ t ∈ ts, t.raw ≠ "") :
    Covers
      (Piece.segments
        (Piece.pushFiller [] (Token.rawText ts)))
      ts := by
  have hNone : Covers (Piece.segments []) [] := .nil
  exact Piece.covers_pushFiller hRaw hNone

theorem Alias.covers
    {ts : List Token}
    {pieces : List Piece}
    (hForm : Alias ts pieces)
    (hRaw : ∀ t ∈ ts, t.raw ≠ "") :
    Covers (Piece.segments pieces) ts := by
  cases hForm with
  | absent _ => exact covers_pushFiller_nil hRaw
  | @present blank inner t _ _ _ =>
      rw [List.append_cons, List.forall_mem_append,
        List.forall_mem_append] at hRaw
      have hName :
          Covers (Piece.segments [.value t.raw]) [t] :=
        Piece.covers_singleton
          (by simp [Piece.text, Token.rawText])
      rw [List.append_cons blank t inner]
      apply Piece.covers_pushFiller hRaw.2
      rw [Piece.segments_append]
      exact (covers_pushFiller_nil hRaw.1.1).append hName

/- The pieces of a statement cover what follows it. -/
theorem Statement.covers
    {name : StatementRule}
    {ts rest : List Token}
    {pieces : List Piece}
    (hForm : Statement name ts rest pieces)
    (hRaw : ∀ t ∈ ts, t.raw ≠ "") :
    Covers (Piece.segments pieces) ts := by
  cases hForm with
  | @charsetRule blank inner mark _ t _ _ _ _ =>
      have hParts :
          blank ++ t :: (inner ++ mark) =
            blank ++ [t] ++ inner ++ mark := by
        simp
      rw [hParts, List.forall_mem_append,
        List.forall_mem_append,
        List.forall_mem_append] at hRaw
      have hName :
          Covers (Piece.segments [.value t.raw]) [t] :=
        Piece.covers_singleton
          (by simp [Piece.text, Token.rawText])
      rw [hParts]
      apply Piece.covers_pushFiller hRaw.2
      apply Piece.covers_pushFiller hRaw.1.2
      rw [Piece.segments_append]
      exact (covers_pushFiller_nil hRaw.1.1.1).append hName
  | @importRule blank url conditions mark _ _ _
      _ hUrl hConditions _ =>
      have hParts :
          blank ++ (url ++ (conditions ++ mark)) =
            blank ++ url ++ conditions ++ mark := by
        simp
      rw [hParts, List.forall_mem_append,
        List.forall_mem_append,
        List.forall_mem_append] at hRaw
      rw [hParts]
      apply Piece.covers_pushFiller hRaw.2
      apply Piece.covers_foldl_push hRaw.1.2
      · rw [Piece.segments_append]
        exact
          (covers_pushFiller_nil hRaw.1.1.1).append
            hUrl.covers
      · exact hConditions.covers hRaw.1.2
  | @namespaceRule name url inner mark _ _ _
      hName hUrl _ _ =>
      have hParts :
          name ++ (url ++ (inner ++ mark)) =
            name ++ url ++ inner ++ mark := by
        simp
      rw [hParts, List.forall_mem_append,
        List.forall_mem_append,
        List.forall_mem_append] at hRaw
      rw [hParts]
      apply Piece.covers_pushFiller hRaw.2
      apply Piece.covers_pushFiller hRaw.1.2
      rw [Piece.segments_append]
      exact (hName.covers hRaw.1.1.1).append hUrl.covers

/- The property of a declaration up to the colon. -/
theorem covers_property
    (property colon : Token)
    (between : List Token) :
    Covers
      [ .loose property.raw, .loose (Token.rawText between),
        .mark ]
      (property :: (between ++ [colon])) := by
  have hProperty :
      Covers [.loose property.raw] [property] := by
    simpa [Token.rawText] using covers_loose [property]
  exact
    hProperty.append
      ((covers_loose between).append (covers_mark colon))

theorem IsKeyword.covers
    {t : Token}
    {word : String}
    (hKeyword : IsKeyword t word) :
    Covers [.loose ("@" ++ word)] [t] := by
  rw [← hKeyword.2]
  simpa [Token.rawText] using covers_loose [t]

theorem Declaration.covers
    {ts : List Token}
    {leaf : Leaf}
    (hForm : Declaration ts leaf)
    (hRaw : ∀ t ∈ ts, t.raw ≠ "") :
    Covers leaf.segments ts := by
  cases hForm with
  | @intro property colon between value chunks _ _ _ hValue =>
      have hRawValue : ∀ t ∈ value, t.raw ≠ "" :=
        fun t hMem => hRaw t (by simp [hMem])
      have hPieces :=
        Importance.covers_foldAll
          (covers_arrangeValue hValue hRawValue)
      rw [List.append_cons between]
      exact
        (covers_property property colon between).append
          hPieces

/- The segments of an item without children cover it. -/
theorem Flat.covers
    {ts rest : List Token}
    {leaf : Leaf}
    (hForm : Flat ts rest leaf)
    (hRaw : ∀ t ∈ ts, t.raw ≠ "") :
    Covers leaf.segments ts := by
  cases hForm with
  | @comment t _ _ =>
      simpa [Leaf.segments, Token.rawText] using
        covers_loose [t]
  | @statement t name ts _ _ hKeyword hValue =>
      exact
        hKeyword.covers.append
          (hValue.covers (List.forall_mem_cons.mp hRaw).2)
  | declaration _ _ hContent => exact hContent.covers hRaw

/- The segments of what opens a block cover it. -/
theorem Opens.covers
    {ts : List Token}
    {opening : Opening}
    (hForm : Opens ts opening)
    (hRaw : ∀ t ∈ ts, t.raw ≠ "") :
    Covers opening.segments ts ∧
      opening.closing = [.mark] := by
  cases hForm with
  | @rule ts left _ _ _ hSelectors _ =>
      exact
        ⟨(covers_arrangeSelectors hSelectors).append
            (covers_mark left),
          rfl⟩
  | @atRule t left name ts _ hKeyword hParameters _ =>
      rw [List.forall_mem_cons, List.forall_mem_append] at hRaw
      exact
        ⟨hKeyword.covers.append
            ((hParameters.covers hRaw.2.1).append
              (covers_mark left)),
          rfl⟩

/-
  The segments of a list of items cover the items, with the
  tokens of the formatting in front of them.
-/
theorem Items.covers
    {before : String}
    {ts rest : List Token}
    {block : Block}
    (hForm : Items before ts rest block)
    (hRaw : ∀ t ∈ ts, t.raw ≠ "")
    {prior : List Token}
    (hPrior : before = Token.rawText prior) :
    Covers block.segments (prior ++ ts) := by
  induction hForm generalizing prior with
  | done =>
      subst hPrior
      rw [List.append_nil]
      exact covers_loose prior
  | @separator _ t _ _ _ _ _ ih =>
      rw [List.append_cons]
      apply ih (List.forall_mem_cons.mp hRaw).2
      simp [hPrior, Token.rawText]
  | @flat _ item ts _ _ block hItem _ ih =>
      subst hPrior
      rcases List.forall_mem_append.mp hRaw with
        ⟨hRawItem, hRawTail⟩
      have hTail : Covers block.segments ([] ++ ts) :=
        ih hRawTail rfl
      rw [Block.segments_cons, ← List.append_assoc]
      exact
        Covers.append
          ((covers_loose prior).append
            (hItem.covers hRawItem))
          hTail
  | @block _ head body ts _ right opening inner block
      hHead _ _ _ _ ihBody ihTail =>
      subst hPrior
      rw [List.forall_mem_append, List.forall_mem_append,
        List.forall_mem_cons] at hRaw
      rcases hHead.covers hRaw.1 with ⟨hOpening, hClosing⟩
      have hBody : Covers inner.segments ([] ++ body) :=
        ihBody hRaw.2.1 rfl
      have hTail : Covers block.segments ([] ++ ts) :=
        ihTail hRaw.2.2.2 rfl
      have hNode :=
        (covers_loose prior).append
          (hOpening.append
            (Covers.append hBody (covers_mark right)))
      have hParts :
          prior ++ (head ++ (body ++ right :: ts)) =
            prior ++ (head ++ (([] ++ body) ++ [right])) ++
              ([] ++ ts) := by
        simp
      rw [Block.segments_cons, Block.segments_toNode,
        hClosing, hParts]
      exact Covers.append hNode hTail

end Form

end LosslessCss
