import LosslessCss.Proofs.ItemLists
import LosslessCss.Proofs.Structure

/-
  Blanks in values, selectors and fragments.

  A place in a run of chunks is between two of them, or in a
  span.  The pieces that the chunks are arranged to have the
  same structure with a blank at that place, unless it is in
  a piece that belongs together.

  Key definitions include:
    * `Form.ChunkPlace`

  Key theorems include:
    * `Form.Chunks.chunkPlace`
    * `Form.Chunks.insert_value`
    * `Form.Chunks.insert_selectors`
    * `Form.Fragment.insert`
-/

------------------------------------------------------------
-- Places in Runs
------------------------------------------------------------

namespace LosslessCss

open Grammar

open Segment (Covers Joins)

/-
  A place in two runs is in the first one, or behind the
  first token of the second one.
-/
theorem Token.place_cases
    {front back ts us : List Token}
    (hParts : front ++ back = ts ++ us) :
    (∃ more, ts = front ++ more ∧ back = more ++ us) ∨
      ∃ t more,
        front = ts ++ t :: more ∧
          us = t :: more ++ back := by
  rcases List.append_eq_append_iff.mp hParts with
    ⟨more, hFirst, hSecond⟩ | ⟨more, hFirst, hSecond⟩
  · exact .inl ⟨more, hFirst, hSecond⟩
  · cases more with
    | nil =>
        refine .inl ⟨[], ?_, ?_⟩
        · rw [hFirst, List.append_nil, List.append_nil]
        · exact hSecond.symm
    | cons t more => exact .inr ⟨t, more, hFirst, hSecond⟩

/-
  A place in three runs is in the first one, between tokens
  of the second one, or behind some token of these two.
-/
theorem Token.place_around
    {front back first middle last : List Token}
    (hParts : front ++ back = first ++ (middle ++ last)) :
    (∃ more,
      first = front ++ more ∧
        back = more ++ (middle ++ last)) ∨
    (∃ left right,
      left ≠ [] ∧ right ≠ [] ∧ middle = left ++ right ∧
        front = first ++ left ∧ back = right ++ last) ∨
    ∃ more,
      middle ++ more ≠ [] ∧
        front = first ++ (middle ++ more) ∧
        last = more ++ back := by
  rcases place_cases hParts with
    hFirst | ⟨t, more, rfl, hInner⟩
  · exact .inl hFirst
  · rcases place_cases hInner.symm with
      ⟨after, rfl, rfl⟩ | ⟨u, after, hFront, rfl⟩
    · cases after with
      | nil => exact .inr (.inr ⟨[], by simp, by simp, rfl⟩)
      | cons u after =>
          exact
            .inr
              (.inl
                ⟨t :: more, u :: after, by simp, by simp,
                  rfl, rfl, rfl⟩)
    · refine .inr (.inr ⟨u :: after, by simp, ?_, rfl⟩)
      rw [hFront]

/- A token can be put anywhere into those of its kind. -/
theorem Token.forall_insert
    {p : Token → Bool}
    {t : Token}
    {front back : List Token}
    (hTest : p t = true)
    (hAll : ∀ u ∈ front ++ back, p u = true) :
    ∀ u ∈ front ++ t :: back, p u = true := by
  rw [List.forall_mem_append] at hAll
  rw [List.forall_mem_append, List.forall_mem_cons]
  exact ⟨hAll.1, hTest, hAll.2⟩

/- The first token stays if there is one. -/
theorem Token.startsLike_of_ne_nil
    {front ts us : List Token}
    (hSome : front ≠ []) :
    StartsLike (front ++ ts) (front ++ us) := by
  cases front with
  | nil => exact absurd rfl hSome
  | cons t front => exact startsLike_cons

namespace Form

/-
  A place in a run of chunks, which is between two chunks, or
  between two tokens of a span.
-/
inductive ChunkPlace
    (opens : Token → Option Opener)
    (p : Token → Bool) :
    List Token → List Token → List Chunk → Prop where
  | between
      {front back : List Token}
      {cs ds : List Chunk}
      (hFront : Chunks opens p front cs)
      (hBack : Chunks opens p back ds) :
      ChunkPlace opens p front back (cs ++ ds)
  | inside
      {first left right last : List Token}
      {cs ds : List Chunk}
      {chunk : Chunk}
      {opener : Opener}
      (hOpens : opens chunk.head = some opener)
      (hText : chunk.raw = Token.rawText (left ++ right))
      (hLeft : left ≠ [])
      (hRight : right ≠ [])
      (hFirst : Chunks opens p first cs)
      (hLast : Chunks opens p last ds) :
      ChunkPlace opens p (first ++ left) (right ++ last)
        (cs ++ chunk :: ds)

theorem ChunkPlace.append_left
    {opens : Token → Option Opener}
    {p : Token → Bool}
    {ts front back : List Token}
    {cs ds : List Chunk}
    (hPlace : ChunkPlace opens p front back ds)
    (hForm : Chunks opens p ts cs) :
    ChunkPlace opens p (ts ++ front) back (cs ++ ds) := by
  cases hPlace with
  | between hFront hBack =>
      rw [← List.append_assoc]
      exact .between (hForm.append hFront) hBack
  | inside hOpens hText hLeft hRight hFirst hLast =>
      rw [← List.append_assoc, ← List.append_assoc]
      exact
        .inside hOpens hText hLeft hRight
          (hForm.append hFirst) hLast

theorem Chunks.chunkPlace
    {opens : Token → Option Opener}
    {p : Token → Bool}
    {ts front back : List Token}
    {chunks : List Chunk}
    (hForm : Chunks opens p ts chunks)
    (hParts : front ++ back = ts) :
    ChunkPlace opens p front back chunks := by
  induction hForm generalizing front with
  | nil =>
      rcases List.append_eq_nil_iff.mp hParts with
        ⟨rfl, rfl⟩
      exact .between .nil .nil
  | @token t ts chunks hOpens hTest hRest ih =>
      cases front with
      | nil =>
          rw [List.nil_append] at hParts
          subst hParts
          exact .between .nil (.token hOpens hTest hRest)
      | cons u front =>
          rcases List.cons.inj hParts with ⟨rfl, hTail⟩
          exact
            (ih hTail).append_left (.token hOpens hTest .nil)
  | @span t opener body ts chunks hOpens hTest hBody hRest
      ih =>
      have hSpan :
          Chunks opens p (t :: (body ++ []))
            [⟨t, t.raw ++ Token.rawText body⟩] :=
        .span hOpens hTest hBody .nil
      rw [List.append_nil] at hSpan
      cases front with
      | nil =>
          rw [List.nil_append] at hParts
          subst hParts
          exact
            .between .nil (.span hOpens hTest hBody hRest)
      | cons u front =>
          rcases List.cons.inj hParts with ⟨rfl, hTail⟩
          rcases Token.place_cases hTail with
            ⟨more, rfl, rfl⟩ | ⟨v, more, rfl, rfl⟩
          · by_cases hMore : more = []
            · subst hMore
              rw [List.append_nil] at hSpan ⊢
              exact .between hSpan hRest
            · exact
                @ChunkPlace.inside _ _ [] (u :: front) more
                  _ [] chunks _ opener hOpens rfl (by simp)
                  hMore .nil hRest
          · exact (ih rfl).append_left hSpan

end Form

end LosslessCss

------------------------------------------------------------
-- Blanks in Values
------------------------------------------------------------

namespace LosslessCss

open Grammar

open Segment (Covers Joins)

namespace Grammar

theorem addToValue_append_solid
    {piece : Piece}
    (hSolid : piece.isFiller = false)
    (before after : List Piece)
    (chunk : Chunk) :
    addToValue (before ++ piece :: after) chunk =
      before ++ piece :: addToValue after chunk := by
  unfold addToValue
  split <;>
    simp [Piece.pushFiller_append_solid hSolid]

theorem foldl_addToValue_append_solid
    {piece : Piece}
    (hSolid : piece.isFiller = false)
    (before after : List Piece)
    (chunks : List Chunk) :
    chunks.foldl addToValue (before ++ piece :: after) =
      before ++ piece :: chunks.foldl addToValue after := by
  induction chunks generalizing after with
  | nil => rfl
  | cons chunk chunks ih =>
      rw [List.foldl_cons, addToValue_append_solid hSolid, ih]
      rfl

end Grammar

namespace Importance

/- A piece that is not folded stays where it is. -/
theorem joins_foldAll
    {before after : List Piece}
    {piece : Piece}
    {first left right last : List Token}
    (hSolid : piece.isFiller = false)
    (hFixed : isFoldable piece = false)
    (hText : piece.text = Token.rawText (left ++ right))
    (hBefore : Covers (Piece.segments before) first)
    (hLeft : left ≠ [])
    (hRight : right ≠ [])
    (hAfter : Covers (Piece.segments after) last) :
    Joins
      (Piece.segments (foldAll (before ++ piece :: after)).1)
      (first ++ left) (right ++ last) := by
  rcases exists_of_foldAll (before ++ piece :: after) with
    hSame | ⟨rest, taken, hParts, hTaken, hSame⟩
  · rw [hSame]
    exact
      Piece.joins_of_solid hSolid hText hBefore hLeft hRight
        hAfter
  · have hNot : piece ∉ taken := by
      intro hMem
      rw [hTaken piece hMem] at hFixed
      cases hFixed
    rcases List.append_eq_append_iff.mp hParts with
      ⟨more, hRest, hOthers⟩ | ⟨more, _, hOthers⟩
    · cases more with
      | nil =>
          rw [List.nil_append] at hOthers
          exact absurd (by simp [← hOthers]) hNot
      | cons other more =>
          rw [List.cons_append] at hOthers
          rcases List.cons.inj hOthers with ⟨rfl, rfl⟩
          rw [Piece.segments_append] at hAfter
          rcases hAfter.exists_append with
            ⟨us, vs, rfl, hMore, hMerged⟩
          have hLast :=
            hMore.append (Piece.covers_merged hMerged)
          rw [← Piece.segments_append] at hLast
          rw [hSame, hRest, List.append_assoc,
            List.cons_append]
          exact
            Piece.joins_of_solid hSolid hText hBefore hLeft
              hRight hLast
    · exact absurd (by simp [hOthers]) hNot

end Importance

namespace Form

/- A blank between two chunks of a value does not count. -/
theorem Chunks.insert_value
    {blank : Token}
    {front back : List Token}
    {chunks : List Chunk}
    (hBlank : blank.kind = .whitespace)
    (hForm :
      Chunks opensFunction? (fun _ => true) (front ++ back)
        chunks)
    (hRaw : ∀ t ∈ front ++ back, t.raw ≠ "")
    (hApart :
      ¬ Joins
        (Piece.segments
          (Importance.foldAll (arrangeValue chunks)).1)
        front back) :
    ∃ chunks',
      Chunks opensFunction? (fun _ => true)
        (front ++ blank :: back) chunks' ∧
      Piece.solids
          (Importance.foldAll (arrangeValue chunks')).1 =
        Piece.solids
          (Importance.foldAll (arrangeValue chunks)).1 ∧
      (Importance.foldAll (arrangeValue chunks')).2 =
        (Importance.foldAll (arrangeValue chunks)).2 := by
  cases hForm.chunkPlace rfl with
  | @between _ _ cs ds hFront hBack =>
      have hNone : opensFunction? blank = none := by
        simp [opensFunction?, hBlank]
      exact
        ⟨_, hFront.append (.token hNone rfl hBack),
          Importance.foldAll_congr
            (solids_arrangeValue_insert hBlank cs ds)⟩
  | @inside first left right last cs ds chunk opener
      hOpens hText hLeft hRight hFirst hLast =>
      refine absurd ?_ hApart
      have hRawFirst : ∀ t ∈ first, t.raw ≠ "" :=
        fun t hMem => hRaw t (by simp [hMem])
      have hRawLast : ∀ t ∈ last, t.raw ≠ "" :=
        fun t hMem => hRaw t (by simp [hMem])
      have hNone : Covers (Piece.segments []) [] := .nil
      have hFunction :
          ∀ ps : List Piece,
            addToValue ps chunk =
              ps ++ [.function chunk.raw] := by
        intro ps
        unfold opensFunction? at hOpens
        unfold addToValue
        split at hOpens <;> simp_all
      have hSolid :
          (Piece.function chunk.raw).isFiller = false :=
        rfl
      unfold arrangeValue
      rw [List.foldl_append, List.foldl_cons, hFunction,
        foldl_addToValue_append_solid hSolid]
      exact
        Importance.joins_foldAll hSolid rfl hText
          (covers_arrangeValue hFirst hRawFirst) hLeft hRight
          (covers_foldl_addToValue hLast hRawLast hNone)

end Form

end LosslessCss

------------------------------------------------------------
-- Blanks in Selectors
------------------------------------------------------------

namespace LosslessCss

open Grammar

open Segment (Covers Joins)

namespace SelectorDraft

/-
  The tokens of a selector up to a part belong together, and
  the place may be in front of the part or inside of it.
-/
theorem joins_of_part
    {opens : Token → Option Opener}
    {p : Token → Bool}
    {draft part : SelectorDraft}
    {ts slot selector pending left right us : List Token}
    {chunks : List Chunk}
    (hHolds : draft.Holds [] ts slot selector pending)
    (hForm : Form.Chunks opens p us chunks)
    (hPart :
      part =
        { draft with
          selector :=
            draft.selector ++ draft.pending ++
              Token.rawText (left ++ right)
          pending := "" })
    (hSome : part.selector ≠ "")
    (hLeft : selector ++ (pending ++ left) ≠ [])
    (hRight : right ≠ []) :
    Joins
      (Piece.segments (chunks.foldl add part).finish)
      (ts ++ left) (right ++ us) := by
  rcases hHolds with
    ⟨_, ⟨done, vs, hDone, hCovers, rfl⟩, hSlot, hSelector,
      hPending⟩
  have hNone : part.pending = Token.rawText [] := by
    rw [hPart]
    rfl
  rcases goesOn hForm hSome hNone with
    ⟨more, rest, pieces, hParts, hSame, hRest⟩
  rw [List.nil_append] at hParts
  have hSlotPiece :
      Covers (Piece.segments [.filler draft.slot]) slot :=
    Piece.covers_singleton hSlot
  have hBefore :
      Covers
        (Piece.segments (done ++ [.filler draft.slot]))
        (vs ++ slot) := by
    rw [Piece.segments_append]
    exact hCovers.append hSlotPiece
  have hSolid :
      (Piece.value
          (part.selector ++ Token.rawText more)).isFiller =
        false :=
    rfl
  have hText :
      (Piece.value
          (part.selector ++ Token.rawText more)).text =
        Token.rawText
          (selector ++ (pending ++ left) ++
            (right ++ more)) := by
    simp [Piece.text, hPart, hSelector, hPending,
      String.append_assoc]
  have hJoins :=
    Piece.joins_of_solid hSolid hText hBefore hLeft
      (by simp [hRight]) hRest
  have hPieces :
      (chunks.foldl add part).finish =
        done ++ [.filler draft.slot] ++
          .value (part.selector ++ Token.rawText more) ::
            pieces := by
    rw [hSame]
    simp [hPart, hDone]
  rw [hPieces, hParts]
  simpa using hJoins

theorem add_of_comma
    {chunk : Chunk}
    (hComma : chunk.head.kind = .comma)
    (draft : SelectorDraft) :
    draft.add chunk = draft.addComma chunk.raw := by
  unfold add
  rw [hComma]

theorem add_of_part
    {chunk : Chunk}
    (hComma : chunk.head.kind ≠ .comma)
    (hSolid : chunk.isFiller = false)
    (draft : SelectorDraft) :
    draft.add chunk = draft.addPart chunk.raw := by
  rcases add_cases draft chunk with
    ⟨hKind, _⟩ | ⟨hFiller, _⟩ | ⟨_, _, hAdd⟩
  · exact absurd hKind hComma
  · rw [hSolid] at hFiller
    cases hFiller
  · exact hAdd

/- Formatting only counts if its selector goes on. -/
theorem solids_finish_addFiller
    (draft : SelectorDraft)
    (raw : String)
    (chunks : List Chunk) :
    Piece.solids
          (chunks.foldl add (draft.addFiller raw)).finish =
        Piece.solids (chunks.foldl add draft).finish ∨
      draft.selector ≠ "" ∧
        ∃ fillers chunk others,
          chunks = fillers ++ chunk :: others ∧
            (∀ filler ∈ fillers, filler.isFiller = true) ∧
            chunk.head.kind ≠ .comma ∧
            chunk.isFiller = false := by
  by_cases hSelector : draft.selector = ""
  · have hLike : (draft.addFiller raw).Resembles draft := by
      rw [addFiller, if_pos hSelector]
      exact ⟨rfl, rfl, rfl⟩
    have hPending :
        (draft.addFiller raw).pending = draft.pending := by
      rw [addFiller, if_pos hSelector]
    exact
      .inl (hLike.foldl_add hPending chunks).solids_finish
  · rw [addFiller, if_neg hSelector]
    have hParts :
        chunks.takeWhile Chunk.isFiller ++
            chunks.dropWhile Chunk.isFiller =
          chunks :=
      List.takeWhile_append_dropWhile
    have hFillers :
        ∀ chunk ∈ chunks.takeWhile Chunk.isFiller,
          chunk.isFiller = true :=
      fun chunk hMem => List.mem_takeWhile_imp hMem
    have hNot :=
      List.head?_dropWhile_not Chunk.isFiller chunks
    generalize chunks.takeWhile Chunk.isFiller = fillers
      at hParts hFillers
    generalize chunks.dropWhile Chunk.isFiller = others
      at hParts hNot
    subst hParts
    have hLike :
        (fillers.foldl add
            { draft with
              pending := draft.pending ++ raw }).Resembles
          (fillers.foldl add draft) := by
      have hLonger :
          ({ draft with
            pending := draft.pending ++ raw } :
              SelectorDraft).selector ≠ "" :=
        hSelector
      rw [foldl_add_fillers hLonger hFillers,
        foldl_add_fillers hSelector hFillers]
      exact ⟨rfl, rfl, rfl⟩
    cases others with
    | nil =>
        rw [List.append_nil]
        exact .inl hLike.solids_finish
    | cons chunk others =>
        by_cases hComma : chunk.head.kind = .comma
        · rw [List.foldl_append, List.foldl_append,
            List.foldl_cons, List.foldl_cons,
            add_of_comma hComma, add_of_comma hComma]
          rcases hLike.addComma chunk.raw with
            ⟨hNext, hPending⟩
          exact
            .inl (hNext.foldl_add hPending others).solids_finish
        · exact
            .inr
              ⟨hSelector, fillers, chunk, others, rfl,
                hFillers, hComma, hNot⟩

/- Formatting between two selectors does not count. -/
theorem Holds.solids_addFiller
    {p : Token → Bool}
    {draft : SelectorDraft}
    {ts slot selector pending us : List Token}
    {chunks : List Chunk}
    (hHolds : draft.Holds [] ts slot selector pending)
    (hForm : Form.Chunks opens? p us chunks)
    (hApart :
      ¬ Joins
        (Piece.segments
          (chunks.foldl SelectorDraft.add draft).finish)
        ts us)
    (raw : String) :
    Piece.solids
        (chunks.foldl SelectorDraft.add
          (draft.addFiller raw)).finish =
      Piece.solids
        (chunks.foldl SelectorDraft.add draft).finish := by
  rcases solids_finish_addFiller draft raw chunks with
    hSame | ⟨hSome, fillers, chunk, others, rfl, hFillers,
      hComma, hSolid⟩
  · exact hSame
  · refine absurd ?_ hApart
    rw [List.append_cons] at hForm
    rcases hForm.exists_append with
      ⟨right, last, rfl, hRight, hLast⟩
    have hStart : selector ≠ [] := by
      rintro rfl
      exact hSome hHolds.selector_eq
    have hEnd : right ≠ [] := by
      rintro rfl
      cases fillers <;> cases hRight
    have hPart :
        (fillers ++ [chunk]).foldl SelectorDraft.add draft =
          { draft with
            selector :=
              draft.selector ++ draft.pending ++
                Token.rawText ([] ++ right)
            pending := "" } := by
      rw [List.foldl_append,
        foldl_add_fillers hSome hFillers, List.foldl_cons,
        List.foldl_nil, add_of_part hComma hSolid,
        List.nil_append, ← hRight.rawText_eq]
      simp [addPart, Chunk.rawText, String.append_assoc]
    have hJoins :=
      joins_of_part hHolds hLast hPart
        (by simp [hPart, hSome]) (by simp [hStart]) hEnd
    rw [List.append_cons, List.foldl_append]
    simpa using hJoins

end SelectorDraft

namespace Form

/- A blank between two selectors does not count. -/
theorem Chunks.insert_selectors
    {blank : Token}
    {front back : List Token}
    {chunks : List Chunk}
    (hBlank : blank.kind = .whitespace)
    (hForm :
      Chunks opens? (fun _ => true) (front ++ back) chunks)
    (hRaw : ∀ t ∈ front ++ back, t.raw ≠ "")
    (hApart :
      ¬ Joins (Piece.segments (arrangeSelectors chunks))
        front back) :
    ∃ chunks',
      Chunks opens? (fun _ => true)
        (front ++ blank :: back) chunks' ∧
      Piece.solids (arrangeSelectors chunks') =
        Piece.solids (arrangeSelectors chunks) := by
  unfold arrangeSelectors at hApart ⊢
  cases hForm.chunkPlace rfl with
  | @between _ _ cs ds hFront hBack =>
      rcases SelectorDraft.holds_empty.foldl_add hFront with
        ⟨slot, selector, pending, hHolds⟩
      have hNone : opens? blank = none := by
        simp [opens?, hBlank]
      have hAdd :
          ∀ draft : SelectorDraft,
            draft.add ⟨blank, blank.raw⟩ =
              draft.addFiller blank.raw := by
        simp [SelectorDraft.add, hBlank]
      rw [List.foldl_append] at hApart
      refine ⟨_, hFront.append (.token hNone rfl hBack), ?_⟩
      rw [List.foldl_append, List.foldl_append,
        List.foldl_cons, hAdd]
      exact hHolds.solids_addFiller hBack hApart blank.raw
  | @inside first left right last cs ds chunk opener
      hOpens hText hLeft hRight hFirst hLast =>
      -- A span is a part of a selector.
      refine absurd ?_ hApart
      rcases SelectorDraft.holds_empty.foldl_add hFirst with
        ⟨slot, selector, pending, hHolds⟩
      have hComma : chunk.head.kind ≠ .comma := by
        intro hKind
        simp [opens?, hKind] at hOpens
      have hSolid : chunk.isFiller = false := by
        rw [← Bool.not_eq_true]
        intro hFiller
        rw [Sheet.opens?_of_isFiller hFiller] at hOpens
        cases hOpens
      have hRawLeft : ∀ t ∈ left, t.raw ≠ "" :=
        fun t hMem => hRaw t (by simp [hMem])
      have hSome : Token.rawText left ≠ "" :=
        fun hNone =>
          hLeft (Token.eq_nil_of_rawText hRawLeft hNone)
      have hPart :=
        SelectorDraft.add_of_part hComma hSolid
          (cs.foldl SelectorDraft.add .empty)
      rw [SelectorDraft.addPart, hText] at hPart
      have hJoins :=
        SelectorDraft.joins_of_part hHolds hLast hPart
          (by simp [hPart, hSome]) (by simp [hLeft]) hRight
      rw [List.foldl_append, List.foldl_cons]
      simpa using hJoins

end Form

end LosslessCss

------------------------------------------------------------
-- Blanks in Fragments
------------------------------------------------------------

namespace LosslessCss

open Grammar

open Segment (Covers Joins)

namespace Form

/- A blank can be put anywhere into formatting. -/
theorem Fillers.insert
    {blank : Token}
    {front back : List Token}
    (hBlank : blank.kind = .whitespace)
    (hForm : Fillers (front ++ back)) :
    Fillers (front ++ blank :: back) := by
  have hFiller : blank.isFiller = true := by
    simp [Token.isFiller, Token.isWhitespace, hBlank]
  exact Token.forall_insert hFiller hForm

/- The formatting around a fragment does not count. -/
theorem solids_fragmentPieces
    (leading core trail : List Token) :
    Piece.solids (fragmentPieces leading core trail) =
      if Token.rawText core = "" then
        []
      else
        [.value (Token.rawText core)] := by
  unfold fragmentPieces
  simp only
  split <;> simp

/- A blank around the text of a fragment does not count. -/
theorem Fragment.insert
    {ends : Token → Bool}
    {blank : Token}
    {front back rest : List Token}
    {pieces : List Piece}
    (hBlank : blank.kind = .whitespace)
    (hGoes : ends blank = false)
    (hForm : Fragment ends (front ++ back) rest pieces)
    (hRaw : ∀ t ∈ front ++ back, t.raw ≠ "")
    (hApart : ¬ Joins (Piece.segments pieces) front back) :
    ∃ pieces',
      Fragment ends (front ++ blank :: back) rest pieces' ∧
        Piece.solids pieces' = Piece.solids pieces := by
  rcases fragment_iff.mp hForm with
    ⟨leading, core, trail, chunks, hParts, hLeading, hCore,
      hLast, hTrail, hTests, hStart, hEnds, rfl⟩
  rcases Token.place_around hParts with
    ⟨more, rfl, rfl⟩ |
      ⟨left, right, hLeft, hRight, rfl, rfl, rfl⟩ |
      ⟨more, hSome, rfl, rfl⟩
  · refine
      ⟨_, fragment_iff.mpr
        ⟨front ++ blank :: more, core, trail, chunks,
          by simp, hLeading.insert hBlank, hCore, hLast,
          hTrail, hTests, hStart, hEnds, rfl⟩, ?_⟩
    rw [solids_fragmentPieces, solids_fragmentPieces]
  · refine absurd ?_ hApart
    exact
      joins_fragmentPieces (by simpa using hRaw) hLeft hRight
  · -- Some token stands between the leading formatting and
    -- the blank, so the body still starts with the same one.
    have hTest : (!ends blank) = true := by
      simp [hGoes]
    have hNewStart :
        Token.Stops Token.isFiller
          (core ++ (more ++ blank :: back) ++ rest) := by
      rw [← List.append_assoc, List.append_assoc] at hStart ⊢
      exact
        hStart.of_startsLike (Token.startsLike_of_ne_nil hSome)
    refine
      ⟨_, fragment_iff.mpr
        ⟨leading, core, more ++ blank :: back, chunks,
          by simp, hLeading, hCore, hLast,
          hTrail.insert hBlank,
          Token.forall_insert hTest hTests, hNewStart, hEnds,
          rfl⟩, ?_⟩
    rw [solids_fragmentPieces, solids_fragmentPieces]

end Form

end LosslessCss
