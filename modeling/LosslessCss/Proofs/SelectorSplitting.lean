import LosslessCss.Proofs.CoveredForms
import LosslessCss.Proofs.Nesting
import LosslessCss.Proofs.RoundTrip
import LosslessCss.Tree.Edit
import Mathlib.Data.List.DropRight

/-
  How the text in front of a block is split into selectors.

  The run is cut at the commas outside of all spans.  What is
  left of a segment without the formatting at its ends is a
  selector, and all the rest is formatting between them.

  The draft of a selector list only sees one chunk after the
  other.  It always knows the segments that have ended, and
  which tokens of the last segment are its selector so far.

  Key definitions include:
    * `Token.trimmed`
    * `Token.Frames`
    * `Piece.Alternates`
    * `SelectorDraft.Reads`
    * `Grammar.SplitsInto`

  Key theorems include:
    * `SelectorDraft.Reads.foldl_add`
    * `Grammar.splitsInto_arrangeSelectors`
    * `Form.Whole.opened`
    * `Grammar.selectorList_splits`
-/

------------------------------------------------------------
-- The Reference
------------------------------------------------------------

namespace LosslessCss

open Grammar

/- A run without the formatting at both of its ends. -/
def Token.trimmed (ts : List Token) : List Token :=
  (ts.dropWhile Token.isFiller).rdropWhile Token.isFiller

/- Formatting and values in turn, with formatting outside. -/
inductive Piece.Alternates : List Piece → Prop where
  | last
      {text : String} :
      Alternates [.filler text]
  | next
      {before text : String}
      {pieces : List Piece}
      (hRest : Alternates pieces) :
      Alternates (.filler before :: .value text :: pieces)

/-
  The selector list of a run.  Formatting alone is one piece
  and no selector.  Any other run has one selector for each
  of its segments, which may be an empty one.
-/
structure Grammar.SplitsInto
    (ts : List Token)
    (pieces : List Piece) : Prop where
  of_blank :
    Nesting.segments opens? [] ts = [ts] →
      (∀ t ∈ ts, t.isFiller = true) →
        pieces = [.filler (Token.rawText ts)]
  values_eq :
    ¬ (Nesting.segments opens? [] ts = [ts] ∧
        ∀ t ∈ ts, t.isFiller = true) →
      Piece.values pieces =
        (Nesting.segments opens? [] ts).map fun segment =>
          Token.rawText (Token.trimmed segment)
  alternates : Piece.Alternates pieces
  joined_eq : Piece.joined pieces = Token.rawText ts

end LosslessCss

------------------------------------------------------------
-- Trimmed Runs
------------------------------------------------------------

namespace LosslessCss

namespace Token

theorem dropWhile_append_of_stops
    {p : Token → Bool}
    {ts us : List Token}
    (hFront : ∀ t ∈ ts, p t = true)
    (hStops : Stops p us) :
    (ts ++ us).dropWhile p = us := by
  rw [List.dropWhile_append_of_pos hFront]
  cases us with
  | nil => rfl
  | cons u us => simp [stops_cons.mp hStops]

/-
  A run with its formatting told apart.  The core does not
  start or end with formatting, and nothing is behind it as
  long as it is empty.
-/
structure Frames
    (leading core trailing : List Token) : Prop where
  leading_filler : Form.Fillers leading
  trailing_filler : Form.Fillers trailing
  first_stops : Stops isFiller core
  last_stops : Stops isFiller core.reverse
  trailing_eq_nil : core = [] → trailing = []

variable {leading core trailing : List Token}

theorem frames_nil :
    Frames [] [] [] where
  leading_filler := by simp [Form.Fillers]
  trailing_filler := by simp [Form.Fillers]
  first_stops := stops_nil
  last_stops := stops_nil
  trailing_eq_nil _ := rfl

/- The core is what is left of the whole. -/
theorem Frames.trimmed_eq
    (hFrames : Frames leading core trailing) :
    trimmed (leading ++ (core ++ trailing)) = core := by
  have hStart : Stops isFiller (core ++ trailing) := by
    cases core with
    | nil => simp [hFrames.trailing_eq_nil rfl]
    | cons t core => simpa using hFrames.first_stops
  have hReversed :
      ∀ t ∈ trailing.reverse, t.isFiller = true := by
    intro t hMem
    exact hFrames.trailing_filler t (List.mem_reverse.mp hMem)
  rw [trimmed,
    dropWhile_append_of_stops hFrames.leading_filler hStart,
    List.rdropWhile, List.reverse_append,
    dropWhile_append_of_stops hReversed hFrames.last_stops,
    List.reverse_reverse]

theorem Frames.concat_leading
    {t : Token}
    (hFrames : Frames leading [] [])
    (hFiller : t.isFiller = true) :
    Frames (leading ++ [t]) [] [] :=
  { hFrames with
    leading_filler :=
      List.forall_mem_append.mpr
        ⟨hFrames.leading_filler, by simpa using hFiller⟩ }

theorem Frames.concat_trailing
    {t : Token}
    (hFrames : Frames leading core trailing)
    (hCore : core ≠ [])
    (hFiller : t.isFiller = true) :
    Frames leading core (trailing ++ [t]) :=
  { hFrames with
    trailing_filler :=
      List.forall_mem_append.mpr
        ⟨hFrames.trailing_filler, by simpa using hFiller⟩
    trailing_eq_nil := fun hNil => absurd hNil hCore }

/- A run that starts and ends without formatting joins in. -/
theorem Frames.append_core
    {run : List Token}
    (hFrames : Frames leading core trailing)
    (hRun : run ≠ [])
    (hFirst : Stops isFiller run)
    (hLast : Stops isFiller run.reverse) :
    Frames leading (core ++ trailing ++ run) [] where
  leading_filler := hFrames.leading_filler
  trailing_filler := by simp [Form.Fillers]
  first_stops := by
    cases core with
    | nil => simpa [hFrames.trailing_eq_nil rfl] using hFirst
    | cons t core => simpa using hFrames.first_stops
  last_stops := by
    rw [List.reverse_append]
    cases hReversed : run.reverse with
    | nil => exact absurd hReversed (by simpa using hRun)
    | cons t us => simpa [hReversed] using hLast
  trailing_eq_nil _ := rfl

end Token

namespace Nesting

theorem segments_ne_nil
    {opens : Token → Option Opener}
    {stack : List Closer}
    {ts : List Token} :
    segments opens stack ts ≠ [] := by
  induction ts generalizing stack with
  | nil => simp [segments]
  | cons t ts ih =>
      rw [segments]
      split
      · simp
      · simpa using ih

/- Where nothing is cut, the only segment is the run. -/
theorem eq_of_segments_singleton
    {opens : Token → Option Opener}
    {stack : List Closer}
    {ts segment : List Token}
    (hSegments : segments opens stack ts = [segment]) :
    segment = ts := by
  induction ts generalizing stack segment with
  | nil => simpa [segments] using hSegments.symm
  | cons t ts ih =>
      rw [segments] at hSegments
      split at hSegments
      · exact absurd (List.cons.inj hSegments).2
          segments_ne_nil
      · cases hTail : segments opens (step opens stack t) ts
          with
        | nil => exact absurd hTail segments_ne_nil
        | cons first others =>
            rw [hTail, List.modifyHead_cons,
              List.cons.injEq] at hSegments
            rcases hSegments with ⟨rfl, rfl⟩
            rw [ih hTail]

end Nesting

end LosslessCss

------------------------------------------------------------
-- Alternation
------------------------------------------------------------

namespace LosslessCss

namespace Piece

/- There is one more piece of formatting than values. -/
theorem Alternates.length_fillers
    {pieces : List Piece}
    (hPieces : Alternates pieces) :
    (fillers pieces).length = (values pieces).length + 1 := by
  induction hPieces with
  | last => rfl
  | @next _ _ pieces _ ih =>
      change
        (fillers pieces).length + 1 =
          (values pieces).length + 1 + 1
      rw [ih]

end Piece

namespace SelectorDraft

/- What is done ends with a value, if there is anything. -/
def Paired (draft : SelectorDraft) : Prop :=
  ∀ pieces,
    Piece.Alternates pieces →
      Piece.Alternates (draft.done ++ pieces)

theorem Paired.add
    {draft : SelectorDraft}
    (hPaired : draft.Paired)
    (chunk : Chunk) :
    (draft.add chunk).Paired := by
  intro pieces hPieces
  rcases draft.add_cases chunk with
    ⟨-, hAdd⟩ | ⟨-, hAdd⟩ | ⟨-, -, hAdd⟩
  · rw [hAdd, addComma, List.append_assoc]
    exact hPaired _ (.next hPieces)
  · rw [hAdd, addFiller]
    split
    · exact hPaired _ hPieces
    · exact hPaired _ hPieces
  · rw [hAdd, addPart]
    exact hPaired _ hPieces

theorem Paired.foldl_add
    {draft : SelectorDraft}
    (hPaired : draft.Paired)
    (chunks : List Chunk) :
    (chunks.foldl SelectorDraft.add draft).Paired := by
  induction chunks generalizing draft with
  | nil => exact hPaired
  | cons chunk chunks ih => exact ih (hPaired.add chunk)

end SelectorDraft

namespace Grammar

/- Formatting and selectors alternate, whatever the chunks. -/
theorem alternates_arrangeSelectors
    (chunks : List Chunk) :
    Piece.Alternates (arrangeSelectors chunks) := by
  have hEmpty : SelectorDraft.empty.Paired :=
    fun _ hPieces => hPieces
  unfold arrangeSelectors SelectorDraft.finish
  split
  · exact .last
  · exact hEmpty.foldl_add chunks _ (.next .last)

end Grammar

end LosslessCss

------------------------------------------------------------
-- Drafts
------------------------------------------------------------

namespace LosslessCss

open Grammar

namespace SelectorDraft

/-
  A draft that has read some whole segments and a part of
  another one.  In that part the selector is between the
  formatting in front of it and what is pending.
-/
structure Reads
    (draft : SelectorDraft)
    (finished : List (List Token))
    (leading core trailing : List Token) : Prop where
  done_eq_nil : draft.done = [] ↔ finished = []
  values_done :
    Piece.values draft.done =
      finished.map fun segment =>
        Token.rawText (Token.trimmed segment)
  frames : Token.Frames leading core trailing
  selector_eq : draft.selector = Token.rawText core
  pending_eq : draft.pending = Token.rawText trailing
  core_eq_nil : draft.selector = "" → core = []

variable {draft : SelectorDraft}
  {finished : List (List Token)}
  {leading core trailing : List Token}

theorem reads_empty :
    empty.Reads [] [] [] [] where
  done_eq_nil := by simp [empty]
  values_done := rfl
  frames := Token.frames_nil
  selector_eq := rfl
  pending_eq := rfl
  core_eq_nil _ := rfl

/- A comma ends the segment, and another one starts. -/
theorem Reads.addComma
    (hReads : draft.Reads finished leading core trailing)
    (raw : String) :
    (draft.addComma raw).Reads
      (finished ++ [leading ++ (core ++ trailing)])
      [] [] [] where
  done_eq_nil := by simp [SelectorDraft.addComma]
  values_done := by
    have hDone := hReads.values_done
    simp only [SelectorDraft.addComma, Piece.values,
      List.filter_append, List.map_append] at hDone ⊢
    rw [hDone, List.map_singleton, hReads.frames.trimmed_eq,
      ← hReads.selector_eq]
    rfl
  frames := Token.frames_nil
  selector_eq := rfl
  pending_eq := rfl
  core_eq_nil _ := rfl

/-
  Formatting goes in front of the selector as long as that
  is empty, and is pending behind it after that.
-/
theorem Reads.addFiller
    {t : Token}
    (hReads : draft.Reads finished leading core trailing)
    (hFiller : t.isFiller = true) :
    ∃ leading' trailing',
      (draft.addFiller t.raw).Reads finished
          leading' core trailing' ∧
        leading' ++ (core ++ trailing') =
          leading ++ (core ++ trailing) ++ [t] := by
  by_cases hEmpty : draft.selector = ""
  · have hCore := hReads.core_eq_nil hEmpty
    have hTrailing := hReads.frames.trailing_eq_nil hCore
    subst hCore hTrailing
    refine ⟨leading ++ [t], [], ?_, by simp⟩
    rw [SelectorDraft.addFiller, if_pos hEmpty]
    exact
      { hReads with
        frames := hReads.frames.concat_leading hFiller }
  · have hCore : core ≠ [] := by
      rintro rfl
      exact hEmpty hReads.selector_eq
    have hPending :
        draft.pending ++ t.raw =
          Token.rawText (trailing ++ [t]) := by
      simp [hReads.pending_eq, Token.rawText]
    refine ⟨leading, trailing ++ [t], ?_, by simp⟩
    rw [SelectorDraft.addFiller, if_neg hEmpty]
    exact
      { hReads with
        frames :=
          hReads.frames.concat_trailing hCore hFiller
        pending_eq := hPending }

/- A part of the selector also takes what was pending. -/
theorem Reads.addPart
    {run : List Token}
    (hReads : draft.Reads finished leading core trailing)
    (hFirst : Token.Stops Token.isFiller run)
    (hLast : Token.Stops Token.isFiller run.reverse)
    (hText : Token.rawText run ≠ "") :
    (draft.addPart (Token.rawText run)).Reads finished
      leading (core ++ trailing ++ run) [] := by
  have hRun : run ≠ [] := by
    rintro rfl
    exact hText rfl
  have hSelector :
      draft.selector ++ draft.pending ++ Token.rawText run =
        Token.rawText (core ++ trailing ++ run) := by
    simp [hReads.selector_eq, hReads.pending_eq,
      String.append_assoc]
  have hSome :
      draft.selector ++ draft.pending ++ Token.rawText run ≠
        "" := by
    intro hNil
    exact hText (String.append_eq_empty_iff.mp hNil).2
  exact
    { hReads with
      frames := hReads.frames.append_core hRun hFirst hLast
      selector_eq := hSelector
      pending_eq := rfl
      core_eq_nil := fun hNil => absurd hNil hSome }

/-
  A chunk other than a comma goes on with the segment.  Its
  last token is no formatting, unless all of it is.
-/
theorem Reads.add
    {t : Token}
    {body : List Token}
    (hReads : draft.Reads finished leading core trailing)
    (hComma : t.kind ≠ .comma)
    (hFiller : t.isFiller = true → body = [])
    (hLast :
      t.isFiller = false →
        Token.Stops Token.isFiller (t :: body).reverse)
    (hRaw : t.raw ≠ "") :
    ∃ leading' core' trailing',
      (draft.add ⟨t, Token.rawText (t :: body)⟩).Reads
          finished leading' core' trailing' ∧
        leading' ++ (core' ++ trailing') =
          leading ++ (core ++ trailing) ++ t :: body := by
  rcases draft.add_cases ⟨t, Token.rawText (t :: body)⟩ with
    ⟨hKind, -⟩ | ⟨hBlank, hAdd⟩ | ⟨-, hPart, hAdd⟩
  · exact absurd hKind hComma
  · obtain rfl := hFiller hBlank
    rcases hReads.addFiller hBlank with
      ⟨leading', trailing', hAdded, hRun⟩
    refine ⟨leading', core, trailing', ?_, hRun⟩
    rw [hAdd]
    simpa [Token.rawText] using hAdded
  · have hText : Token.rawText (t :: body) ≠ "" := by
      intro hNil
      exact hRaw (String.append_eq_empty_iff.mp hNil).1
    refine ⟨leading, core ++ trailing ++ t :: body, [], ?_,
      by simp⟩
    rw [hAdd]
    exact hReads.addPart (Token.stops_cons.mpr hPart)
      (hLast hPart) hText

/-
  A draft reads the segments of a run.  The first one of
  them goes on where the draft has stopped.
-/
theorem Reads.foldl_add
    {p : Token → Bool}
    {ts : List Token}
    {chunks : List Chunk}
    (hChunks : Form.Chunks opens? p ts chunks)
    (hRaw : ∀ t ∈ ts, t.raw ≠ "")
    (hReads : draft.Reads finished leading core trailing) :
    ∃ finished' leading' core' trailing',
      (chunks.foldl SelectorDraft.add draft).Reads finished'
          leading' core' trailing' ∧
        finished' ++ [leading' ++ (core' ++ trailing')] =
          finished ++
            (Nesting.segments opens? [] ts).modifyHead
              (leading ++ (core ++ trailing) ++ ·) := by
  induction hChunks generalizing
      draft finished leading core trailing with
  | nil =>
      refine ⟨_, _, _, _, hReads, ?_⟩
      simp [Nesting.segments]
  | @token t ts chunks hOpens _ _ ih =>
      have hTail : ∀ u ∈ ts, u.raw ≠ "" :=
        fun u hMem => hRaw u (by simp [hMem])
      by_cases hComma : t.kind = .comma
      · have hAdd :
            draft.add ⟨t, t.raw⟩ = draft.addComma t.raw := by
          simp [SelectorDraft.add, hComma]
        rcases ih hTail (hReads.addComma t.raw) with
          ⟨finished', leading', core', trailing', hAll,
            hSegments⟩
        refine
          ⟨finished', leading', core', trailing', ?_, ?_⟩
        · rwa [List.foldl_cons, hAdd]
        · -- Nothing of the next segment has been read yet.
          have hNext :
              (Nesting.segments opens? [] ts).modifyHead
                  ([] ++ ([] ++ []) ++ ·) =
                Nesting.segments opens? [] ts :=
            congrFun List.modifyHead_id _
          rw [hSegments, hNext,
            Nesting.segments_comma hComma]
          simp
      · have hAlone :
            t.isFiller = true → ([] : List Token) = [] :=
          fun _ => rfl
        rcases hReads.add hComma hAlone (by simp)
            (hRaw t (by simp)) with
          ⟨leading', core', trailing', hAdded, hRun⟩
        rcases ih hTail hAdded with
          ⟨finished', leading'', core'', trailing'', hAll,
            hSegments⟩
        refine
          ⟨finished', leading'', core'', trailing'', ?_, ?_⟩
        · simpa [Token.rawText] using hAll
        · rw [hSegments, Nesting.segments_token hOpens hComma,
            hRun, List.modifyHead_modifyHead]
          congr 2
          funext first
          simp
  | @span t opener body ts chunks hOpens _ hBody _ ih =>
      have hTail : ∀ u ∈ ts, u.raw ≠ "" :=
        fun u hMem => hRaw u (by simp [hMem])
      rcases hBody.exists_last with
        ⟨front, last, hEnd, hCloses⟩
      have hLast :
          Token.Stops Token.isFiller (t :: body).reverse := by
        simpa [hEnd] using isFiller_of_closes hCloses
      have hFirst : t.isFiller = true → body = [] := by
        intro hFiller
        simp [Sheet.opens?_of_isFiller hFiller] at hOpens
      rcases hReads.add (kind_ne_comma_of_opens? hOpens)
          hFirst (fun _ => hLast) (hRaw t (by simp)) with
        ⟨leading', core', trailing', hAdded, hRun⟩
      rcases ih hTail hAdded with
        ⟨finished', leading'', core'', trailing'', hAll,
          hSegments⟩
      refine
        ⟨finished', leading'', core'', trailing'', hAll, ?_⟩
      rw [hSegments, hRun,
        Nesting.segments_span hOpens
          (kind_ne_comma_of_opens? hOpens) hBody,
        List.modifyHead_modifyHead]
      congr 2
      funext first
      simp

/-
  The finished pieces.  The selectors are those of the
  segments that the draft has read.
-/
theorem Reads.finish_cases
    (hReads : draft.Reads finished leading core trailing) :
    (finished = [] ∧ core = [] ∧
        draft.finish =
          [.filler (draft.slot ++ draft.pending)]) ∨
      (¬ (finished = [] ∧ core = []) ∧
        Piece.values draft.finish =
          (finished ++ [leading ++ (core ++ trailing)]).map
            fun segment =>
              Token.rawText (Token.trimmed segment)) := by
  have hEmpty : draft.selector = "" ↔ core = [] := by
    refine ⟨hReads.core_eq_nil, ?_⟩
    rintro rfl
    exact hReads.selector_eq
  unfold finish
  split
  · rename_i hNone
    simp only [Bool.and_eq_true, List.isEmpty_iff,
      decide_eq_true_eq, hReads.done_eq_nil, hEmpty] at hNone
    exact .inl ⟨hNone.1, hNone.2, rfl⟩
  · rename_i hSome
    simp only [Bool.and_eq_true, List.isEmpty_iff,
      decide_eq_true_eq, hReads.done_eq_nil, hEmpty] at hSome
    refine .inr ⟨hSome, ?_⟩
    rw [List.map_append, List.map_singleton,
      hReads.frames.trimmed_eq, ← hReads.values_done,
      ← hReads.selector_eq]
    simp [Piece.values, Piece.isFiller, Piece.text]

end SelectorDraft

end LosslessCss

------------------------------------------------------------
-- Selector Lists
------------------------------------------------------------

namespace LosslessCss

namespace Grammar

/- The chunks of a run are arranged as its selectors. -/
theorem splitsInto_arrangeSelectors
    {p : Token → Bool}
    {ts : List Token}
    {chunks : List Chunk}
    (hChunks : Form.Chunks opens? p ts chunks)
    (hRaw : ∀ t ∈ ts, t.raw ≠ "") :
    SplitsInto ts (arrangeSelectors chunks) := by
  rcases SelectorDraft.reads_empty.foldl_add hChunks hRaw
    with ⟨finished, leading, core, trailing, hReads, hAll⟩
  have hSegments :
      Nesting.segments opens? [] ts =
        finished ++ [leading ++ (core ++ trailing)] := by
    rw [hAll]
    exact (congrFun List.modifyHead_id _).symm
  have hJoined :
      Piece.joined (arrangeSelectors chunks) =
        Token.rawText ts := by
    rw [joined_arrangeSelectors, hChunks.rawText_eq]
  refine ⟨?_, ?_, alternates_arrangeSelectors chunks, hJoined⟩
  · intro hOne hBlank
    rw [hSegments, ← List.nil_append [ts]] at hOne
    rcases List.append_inj' hOne rfl with ⟨rfl, hLast⟩
    have hRun := List.singleton_inj.mp hLast
    have hCore : core = [] := by
      cases core with
      | nil => rfl
      | cons t core =>
          have hFirst := hReads.frames.first_stops
          rw [Token.stops_cons,
            hBlank t (by simp [← hRun])] at hFirst
          cases hFirst
    rcases hReads.finish_cases with
      ⟨-, -, hFinish⟩ | ⟨hSome, -⟩
    · have hText := hJoined
      rw [arrangeSelectors, hFinish,
        Piece.joined_singleton] at hText
      rw [arrangeSelectors, hFinish, ← hText]
      rfl
    · exact absurd ⟨rfl, hCore⟩ hSome
  · intro hSome
    rcases hReads.finish_cases with
      ⟨rfl, rfl, -⟩ | ⟨-, hValues⟩
    · -- Only formatting was read, against the assumption.
      obtain rfl := hReads.frames.trailing_eq_nil rfl
      have hRun := Nesting.eq_of_segments_singleton hSegments
      rw [List.append_nil, List.append_nil] at hRun
      rw [List.append_nil, List.append_nil, hRun] at hSegments
      subst hRun
      exact
        absurd ⟨hSegments, hReads.frames.leading_filler⟩
          hSome
    · rw [hSegments]
      exact hValues

end Grammar

end LosslessCss

------------------------------------------------------------
-- The Blocks of a Tree
------------------------------------------------------------

namespace LosslessCss

open Grammar

namespace Node

/- A node in a block is the block or in one of its children. -/
theorem at?_block
    {opening : Opening}
    {children : List Node}
    {after before : String}
    {location : Location}
    {path : List Nat}
    {node : Node}
    (hAt :
      (block opening children after location before).at?
          path =
        some node) :
    node = block opening children after location before ∨
      ∃ child ∈ children, ∃ path,
        child.at? path = some node := by
  cases path with
  | nil => exact .inl (Option.some.inj hAt).symm
  | cons index path =>
      rw [at?] at hAt
      cases hChild : children[index]? with
      | none => simp [hChild] at hAt
      | some child =>
          rw [hChild] at hAt
          exact
            .inr ⟨child, List.mem_of_getElem? hChild, path,
              hAt⟩

end Node

namespace Form

/- All blocks in a node open as their forms say. -/
def Opened (node : Node) : Prop :=
  ∀ {path opening children after location before},
    node.at? path =
        some (.block opening children after location before) →
      ∃ head, Opens head opening

theorem opened_leaf
    {leaf : Leaf}
    {location : Location}
    {before : String} :
    Opened (.leaf leaf location before) := by
  intro path _ _ _ _ _ hAt
  cases path with
  | nil => cases hAt
  | cons _ _ => cases hAt

theorem opened_toNode
    {head : List Token}
    {opening : Opening}
    {inner : Block}
    {location : Location}
    {before : String}
    (hHead : Opens head opening)
    (hInner : ∀ child ∈ inner.children, Opened child) :
    Opened (inner.toNode opening location before) := by
  intro path _ _ _ _ _ hAt
  rcases Node.at?_block hAt with
    hSame | ⟨child, hMem, path, hChild⟩
  · cases hSame
    exact ⟨head, hHead⟩
  · exact hInner child hMem hChild

theorem Items.opened
    {before : String}
    {ts rest : List Token}
    {block : Block}
    (hForm : Items before ts rest block) :
    ∀ child ∈ block.children, Opened child := by
  induction hForm with
  | done => simp
  | separator _ _ ih => exact ih
  | flat _ _ ih =>
      intro child hMem
      rcases List.mem_cons.mp hMem with rfl | hTail
      · exact opened_leaf
      · exact ih child hTail
  | block hHead _ _ _ _ ihBody ihTail =>
      intro child hMem
      rcases List.mem_cons.mp hMem with rfl | hTail
      · exact opened_toNode hHead ihBody
      · exact ihTail child hTail

theorem Whole.opened
    {ts : List Token}
    {block : Block}
    (hForm : Whole ts block) :
    ∀ child ∈ block.children, Opened child := by
  cases hForm with
  | items hItems => exact hItems.opened
  | single _ hItem _ =>
      intro child hMem
      rw [List.mem_singleton.mp hMem]
      cases hItem with
      | flat _ => exact opened_leaf
      | block hHead hBody _ =>
          exact opened_toNode hHead hBody.opened

end Form

namespace Parse

/- In a parsed tree each rule has selectors of a run. -/
theorem alternates_of_at?
    {css : String}
    {settings : Settings}
    {root : Node}
    (hParse : text css settings = .ok root)
    {path : List Nat}
    {pieces : List Piece}
    {children : List Node}
    {after before : String}
    {location : Location}
    (hAt :
      root.at? path =
        some
          (.block (.rule pieces) children after location
            before)) :
    Piece.Alternates pieces := by
  rcases form_of_text hParse with ⟨block, hForm, rfl⟩
  rcases Node.at?_block hAt with
    hSame | ⟨child, hMem, path, hChild⟩
  · cases hSame
  · rcases hForm.opened child hMem hChild with
      ⟨head, hHead⟩
    cases hHead with
    | rule _ _ _ _ => exact alternates_arrangeSelectors _

end Parse

end LosslessCss

------------------------------------------------------------
-- Reading Selector Lists
------------------------------------------------------------

namespace LosslessCss

open TokenSource (upcoming)

namespace Grammar

/-
  A selector list is read exactly where all spans are closed,
  and its pieces are those of the reference.  So every rule
  of a parsed tree has one more piece of formatting than it
  has selectors.
-/
theorem selectorList_splits :
    (∀ {σ : Type} [TokenSource σ]
        (s : σ) (ts : List Token),
      upcoming s = ts →
        (∀ t ∈ ts, t.raw ≠ "") →
          ((∃ pieces,
              (selectorList.run s).outcome = .ok pieces) ↔
            Nesting.after opens? [] ts = []) ∧
          ∀ pieces,
            (selectorList.run s).outcome = .ok pieces →
              SplitsInto ts pieces) ∧
      ∀ (css : String) (settings : Settings)
          (root node : Node) (path : List Nat),
        Parse.text css settings = .ok root →
          root.at? path = some node →
            node.isRule = true →
              node.beforeSelectors.length =
                node.selectors.length + 1 := by
  constructor
  · intro σ _ s ts hShown hRaw
    subst hShown
    constructor
    · rw [Nesting.after_eq_nil_iff]
      constructor
      · intro h
        rcases h with ⟨pieces, hOk⟩
        rcases (outcome_eq_ok_iff yields_selectorList).mp hOk
          with ⟨chunks, hChunks, -⟩
        exact ⟨chunks, hChunks⟩
      · intro h
        rcases h with ⟨chunks, hChunks⟩
        exact
          ⟨_, (outcome_eq_ok_iff yields_selectorList).mpr
            ⟨chunks, hChunks, rfl⟩⟩
    · intro pieces hOk
      rcases (outcome_eq_ok_iff yields_selectorList).mp hOk
        with ⟨chunks, hChunks, rfl⟩
      exact splitsInto_arrangeSelectors hChunks hRaw
  · intro css settings root node path hParse hAt hRule
    cases node with
    | leaf _ _ _ => cases hRule
    | block opening children after location before =>
        cases opening with
        | styleSheet => cases hRule
        | atRule _ _ => cases hRule
        | rule pieces =>
            exact
              (Parse.alternates_of_at? hParse
                hAt).length_fillers

/-
  A comma and a foreign closer in brackets, formatting around
  a comma, and a last segment without any token.
-/
theorem selectorList_splits_mismatched :
    (∃ pieces,
      (selectorList.run
          (TokenSlice.ofTokens
            [ ⟨.ident "a", "a", ⟨1, 1, 0⟩⟩,
              ⟨.whitespace, " ", ⟨1, 2, 1⟩⟩,
              ⟨.comma, ",", ⟨1, 3, 2⟩⟩,
              ⟨.comment "", "/**/", ⟨1, 4, 3⟩⟩,
              ⟨.leftBracket, "[", ⟨1, 8, 7⟩⟩,
              ⟨.comma, ",", ⟨1, 9, 8⟩⟩,
              ⟨.rightParen, ")", ⟨1, 10, 9⟩⟩,
              ⟨.rightBracket, "]", ⟨1, 11, 10⟩⟩,
              ⟨.comma, ",", ⟨1, 12, 11⟩⟩ ]
            ⟨1, 13, 12⟩)).outcome =
          .ok pieces ∧
        Piece.values pieces = ["a", "[,)]", ""] ∧
        Piece.joined pieces = "a ,/**/[,)],") ∧
      ∃ root node,
        Parse.text "a,b\x7bc:d\x7d"
            ⟨.styleSheet, Location.start, none⟩ =
          .ok root ∧
        root.at? [0] = some node ∧
        node.isRule = true ∧
        node.beforeSelectors.length =
          node.selectors.length + 1 := by
  constructor
  · let tokens : List Token :=
      [ ⟨.ident "a", "a", ⟨1, 1, 0⟩⟩,
        ⟨.whitespace, " ", ⟨1, 2, 1⟩⟩,
        ⟨.comma, ",", ⟨1, 3, 2⟩⟩,
        ⟨.comment "", "/**/", ⟨1, 4, 3⟩⟩,
        ⟨.leftBracket, "[", ⟨1, 8, 7⟩⟩,
        ⟨.comma, ",", ⟨1, 9, 8⟩⟩,
        ⟨.rightParen, ")", ⟨1, 10, 9⟩⟩,
        ⟨.rightBracket, "]", ⟨1, 11, 10⟩⟩,
        ⟨.comma, ",", ⟨1, 12, 11⟩⟩ ]
    have hShown :
        upcoming (TokenSlice.ofTokens tokens ⟨1, 13, 12⟩) =
          tokens := by
      rw [TokenSlice.upcoming_ofTokens]
      exact Token.untilEof_eq_self (by decide)
    rcases selectorList_splits.1
        (TokenSlice.ofTokens tokens ⟨1, 13, 12⟩) tokens
        hShown (by decide) with
      ⟨hRead, hSplits⟩
    rcases hRead.mpr (by decide) with ⟨pieces, hOk⟩
    refine ⟨pieces, hOk, ?_, ?_⟩
    · exact (hSplits pieces hOk).values_eq (by decide)
    · exact (hSplits pieces hOk).joined_eq
  · let node : Node :=
      .block
        (.rule
          [ .filler "", .value "a", .filler ",",
            .value "b", .filler "" ])
        [ .leaf (.declaration "c" "" [.value "d"] false)
            ⟨1, 5, 4⟩ "" ]
        "" ⟨1, 1, 0⟩ ""
    have hParse :
        Parse.text "a,b\x7bc:d\x7d"
            ⟨.styleSheet, Location.start, none⟩ =
          .ok
            (.block .styleSheet [node] "" ⟨1, 1, 0⟩ "") :=
      Parse.eq_ok_of_toOption (by decide +kernel)
    exact
      ⟨_, node, hParse, rfl, rfl,
        selectorList_splits.2 _ _ _ node [0] hParse rfl rfl⟩

end Grammar

end LosslessCss
