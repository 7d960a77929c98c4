import LosslessCss.Proofs.FormText

/-
  The segments of a tree.

  In the order of the document, a tree consists of texts and
  of marks that it keeps no text of, such as braces.  Its
  tokens can be cut into runs, one for each segment, so a
  place between two tokens is inside of a segment or between
  two of them.

  Key definitions include:
    * `Segment`
    * `Node.segments`
    * `Segment.cutsJoint`
    * `Segment.Covers`
    * `Segment.Joins`

  Key theorems include:
    * `Segment.joins_iff_cutsJoint`
    * `Piece.covers_foldl_push`
    * `Piece.joins_foldl_push`
-/

------------------------------------------------------------
-- Segments
------------------------------------------------------------

namespace LosslessCss

/-
  A part of a tree: the text of a value or a function, which
  belongs together, any other text, or one token without a
  text in the tree.
-/
inductive Segment where
  | joint (text : String)
  | loose (text : String)
  | mark
deriving DecidableEq

namespace Piece

/- A piece that is not formatting belongs together. -/
def segment : Piece → Segment
| .value text => .joint text
| .function text => .joint text
| .filler text => .loose text

/- The segments of a list of pieces. -/
def segments (pieces : List Piece) : List Segment :=
  pieces.map segment

@[simp] theorem segments_nil :
    segments [] = [] :=
  rfl

@[simp] theorem segments_cons
    (piece : Piece)
    (pieces : List Piece) :
    segments (piece :: pieces) =
      piece.segment :: segments pieces :=
  rfl

@[simp] theorem segments_append
    (ps qs : List Piece) :
    segments (ps ++ qs) = segments ps ++ segments qs :=
  List.map_append

end Piece

namespace Leaf

/- The segments of a leaf, with a mark for the colon. -/
def segments : Leaf → List Segment
| .declaration property beforeColon value _ =>
    .loose property :: .loose beforeColon :: .mark ::
      Piece.segments value
| .comment text => [.loose text]
| .statement name value =>
    .loose ("@" ++ name.keyword) :: Piece.segments value

end Leaf

namespace Opening

/- The segments up to the left brace. -/
def segments : Opening → List Segment
| .styleSheet => []
| .rule selectors => Piece.segments selectors ++ [.mark]
| .atRule name parameters =>
    .loose ("@" ++ name.keyword) ::
      (Piece.segments parameters ++ [.mark])

/- The right brace, if there is one. -/
def closing : Opening → List Segment
| .styleSheet => []
| .rule _ => [.mark]
| .atRule _ _ => [.mark]

end Opening

namespace Node

mutual

/- The segments of a node in the order of the document. -/
def segments : Node → List Segment
| .leaf content _ before => .loose before :: content.segments
| .block opening children after _ before =>
    .loose before ::
      (opening.segments ++
        (segmentsAll children ++
          .loose after :: opening.closing))

/- The segments of a list of nodes. -/
def segmentsAll : List Node → List Segment
| [] => []
| node :: nodes => segments node ++ segmentsAll nodes

end

end Node

namespace Block

/- The segments of the children and of what follows them. -/
def segments (block : Block) : List Segment :=
  Node.segmentsAll block.children ++ [.loose block.after]

theorem segments_cons
    (node : Node)
    (block : Block) :
    (block.cons node).segments =
      node.segments ++ block.segments := by
  simp [segments, cons, Node.segmentsAll]

theorem segments_toNode
    (block : Block)
    (opening : Opening)
    (here : Location)
    (before : String) :
    (block.toNode opening here before).segments =
      .loose before ::
        (opening.segments ++
          (block.segments ++ opening.closing)) := by
  simp [segments, toNode, Node.segments]

end Block

end LosslessCss

------------------------------------------------------------
-- Places Inside of Segments
------------------------------------------------------------

namespace LosslessCss

namespace Token

/- How many tokens a text of the given length takes up. -/
def countFor : Nat → List Token → Nat
| _, [] => 0
| length, t :: ts =>
    if length = 0 then
      0
    else
      countFor (length - t.raw.length) ts + 1

/- Tokens with a text take up the length of their texts. -/
theorem countFor_rawText
    {run : List Token}
    (hRaw : ∀ t ∈ run, t.raw ≠ "")
    (rest : List Token) :
    countFor (rawText run).length (run ++ rest) =
      run.length := by
  induction run with
  | nil =>
      cases rest with
      | nil => rfl
      | cons t rest => simp [countFor, rawText]
  | cons t run ih =>
      rcases List.forall_mem_cons.mp hRaw with
        ⟨hFirst, hOthers⟩
      have hSome : t.raw.length ≠ 0 := by
        simpa using hFirst
      rw [rawText, String.length_append, List.cons_append,
        countFor, if_neg (by omega), Nat.add_sub_cancel_left,
        ih hOthers, List.length_cons]

end Token

namespace Segment

/-
  Whether the place after the first tokens, as many as the
  number says, is inside of a segment that belongs together.
-/
def cutsJoint : List Segment → List Token → Nat → Bool
| [], _, _ => false
| .mark :: segments, ts, place =>
    cutsJoint segments ts.tail (place - 1)
| .loose text :: segments, ts, place =>
    let size := Token.countFor text.length ts
    if place < size then
      false
    else
      cutsJoint segments (ts.drop size) (place - size)
| .joint text :: segments, ts, place =>
    let size := Token.countFor text.length ts
    if place < size then
      decide (0 < place)
    else
      cutsJoint segments (ts.drop size) (place - size)

/- The text of a segment that has one. -/
def text? : Segment → Option String
| .joint text => some text
| .loose text => some text
| .mark => none

/-
  Tokens that can be cut into runs, one for each segment,
  with the text of the segment.
-/
inductive Covers : List Segment → List Token → Prop where
  | nil : Covers [] []
  | mark
      {t : Token}
      {segments : List Segment}
      {ts : List Token}
      (hRest : Covers segments ts) :
      Covers (.mark :: segments) (t :: ts)
  | text
      {segment : Segment}
      {run : List Token}
      {segments : List Segment}
      {ts : List Token}
      (hText : segment.text? = some (Token.rawText run))
      (hRest : Covers segments ts) :
      Covers (segment :: segments) (run ++ ts)

/-
  A place between two tokens of a segment that belongs
  together.
-/
inductive Joins :
    List Segment → List Token → List Token → Prop where
  | intro
      {before after : List Segment}
      {first left right last : List Token}
      (hBefore : Covers before first)
      (hLeft : left ≠ [])
      (hRight : right ≠ [])
      (hAfter : Covers after last) :
      Joins
        (before ++
          .joint (Token.rawText (left ++ right)) :: after)
        (first ++ left) (right ++ last)

/- A segment in front of the place does not matter. -/
theorem cutsJoint_text
    {segment : Segment}
    {run : List Token}
    (hRaw : ∀ t ∈ run, t.raw ≠ "")
    (hText : segment.text? = some (Token.rawText run))
    (segments : List Segment)
    (ts : List Token)
    (place : Nat) :
    cutsJoint (segment :: segments) (run ++ ts)
        (run.length + place) =
      cutsJoint segments ts place := by
  cases segment with
  | mark => cases hText
  | joint text =>
      cases hText
      rw [cutsJoint, Token.countFor_rawText hRaw,
        if_neg (by omega), List.drop_left,
        Nat.add_sub_cancel_left]
  | loose text =>
      cases hText
      rw [cutsJoint, Token.countFor_rawText hRaw,
        if_neg (by omega), List.drop_left,
        Nat.add_sub_cancel_left]

/- No segment in front of the place matters. -/
theorem cutsJoint_append
    {before : List Segment}
    {first : List Token}
    (hRaw : ∀ t ∈ first, t.raw ≠ "")
    (hCovers : Covers before first)
    (after : List Segment)
    (ts : List Token)
    (place : Nat) :
    cutsJoint (before ++ after) (first ++ ts)
        (first.length + place) =
      cutsJoint after ts place := by
  induction hCovers with
  | nil => simp
  | @mark t segments first _ ih =>
      have hTail :=
        ih fun u hMem => hRaw u (List.mem_cons_of_mem t hMem)
      rw [List.length_cons, Nat.add_right_comm]
      exact hTail
  | @text segment run segments first hText _ ih =>
      rcases List.forall_mem_append.mp hRaw with
        ⟨hRun, hOthers⟩
      rw [List.cons_append, List.append_assoc,
        List.length_append, Nat.add_assoc,
        cutsJoint_text hRun hText, ih hOthers]

/- A place between two tokens of a segment is found. -/
theorem cutsJoint_of_joins
    {segments : List Segment}
    {front back : List Token}
    (hRaw : ∀ t ∈ front ++ back, t.raw ≠ "")
    (hJoins : Joins segments front back) :
    cutsJoint segments (front ++ back) front.length =
      true := by
  cases hJoins with
  | @intro before after first left right last
      hBefore hLeft hRight hAfter =>
      have hParts :
          first ++ left ++ (right ++ last) =
            first ++ (left ++ right ++ last) := by
        simp
      rw [hParts, List.forall_mem_append,
        List.forall_mem_append] at hRaw
      have hSizeLeft := List.length_pos_iff.mpr hLeft
      have hSizeRight := List.length_pos_iff.mpr hRight
      rw [hParts, List.length_append,
        cutsJoint_append hRaw.1 hBefore, cutsJoint,
        Token.countFor_rawText hRaw.2.1, List.length_append,
        if_pos (by omega)]
      simpa using hSizeLeft

end Segment

end LosslessCss

------------------------------------------------------------
-- Covered Tokens
------------------------------------------------------------

namespace LosslessCss

namespace Token

/- Only tokens without a text make up no text. -/
theorem eq_nil_of_rawText
    {ts : List Token}
    (hRaw : ∀ t ∈ ts, t.raw ≠ "")
    (hText : rawText ts = "") :
    ts = [] := by
  cases ts with
  | nil => rfl
  | cons t ts =>
      rw [rawText, String.append_eq_empty_iff] at hText
      exact absurd hText.1 (hRaw t (by simp))

end Token

namespace Segment

theorem Covers.append
    {segments others : List Segment}
    {ts us : List Token}
    (hFirst : Covers segments ts)
    (hSecond : Covers others us) :
    Covers (segments ++ others) (ts ++ us) := by
  induction hFirst with
  | nil => exact hSecond
  | mark _ ih => exact .mark ih
  | text hText _ ih =>
      rw [List.append_assoc]
      exact .text hText ih

/- What is covered can be cut where the segments are. -/
theorem Covers.exists_append
    {segments others : List Segment}
    {ts : List Token}
    (hCovers : Covers (segments ++ others) ts) :
    ∃ us vs, ts = us ++ vs ∧ Covers segments us ∧
      Covers others vs := by
  induction segments generalizing ts with
  | nil => exact ⟨[], ts, rfl, .nil, hCovers⟩
  | cons segment segments ih =>
      cases hCovers with
      | mark hRest =>
          rcases ih hRest with ⟨us, vs, rfl, hFirst, hSecond⟩
          exact ⟨_ :: us, vs, rfl, .mark hFirst, hSecond⟩
      | @text _ run _ _ hText hRest =>
          rcases ih hRest with ⟨us, vs, rfl, hFirst, hSecond⟩
          exact
            ⟨run ++ us, vs, by simp, .text hText hFirst,
              hSecond⟩

theorem covers_loose
    (run : List Token) :
    Covers [.loose (Token.rawText run)] run := by
  have hCovers :
      Covers [.loose (Token.rawText run)] (run ++ []) :=
    .text rfl .nil
  rwa [List.append_nil] at hCovers

theorem covers_mark
    (t : Token) :
    Covers [.mark] [t] :=
  .mark .nil

/- More segments in front do not matter. -/
theorem Joins.append_left
    {segments others : List Segment}
    {ts front back : List Token}
    (hJoins : Joins others front back)
    (hCovers : Covers segments ts) :
    Joins (segments ++ others) (ts ++ front) back := by
  cases hJoins with
  | intro hBefore hLeft hRight hAfter =>
      rw [← List.append_assoc, ← List.append_assoc]
      exact
        .intro (hCovers.append hBefore) hLeft hRight hAfter

/- More segments behind do not matter. -/
theorem Joins.append_right
    {segments others : List Segment}
    {ts front back : List Token}
    (hJoins : Joins segments front back)
    (hCovers : Covers others ts) :
    Joins (segments ++ others) front (back ++ ts) := by
  cases hJoins with
  | intro hBefore hLeft hRight hAfter =>
      rw [List.append_assoc, List.append_assoc,
        List.cons_append]
      exact
        .intro hBefore hLeft hRight (hAfter.append hCovers)

theorem cutsJoint_zero
    (segments : List Segment)
    (ts : List Token) :
    cutsJoint segments ts 0 = false := by
  induction segments generalizing ts with
  | nil => rfl
  | cons segment segments ih =>
      cases segment with
      | mark => exact ih ts.tail
      | joint text => simp [cutsJoint, ih]
      | loose text => simp [cutsJoint, ih]

/- A place that is found is between two tokens. -/
theorem joins_of_cutsJoint
    {segments : List Segment}
    {ts front back : List Token}
    (hCovers : Covers segments ts)
    (hRaw : ∀ t ∈ ts, t.raw ≠ "")
    (hParts : ts = front ++ back)
    (hCut : cutsJoint segments ts front.length = true) :
    Joins segments front back := by
  induction hCovers generalizing front with
  | nil => cases hCut
  | @mark t segments ts hRest ih =>
      cases front with
      | nil =>
          rw [List.length_nil, cutsJoint_zero] at hCut
          cases hCut
      | cons u front =>
          rcases List.cons.inj hParts with ⟨rfl, rfl⟩
          exact
            (ih (List.forall_mem_cons.mp hRaw).2 rfl
              hCut).append_left (covers_mark t)
  | @text segment run segments ts hText hRest ih =>
      rcases List.forall_mem_append.mp hRaw with
        ⟨hRun, hOthers⟩
      rcases List.append_eq_append_iff.mp hParts with
        ⟨more, rfl, rfl⟩ | ⟨more, rfl, rfl⟩
      · rw [List.length_append, cutsJoint_text hRun hText]
          at hCut
        have hJoins := ih hOthers rfl hCut
        have hFirst : Covers [segment] (run ++ []) :=
          .text hText .nil
        rw [List.append_nil] at hFirst
        exact hJoins.append_left hFirst
      · have hSize :=
          Token.countFor_rawText hRun ts
        by_cases hRight : more = []
        · subst hRight
          have hEnd :=
            cutsJoint_text hRun hText segments ts 0
          rw [List.append_nil] at hEnd hCut
          rw [Nat.add_zero, cutsJoint_zero] at hEnd
          rw [hEnd] at hCut
          cases hCut
        · have hLess :
              front.length < (front ++ more).length := by
            have hMore := List.length_pos_iff.mpr hRight
            rw [List.length_append]
            omega
          cases segment with
          | mark => cases hText
          | loose text =>
              cases hText
              rw [cutsJoint, hSize, if_pos hLess] at hCut
              cases hCut
          | joint text =>
              cases hText
              rw [cutsJoint, hSize, if_pos hLess,
                decide_eq_true_eq] at hCut
              exact
                @Joins.intro [] segments [] front more ts .nil
                  (List.length_pos_iff.mp hCut) hRight hRest

/- The places between two tokens are just those found. -/
theorem joins_iff_cutsJoint
    {segments : List Segment}
    {front back : List Token}
    (hCovers : Covers segments (front ++ back))
    (hRaw : ∀ t ∈ front ++ back, t.raw ≠ "") :
    Joins segments front back ↔
      cutsJoint segments (front ++ back) front.length =
        true :=
  ⟨cutsJoint_of_joins hRaw,
    joins_of_cutsJoint hCovers hRaw rfl⟩

end Segment

end LosslessCss

------------------------------------------------------------
-- Covering Pieces
------------------------------------------------------------

namespace LosslessCss

open Segment (Covers Joins)

namespace Piece

@[simp] theorem text?_segment
    (piece : Piece) :
    piece.segment.text? = some piece.text := by
  cases piece with
  | value text => rfl
  | function text => rfl
  | filler text => rfl

theorem segment_of_solid
    {piece : Piece}
    (hSolid : piece.isFiller = false) :
    piece.segment = .joint piece.text := by
  cases piece with
  | value text => rfl
  | function text => rfl
  | filler text => cases hSolid

/- A piece covers the tokens with its text. -/
theorem covers_singleton
    {piece : Piece}
    {ts : List Token}
    (hText : piece.text = Token.rawText ts) :
    Covers (segments [piece]) ts := by
  have hCovers : Covers (segments [piece]) (ts ++ []) :=
    .text (by rw [text?_segment, hText]) .nil
  rwa [List.append_nil] at hCovers

/- Pieces have the text of the tokens that they cover. -/
theorem joined_of_covers
    {pieces : List Piece}
    {ts : List Token}
    (hCovers : Covers (segments pieces) ts) :
    joined pieces = Token.rawText ts := by
  induction pieces generalizing ts with
  | nil =>
      cases hCovers
      rfl
  | cons piece pieces ih =>
      generalize hSegment : piece.segment = segment
      rw [segments_cons, hSegment] at hCovers
      cases hCovers with
      | mark _ =>
          have hText := text?_segment piece
          rw [hSegment] at hText
          cases hText
      | text hText hRest =>
          rw [← hSegment, text?_segment] at hText
          rw [joined, ih hRest, Option.some.inj hText,
            Token.rawText_append]

/- Pieces can be merged to formatting. -/
theorem covers_merged
    {pieces : List Piece}
    {ts : List Token}
    (hCovers : Covers (segments pieces) ts) :
    Covers (segments [.filler (joined pieces)]) ts :=
  covers_singleton (joined_of_covers hCovers)

theorem covers_pushFiller
    {pieces : List Piece}
    {ts us : List Token}
    (hRaw : ∀ t ∈ us, t.raw ≠ "")
    (hCovers : Covers (segments pieces) ts) :
    Covers
      (segments (pushFiller pieces (Token.rawText us)))
      (ts ++ us) := by
  unfold pushFiller
  split
  · rename_i hText
    rw [Token.eq_nil_of_rawText hRaw hText, List.append_nil]
    exact hCovers
  · split
    · rename_i last hLast
      have hParts := List.dropLast_append_getLast? _ hLast
      rw [← hParts, segments_append] at hCovers
      rcases hCovers.exists_append with
        ⟨vs, ws, rfl, hInit, hFiller⟩
      have hText := joined_of_covers hFiller
      rw [joined_singleton] at hText
      rw [segments_append, List.append_assoc]
      refine hInit.append (covers_singleton ?_)
      rw [Token.rawText_append, ← hText]
      rfl
    · rw [segments_append]
      exact hCovers.append (covers_singleton rfl)

theorem covers_push
    {pieces : List Piece}
    {piece : Piece}
    {ts us : List Token}
    (hRaw : ∀ t ∈ us, t.raw ≠ "")
    (hText : piece.text = Token.rawText us)
    (hCovers : Covers (segments pieces) ts) :
    Covers (segments (push pieces piece)) (ts ++ us) := by
  unfold push
  split
  · rename_i added
    rw [show added = Token.rawText us from hText]
    exact covers_pushFiller hRaw hCovers
  · rw [segments_append]
    exact hCovers.append (covers_singleton hText)

theorem covers_foldl_push
    {pieces others : List Piece}
    {ts us : List Token}
    (hRaw : ∀ t ∈ us, t.raw ≠ "")
    (hFirst : Covers (segments pieces) ts)
    (hSecond : Covers (segments others) us) :
    Covers (segments (others.foldl push pieces))
      (ts ++ us) := by
  induction others generalizing pieces ts us with
  | nil =>
      cases hSecond
      rw [List.append_nil]
      exact hFirst
  | cons piece others ih =>
      have hParts :
          Covers (segments [piece] ++ segments others) us :=
        hSecond
      rcases hParts.exists_append with
        ⟨vs, ws, rfl, hPiece, hOthers⟩
      have hText := joined_of_covers hPiece
      rw [joined_singleton] at hText
      rcases List.forall_mem_append.mp hRaw with
        ⟨hRawPiece, hRawOthers⟩
      rw [List.foldl_cons, ← List.append_assoc]
      exact
        ih hRawOthers (covers_push hRawPiece hText hFirst)
          hOthers

/- Formatting behind a solid piece is added behind it. -/
theorem pushFiller_append_solid
    {piece : Piece}
    (hSolid : piece.isFiller = false)
    (before after : List Piece)
    (added : String) :
    pushFiller (before ++ piece :: after) added =
      before ++ piece :: pushFiller after added := by
  unfold pushFiller
  split
  · rfl
  · rcases List.eq_nil_or_concat after with
      rfl | ⟨init, last, rfl⟩
    · cases piece with
      | value text => simp
      | function text => simp
      | filler text => cases hSolid
    · rw [List.concat_eq_append, ← List.cons_append,
        ← List.append_assoc, List.getLast?_concat,
        List.getLast?_concat, List.dropLast_concat,
        List.dropLast_concat]
      cases last with
      | value text => simp
      | function text => simp
      | filler text => simp

theorem push_append_solid
    {piece : Piece}
    (hSolid : piece.isFiller = false)
    (before after : List Piece)
    (added : Piece) :
    push (before ++ piece :: after) added =
      before ++ piece :: push after added := by
  cases added with
  | value text => simp [push]
  | function text => simp [push]
  | filler text => exact pushFiller_append_solid hSolid _ _ _

theorem foldl_push_append_solid
    {piece : Piece}
    (hSolid : piece.isFiller = false)
    (before after others : List Piece) :
    others.foldl push (before ++ piece :: after) =
      before ++ piece :: others.foldl push after := by
  induction others generalizing after with
  | nil => rfl
  | cons other others ih =>
      rw [List.foldl_cons, push_append_solid hSolid, ih]
      rfl

/- A solid piece with tokens on both sides of a place. -/
theorem joins_of_solid
    {before after : List Piece}
    {piece : Piece}
    {first left right last : List Token}
    (hSolid : piece.isFiller = false)
    (hText : piece.text = Token.rawText (left ++ right))
    (hBefore : Covers (segments before) first)
    (hLeft : left ≠ [])
    (hRight : right ≠ [])
    (hAfter : Covers (segments after) last) :
    Joins (segments (before ++ piece :: after))
      (first ++ left) (right ++ last) := by
  rw [segments_append, segments_cons,
    segment_of_solid hSolid, hText]
  exact .intro hBefore hLeft hRight hAfter

/- Only solid pieces belong together. -/
theorem exists_solid_of_joins
    {pieces : List Piece}
    {front back : List Token}
    (hJoins : Joins (segments pieces) front back) :
    ∃ before piece after first left right last,
      pieces = before ++ piece :: after ∧
        piece.isFiller = false ∧
        piece.text = Token.rawText (left ++ right) ∧
        Covers (segments before) first ∧ left ≠ [] ∧
        right ≠ [] ∧ Covers (segments after) last ∧
        front = first ++ left ∧ back = right ++ last := by
  generalize hPieces : segments pieces = found at hJoins
  cases hJoins with
  | @intro _ _ first left right last
      hBefore hLeft hRight hAfter =>
      rcases List.map_eq_append_iff.mp hPieces with
        ⟨before, others, rfl, rfl, hOthers⟩
      rcases List.map_eq_cons_iff.mp hOthers with
        ⟨piece, after, rfl, hPiece, rfl⟩
      refine
        ⟨before, piece, after, first, left, right, last, rfl,
          ?_, ?_, hBefore, hLeft, hRight, hAfter, rfl, rfl⟩
      · cases piece with
        | value text => rfl
        | function text => rfl
        | filler text => cases hPiece
      · have hText := text?_segment piece
        rw [hPiece] at hText
        exact (Option.some.inj hText).symm

/- Formatting behind a place does not matter. -/
theorem joins_pushFiller
    {pieces : List Piece}
    {front back us : List Token}
    (hRaw : ∀ t ∈ us, t.raw ≠ "")
    (hJoins : Joins (segments pieces) front back) :
    Joins
      (segments (pushFiller pieces (Token.rawText us)))
      front (back ++ us) := by
  rcases exists_solid_of_joins hJoins with
    ⟨before, piece, after, first, left, right, last, rfl,
      hSolid, hText, hBefore, hLeft, hRight, hAfter, rfl,
      rfl⟩
  rw [pushFiller_append_solid hSolid, List.append_assoc]
  exact
    joins_of_solid hSolid hText hBefore hLeft hRight
      (covers_pushFiller hRaw hAfter)

/- Pieces behind a place do not matter. -/
theorem joins_foldl_push
    {pieces others : List Piece}
    {front back us : List Token}
    (hRaw : ∀ t ∈ us, t.raw ≠ "")
    (hJoins : Joins (segments pieces) front back)
    (hOthers : Covers (segments others) us) :
    Joins (segments (others.foldl push pieces))
      front (back ++ us) := by
  rcases exists_solid_of_joins hJoins with
    ⟨before, piece, after, first, left, right, last, rfl,
      hSolid, hText, hBefore, hLeft, hRight, hAfter, rfl,
      rfl⟩
  rw [foldl_push_append_solid hSolid, List.append_assoc]
  exact
    joins_of_solid hSolid hText hBefore hLeft hRight
      (covers_foldl_push hRaw hAfter hOthers)

/- Pieces in front of a place do not matter. -/
theorem foldl_push_joins
    {pieces others : List Piece}
    {ts front back : List Token}
    (hRaw : ∀ t ∈ front ++ back, t.raw ≠ "")
    (hCovers : Covers (segments pieces) ts)
    (hJoins : Joins (segments others) front back) :
    Joins (segments (others.foldl push pieces))
      (ts ++ front) back := by
  rcases exists_solid_of_joins hJoins with
    ⟨before, piece, after, first, left, right, last, rfl,
      hSolid, hText, hBefore, hLeft, hRight, hAfter, rfl,
      rfl⟩
  have hRawFirst : ∀ t ∈ first, t.raw ≠ "" :=
    fun t hMem => hRaw t (by simp [hMem])
  have hRawLast : ∀ t ∈ last, t.raw ≠ "" :=
    fun t hMem => hRaw t (by simp [hMem])
  have hPush :
      ∀ ps : List Piece, push ps piece = ps ++ [piece] := by
    intro ps
    cases piece with
    | value text => rfl
    | function text => rfl
    | filler text => cases hSolid
  have hNone : Covers (segments []) [] := .nil
  rw [List.foldl_append, List.foldl_cons, hPush,
    foldl_push_append_solid hSolid, ← List.append_assoc]
  exact
    joins_of_solid hSolid hText
      (covers_foldl_push hRawFirst hCovers hBefore) hLeft
      hRight (covers_foldl_push hRawLast hNone hAfter)

end Piece

end LosslessCss
