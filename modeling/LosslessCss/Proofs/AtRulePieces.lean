import LosslessCss.Proofs.DeclarationValues
import LosslessCss.Proofs.Editing
import LosslessCss.Proofs.Reparse
import LosslessCss.Proofs.SelectorSplitting
import LosslessCss.Proofs.SingleRecognition
import LosslessCss.Proofs.TokenShapes

/-
  The pieces of at-rules.

  An at-rule keeps the text between its keyword and its end
  in pieces.  They are in normal form: none of them is empty
  and no two of them could be joined.  Which pieces there
  are is said by the tokens of the at-rule, found again in
  the text by the path to its node.

  Key definitions include:
    * `Piece.Normal`
    * `Piece.gap`
    * `Form.Arranged`
    * `Form.Finished`
    * `Form.ReadFrom`

  Key theorems include:
    * `Piece.foldl_push_of_normal`
    * `Form.Statement.exists_arranged`
    * `Form.Arranged.normal`
    * `Form.Whole.found_at`
    * `Parse.at_rule_pieces`
-/

------------------------------------------------------------
-- Arrangements of Pieces
------------------------------------------------------------

namespace LosslessCss

namespace Piece

/- Formatting is joined, and no piece is without a text. -/
structure Normal (pieces : List Piece) : Prop where
  separated : Value.Separated pieces
  text_ne_empty : ∀ p ∈ pieces, p.text ≠ ""

/- The piece of a run of formatting, if there is any. -/
def gap : List Token → List Piece
| [] => []
| t :: ts => [.filler (Token.rawText (t :: ts))]

/- The piece of a run that is no formatting, likewise. -/
def body : List Token → List Piece
| [] => []
| t :: ts => [.value (Token.rawText (t :: ts))]

end Piece

namespace Form

/-
  The pieces of an at-rule.  The tokens are those behind its
  keyword, and `mark` is the semicolon, if it has one.
-/
inductive Arranged :
    AtRule → List Token → List Token → List Piece →
      Prop where
  | parameters
      {name : BlockRule}
      {leading core trailing : List Token}
      (hFrames : Token.Frames leading core trailing) :
      Arranged (.block name) (leading ++ (core ++ trailing))
        []
        (Piece.gap leading ++
          (Piece.body core ++ Piece.gap trailing))
  | charsetRule
      {leading trailing mark : List Token}
      {t : Token}
      (hLeading : Fillers leading)
      (hQuoted : Grammar.isDoubleQuoted t = true)
      (hTrailing : Fillers trailing) :
      Arranged (.statement .charsetRule)
        (leading ++ t :: trailing) mark
        (Piece.gap leading ++
          .value t.raw :: Piece.gap (trailing ++ mark))
  | importRule
      {leading url trailing mark : List Token}
      {address : Piece}
      (hLeading : Fillers leading)
      (hUrl : Address url address)
      (hTrailing : Fillers trailing) :
      Arranged (.statement .importRule)
        (leading ++ (url ++ trailing)) mark
        (Piece.gap leading ++
          address :: Piece.gap (trailing ++ mark))
  | conditionalImport
      {leading url inner core trailing mark : List Token}
      {address : Piece}
      (hLeading : Fillers leading)
      (hUrl : Address url address)
      (hCore : core ≠ [])
      (hFrames : Token.Frames inner core trailing) :
      Arranged (.statement .importRule)
        (leading ++
          (url ++ (inner ++ (core ++ trailing))))
        mark
        (Piece.gap leading ++
          address :: (Piece.gap inner ++
            .value (Token.rawText core) ::
              Piece.gap (trailing ++ mark)))
  | namespaceRule
      {leading url trailing mark : List Token}
      {address : Piece}
      (hLeading : Fillers leading)
      (hUrl : Address url address)
      (hTrailing : Fillers trailing) :
      Arranged (.statement .namespaceRule)
        (leading ++ (url ++ trailing)) mark
        (Piece.gap leading ++
          address :: Piece.gap (trailing ++ mark))
  | namedNamespace
      {leading inner url trailing mark : List Token}
      {t : Token}
      {address : Piece}
      (hLeading : Fillers leading)
      (hIdent : t.isIdent = true)
      (hInner : Fillers inner)
      (hUrl : Address url address)
      (hTrailing : Fillers trailing) :
      Arranged (.statement .namespaceRule)
        (leading ++ t :: (inner ++ (url ++ trailing))) mark
        (Piece.gap leading ++
          .value t.raw :: (Piece.gap inner ++
            address :: Piece.gap (trailing ++ mark)))

end Form

namespace Node

/- The at-rule of a node and its pieces. -/
def atRule? : Node → Option (AtRule × List Piece)
| .leaf (.statement name pieces) _ _ =>
    some (.statement name, pieces)
| .block (.atRule name pieces) _ _ _ _ =>
    some (.block name, pieces)
| _ => none

/-
  The path leads to the last child of a block, and there is
  no formatting between it and the end of the block.
-/
def LastIn
    (root : Node)
    (path : List Nat) : Prop :=
  ∃ parent index opening children location before,
    path = parent ++ [index] ∧
      root.at? parent =
        some (.block opening children "" location before) ∧
      index + 1 = children.length

end Node

namespace Form

/-
  How an at-rule at a path ends.  A block is opened behind
  the pieces.  The semicolon of a statement is the end of
  the last piece, which is formatting.  Without a semicolon
  only a right brace or the end of the input follows.
-/
inductive Finished
    (root : Node)
    (path : List Nat)
    (pieces : List Piece) :
    AtRule → List Token → List Token → Prop where
  | block
      {name : BlockRule}
      {left : Token}
      {rest : List Token}
      (hLeft : Grammar.isLeftCurly left = true) :
      Finished root path pieces (.block name) []
        (left :: rest)
  | semicolon
      {name : StatementRule}
      {t : Token}
      {rest : List Token}
      {text : String}
      (hKind : t.kind = .semicolon)
      (hLast :
        pieces.getLast? = some (.filler (text ++ ";"))) :
      Finished root path pieces (.statement name) [t] rest
  | last
      {name : StatementRule}
      {rest : List Token}
      (hRest :
        ∀ t ∈ rest.head?, Grammar.isRightCurly t = true)
      (hLast : root.LastIn path) :
      Finished root path pieces (.statement name) [] rest

/-
  The at-rule of a node has its place among some tokens: the
  keyword, what the pieces are arranged from, and the mark.
-/
def ReadFrom
    (ts : List Token)
    (root : Node)
    (path : List Nat)
    (node : Node)
    (name : AtRule)
    (pieces : List Piece) : Prop :=
  ∃ front keyword own mark back,
    ts = front ++ keyword :: (own ++ (mark ++ back)) ∧
      IsKeyword keyword name.keyword ∧
      keyword.location = node.location ∧
      Arranged name own mark pieces ∧
      Finished root path pieces name mark back

end Form

end LosslessCss

------------------------------------------------------------
-- Pieces in Normal Form
------------------------------------------------------------

namespace LosslessCss

namespace Piece

@[simp] theorem gap_nil :
    gap [] = [] :=
  rfl

theorem gap_of_ne_nil
    {ts : List Token}
    (hSome : ts ≠ []) :
    gap ts = [.filler (Token.rawText ts)] := by
  cases ts with
  | nil => exact absurd rfl hSome
  | cons t ts => rfl

theorem body_of_ne_nil
    {ts : List Token}
    (hSome : ts ≠ []) :
    body ts = [.value (Token.rawText ts)] := by
  cases ts with
  | nil => exact absurd rfl hSome
  | cons t ts => rfl

theorem normal_gap
    {ts : List Token}
    (hRaw : ∀ t ∈ ts, t.raw ≠ "") :
    Normal (gap ts) := by
  by_cases hNone : ts = []
  · subst hNone
    exact ⟨.nil, by simp⟩
  · rw [gap_of_ne_nil hNone]
    refine ⟨List.isChain_singleton _, ?_⟩
    intro p hMem hText
    rw [List.mem_singleton.mp hMem] at hText
    exact hNone (Token.eq_nil_of_rawText hRaw hText)

/- What is no formatting keeps the pieces apart. -/
theorem Normal.solid_cons
    {p : Piece}
    {pieces : List Piece}
    (hNormal : Normal pieces)
    (hSolid : p.isFiller = false)
    (hText : p.text ≠ "") :
    Normal (p :: pieces) where
  separated := by
    refine List.isChain_cons.mpr ⟨?_, hNormal.separated⟩
    exact fun _ _ => .inl hSolid
  text_ne_empty :=
    List.forall_mem_cons.mpr ⟨hText, hNormal.text_ne_empty⟩

theorem Normal.gap_append
    {p : Piece}
    {pieces : List Piece}
    {ts : List Token}
    (hNormal : Normal (p :: pieces))
    (hSolid : p.isFiller = false)
    (hRaw : ∀ t ∈ ts, t.raw ≠ "") :
    Normal (gap ts ++ p :: pieces) where
  separated := by
    refine
      List.isChain_append.mpr
        ⟨(normal_gap hRaw).separated, hNormal.separated, ?_⟩
    intro q _ r hFirst
    obtain rfl : p = r := by simpa using hFirst
    exact .inr hSolid
  text_ne_empty :=
    List.forall_mem_append.mpr
      ⟨(normal_gap hRaw).text_ne_empty,
        hNormal.text_ne_empty⟩

/- Formatting in front of something solid, and more. -/
theorem Normal.gap_solid
    {p : Piece}
    {pieces : List Piece}
    {ts : List Token}
    (hNormal : Normal pieces)
    (hSolid : p.isFiller = false)
    (hText : p.text ≠ "")
    (hRaw : ∀ t ∈ ts, t.raw ≠ "") :
    Normal (gap ts ++ p :: pieces) :=
  (hNormal.solid_cons hSolid hText).gap_append hSolid hRaw

theorem Normal.left
    {ps qs : List Piece}
    (hNormal : Normal (ps ++ qs)) :
    Normal ps where
  separated :=
    (List.isChain_append.mp hNormal.separated).1
  text_ne_empty p hMem :=
    hNormal.text_ne_empty p (List.mem_append_left qs hMem)

/- A piece that keeps the normal form is not joined. -/
theorem push_of_normal
    {pieces : List Piece}
    {p : Piece}
    (hNormal : Normal (pieces ++ [p])) :
    push pieces p = pieces ++ [p] := by
  cases p with
  | value text => rfl
  | function text => rfl
  | filler text =>
      have hText : text ≠ "" :=
        hNormal.text_ne_empty (.filler text) (by simp)
      have hLast :
          ∀ q ∈ pieces.getLast?, q.isFiller = false := by
        intro q hMem
        rcases (List.isChain_append.mp hNormal.separated).2.2
            q hMem (.filler text) rfl with hSolid | hFiller
        · exact hSolid
        · cases hFiller
      rw [push, pushFiller, if_neg hText]
      split
      · rename_i last hSome
        cases hLast _ hSome
      · rfl

/- Pieces that keep the normal form are just appended. -/
theorem foldl_push_of_normal
    {pieces others : List Piece}
    (hNormal : Normal (pieces ++ others)) :
    others.foldl push pieces = pieces ++ others := by
  induction others generalizing pieces with
  | nil => simp
  | cons p others ih =>
      rw [← List.singleton_append,
        ← List.append_assoc] at hNormal
      rw [List.foldl_cons, push_of_normal hNormal.left,
        ih hNormal, List.append_assoc, List.singleton_append]

theorem isFiller_getLast?_concat
    {p : Piece}
    (hSolid : p.isFiller = false)
    (pieces : List Piece) :
    ∀ q ∈ (pieces ++ [p]).getLast?, q.isFiller = false := by
  simpa using hSolid

variable {pieces : List Piece} {ts us : List Token}

/- Formatting joins the formatting that comes last. -/
theorem pushFiller_gap
    (hLast : ∀ p ∈ pieces.getLast?, p.isFiller = false)
    (hRaw : ∀ t ∈ us, t.raw ≠ "") :
    pushFiller (pieces ++ gap ts) (Token.rawText us) =
      pieces ++ gap (ts ++ us) := by
  by_cases hNone : us = []
  · subst hNone
    rw [List.append_nil]
    exact if_pos rfl
  have hText : Token.rawText us ≠ "" := by
    intro hText
    exact hNone (Token.eq_nil_of_rawText hRaw hText)
  rw [pushFiller, if_neg hText]
  by_cases hFirst : ts = []
  · subst hFirst
    rw [gap_nil, List.append_nil, List.nil_append,
      gap_of_ne_nil hNone]
    split
    · rename_i last hSome
      cases hLast _ hSome
    · rfl
  · have hBoth : ts ++ us ≠ [] := by simp [hFirst]
    rw [gap_of_ne_nil hFirst, gap_of_ne_nil hBoth,
      List.getLast?_concat, List.dropLast_concat,
      Token.rawText_append]

theorem pushFiller_rawText
    (hLast : ∀ p ∈ pieces.getLast?, p.isFiller = false)
    (hRaw : ∀ t ∈ us, t.raw ≠ "") :
    pushFiller pieces (Token.rawText us) =
      pieces ++ gap us := by
  have hPush :
      pushFiller (pieces ++ gap []) (Token.rawText us) =
        pieces ++ gap ([] ++ us) :=
    pushFiller_gap hLast hRaw
  rwa [gap_nil, List.append_nil, List.nil_append] at hPush

/- Formatting and the mark behind it make one piece. -/
theorem pushFiller_pushFiller
    (hLast : ∀ p ∈ pieces.getLast?, p.isFiller = false)
    (hRaw : ∀ t ∈ ts ++ us, t.raw ≠ "") :
    pushFiller (pushFiller pieces (Token.rawText ts))
        (Token.rawText us) =
      pieces ++ gap (ts ++ us) := by
  rw [List.forall_mem_append] at hRaw
  rw [pushFiller_rawText hLast hRaw.1,
    pushFiller_gap hLast hRaw.2]

end Piece

end LosslessCss

------------------------------------------------------------
-- Arranged At-Rules
------------------------------------------------------------

namespace LosslessCss

open Grammar

/- Where a run ends does not depend on its front. -/
theorem Token.Stops.reverse_append
    {p : Token → Bool}
    {us : List Token}
    (hStops : Stops p us.reverse)
    (hSome : us ≠ [])
    (ts : List Token) :
    Stops p (ts ++ us).reverse := by
  rw [List.reverse_append]
  cases hReverse : us.reverse with
  | nil => exact absurd hReverse (by simpa using hSome)
  | cons u others => simpa [hReverse] using hStops

namespace Form

theorem Address.isFiller_eq
    {ts : List Token}
    {piece : Piece}
    (hForm : Address ts piece) :
    piece.isFiller = false := by
  cases hForm with
  | token _ => rfl
  | call _ _ => rfl

theorem Address.text_ne_empty
    {ts : List Token}
    {piece : Piece}
    (hForm : Address ts piece)
    (hRaw : ∀ t ∈ ts, t.raw ≠ "") :
    piece.text ≠ "" := by
  rw [hForm.text_eq]
  intro hText
  have hNone := Token.eq_nil_of_rawText hRaw hText
  subst hNone
  cases hForm

theorem Chunks.ne_nil
    {p : Token → Bool}
    {ts : List Token}
    {chunk : Chunk}
    {chunks : List Chunk}
    (hForm : Chunks opens? p ts (chunk :: chunks)) :
    ts ≠ [] := by
  cases hForm with
  | token _ _ _ => simp
  | span _ _ _ _ => simp

/- The last token of chunks is in the last chunk. -/
theorem Chunks.stops_reverse
    {p : Token → Bool}
    {ts : List Token}
    {chunks : List Chunk}
    (hForm : Chunks opens? p ts chunks)
    (hLast :
      ∀ chunk ∈ chunks.getLast?, chunk.isFiller = false) :
    Token.Stops Token.isFiller ts.reverse := by
  induction hForm with
  | nil => exact Token.stops_nil
  | @token t ts chunks _ _ hRest ih =>
      cases chunks with
      | nil =>
          cases hRest
          simpa [Chunk.isFiller] using hLast
      | cons chunk chunks =>
          have hTail := ih (by simpa using hLast)
          exact hTail.reverse_append hRest.ne_nil [t]
  | @span t opener body ts chunks _ _ hBody hRest ih =>
      cases chunks with
      | nil =>
          cases hRest
          rcases hBody.exists_last with
            ⟨front, last, rfl, hCloses⟩
          simpa using isFiller_of_closes hCloses
      | cons chunk chunks =>
          have hTail := ih (by simpa using hLast)
          exact hTail.reverse_append hRest.ne_nil (t :: body)

/- A fragment is told apart into formatting and a core. -/
theorem Fragment.exists_frames
    {ends : Token → Bool}
    {ts rest : List Token}
    {pieces : List Piece}
    (hForm : Fragment ends ts rest pieces)
    (hRaw : ∀ t ∈ ts, t.raw ≠ "") :
    ∃ leading core trailing,
      ts = leading ++ (core ++ trailing) ∧
        Token.Frames leading core trailing ∧
        pieces =
          Piece.gap leading ++
            (Piece.body core ++ Piece.gap trailing) := by
  rcases fragment_iff.mp hForm with
    ⟨leading, core, trailing, chunks, rfl, hLeading, hCore,
      hLast, hTrailing, -, hStart, -, rfl⟩
  rw [List.forall_mem_append, List.forall_mem_append] at hRaw
  rcases hRaw with ⟨hFront, hMiddle, hBack⟩
  have hEmpty : core = [] → trailing = [] := by
    rintro rfl
    cases trailing with
    | nil => rfl
    | cons t trailing =>
        have hNot : t.isFiller = false := by
          simpa using hStart
        rw [hTrailing t (by simp)] at hNot
        cases hNot
  have hFrames : Token.Frames leading core trailing :=
    { leading_filler := hLeading
      trailing_filler := hTrailing
      first_stops := by
        cases core with
        | nil => exact Token.stops_nil
        | cons t core => simpa using hStart
      last_stops := hCore.stops_reverse hLast
      trailing_eq_nil := hEmpty }
  refine ⟨leading, core, trailing, rfl, hFrames, ?_⟩
  have hGap :
      Piece.pushFiller [] (Token.rawText leading) =
        Piece.gap leading :=
    Piece.pushFiller_rawText (by simp) hFront
  unfold fragmentPieces
  simp only
  rw [hGap]
  by_cases hNone : core = []
  · rw [hEmpty hNone, hNone]
    simp [Token.rawText, Piece.body, Piece.pushFiller]
  · have hText : Token.rawText core ≠ "" := by
      intro hText
      exact hNone (Token.eq_nil_of_rawText hMiddle hText)
    rw [if_neg hText, Piece.body_of_ne_nil hNone,
      Piece.pushFiller_rawText
        (Piece.isFiller_getLast?_concat rfl _) hBack,
      List.append_assoc]

/- An address stands between other pieces. -/
theorem Address.normal_append
    {url leading : List Token}
    {address : Piece}
    {pieces : List Piece}
    (hUrl : Address url address)
    (hNormal : Piece.Normal pieces)
    (hLeading : ∀ t ∈ leading, t.raw ≠ "")
    (hAddress : ∀ t ∈ url, t.raw ≠ "") :
    Piece.Normal (Piece.gap leading ++ address :: pieces) :=
  hNormal.gap_solid hUrl.isFiller_eq
    (hUrl.text_ne_empty hAddress) hLeading

/- The value of a statement is arranged, up to its mark. -/
theorem Statement.exists_arranged
    {name : StatementRule}
    {ts rest : List Token}
    {pieces : List Piece}
    (hForm : Statement name ts rest pieces)
    (hRaw : ∀ t ∈ ts, t.raw ≠ "") :
    ∃ own mark,
      ts = own ++ mark ∧ End mark rest ∧
        Arranged (.statement name) own mark pieces := by
  cases hForm with
  | @charsetRule blank inner mark _ t
      hBlank hQuoted hInner hEnd =>
      simp only [List.forall_mem_append,
        List.forall_mem_cons] at hRaw
      rcases hRaw with ⟨hFront, -, hBack⟩
      refine ⟨blank ++ t :: inner, mark, by simp, hEnd, ?_⟩
      rw [Piece.pushFiller_rawText (by simp) hFront,
        Piece.pushFiller_pushFiller
          (Piece.isFiller_getLast?_concat rfl _)
          (List.forall_mem_append.mpr hBack)]
      simpa using .charsetRule hBlank hQuoted hInner
  | @importRule blank url conditions mark _ address pieces
      hBlank hUrl hConditions hEnd =>
      simp only [List.forall_mem_append] at hRaw
      rcases hRaw with ⟨hFront, hAddress, hMiddle, hMark⟩
      rcases hConditions.exists_frames hMiddle with
        ⟨inner, core, trailing, rfl, hFrames, rfl⟩
      simp only [List.forall_mem_append] at hMiddle
      rcases hMiddle with ⟨hInner, hCore, hTrailing⟩
      rw [Piece.pushFiller_rawText (by simp) hFront,
        List.nil_append]
      by_cases hNone : core = []
      · -- All formatting behind the address is one piece.
        subst hNone
        obtain rfl := hFrames.trailing_eq_nil rfl
        have hNormal :=
          hUrl.normal_append (Piece.normal_gap hInner) hFront
            hAddress
        have hAll :
            (Piece.gap inner).foldl Piece.push
                (Piece.gap blank ++ [address]) =
              Piece.gap blank ++ [address] ++
                Piece.gap inner :=
          Piece.foldl_push_of_normal (by simpa using hNormal)
        refine
          ⟨blank ++ (url ++ inner), mark, by simp, hEnd, ?_⟩
        simp only [Piece.body, Piece.gap_nil,
          List.append_nil]
        rw [hAll,
          Piece.pushFiller_gap
            (Piece.isFiller_getLast?_concat hUrl.isFiller_eq _)
            hMark]
        simpa using
          .importRule hBlank hUrl hFrames.leading_filler
      · let value := Piece.value (Token.rawText core)
        have hText : value.text ≠ "" := by
          intro hText
          exact hNone (Token.eq_nil_of_rawText hCore hText)
        have hTail :
            Piece.Normal
              (Piece.gap inner ++
                value :: Piece.gap trailing) :=
          (Piece.normal_gap hTrailing).gap_solid rfl hText
            hInner
        have hNormal :=
          hUrl.normal_append hTail hFront hAddress
        have hAll :
            (Piece.gap inner ++
                value :: Piece.gap trailing).foldl
                Piece.push (Piece.gap blank ++ [address]) =
              Piece.gap blank ++ address :: Piece.gap inner ++
                [value] ++ Piece.gap trailing := by
          rw [Piece.foldl_push_of_normal
            (by simpa using hNormal)]
          simp
        refine
          ⟨blank ++ (url ++ (inner ++ (core ++ trailing))),
            mark, by simp, hEnd, ?_⟩
        rw [Piece.body_of_ne_nil hNone, List.singleton_append,
          hAll,
          Piece.pushFiller_gap
            (Piece.isFiller_getLast?_concat rfl _) hMark]
        simpa using
          .conditionalImport hBlank hUrl hNone hFrames
  | @namespaceRule front url inner mark _ pieces address
      hName hUrl hInner hEnd =>
      simp only [List.forall_mem_append] at hRaw
      rcases hRaw with ⟨hFront, -, hBack⟩
      rw [Piece.pushFiller_pushFiller
        (Piece.isFiller_getLast?_concat hUrl.isFiller_eq _)
        (List.forall_mem_append.mpr hBack)]
      cases hName with
      | absent hBlank =>
          refine
            ⟨front ++ (url ++ inner), mark, by simp, hEnd,
              ?_⟩
          rw [Piece.pushFiller_rawText (by simp) hFront]
          simpa using .namespaceRule hBlank hUrl hInner
      | @present blank middle t hBlank hIdent hMiddle =>
          simp only [List.forall_mem_append,
            List.forall_mem_cons] at hFront
          rcases hFront with ⟨hLeading, -, hGap⟩
          refine
            ⟨blank ++ t :: (middle ++ (url ++ inner)), mark,
              by simp, hEnd, ?_⟩
          rw [Piece.pushFiller_rawText (by simp) hLeading,
            Piece.pushFiller_rawText
              (Piece.isFiller_getLast?_concat rfl _) hGap]
          simpa using
            .namedNamespace hBlank hIdent hMiddle hUrl hInner

/- What is arranged is in normal form. -/
theorem Arranged.normal
    {name : AtRule}
    {own mark : List Token}
    {pieces : List Piece}
    (hForm : Arranged name own mark pieces)
    (hOwn : ∀ t ∈ own, t.raw ≠ "")
    (hMark : ∀ t ∈ mark, t.raw ≠ "") :
    Piece.Normal pieces := by
  have hEnd :
      ∀ {trailing : List Token},
        (∀ t ∈ trailing, t.raw ≠ "") →
          Piece.Normal (Piece.gap (trailing ++ mark)) :=
    fun hRaw =>
      Piece.normal_gap
        (List.forall_mem_append.mpr ⟨hRaw, hMark⟩)
  have hText :
      ∀ {core : List Token},
        (∀ t ∈ core, t.raw ≠ "") → core ≠ [] →
          (Piece.value (Token.rawText core)).text ≠ "" :=
    fun hRaw hSome hNone =>
      hSome (Token.eq_nil_of_rawText hRaw hNone)
  cases hForm with
  | @parameters _ leading core trailing hFrames =>
      simp only [List.forall_mem_append] at hOwn
      rcases hOwn with ⟨hLeading, hCore, hTrailing⟩
      have hLast := Piece.normal_gap hTrailing
      by_cases hNone : core = []
      · subst hNone
        rw [hFrames.trailing_eq_nil rfl]
        simpa [Piece.body] using Piece.normal_gap hLeading
      · rw [Piece.body_of_ne_nil hNone]
        exact
          hLast.gap_solid rfl (hText hCore hNone) hLeading
  | charsetRule _ _ _ =>
      simp only [List.forall_mem_append,
        List.forall_mem_cons] at hOwn
      rcases hOwn with ⟨hLeading, hValue, hTrailing⟩
      exact (hEnd hTrailing).gap_solid rfl hValue hLeading
  | importRule _ hUrl _ =>
      simp only [List.forall_mem_append] at hOwn
      rcases hOwn with ⟨hLeading, hAddress, hTrailing⟩
      exact
        hUrl.normal_append (hEnd hTrailing) hLeading hAddress
  | conditionalImport _ hUrl hSome _ =>
      simp only [List.forall_mem_append] at hOwn
      rcases hOwn with
        ⟨hLeading, hAddress, hInner, hCore, hTrailing⟩
      have hTail :=
        (hEnd hTrailing).gap_solid rfl (hText hCore hSome)
          hInner
      exact hUrl.normal_append hTail hLeading hAddress
  | namespaceRule _ hUrl _ =>
      simp only [List.forall_mem_append] at hOwn
      rcases hOwn with ⟨hLeading, hAddress, hTrailing⟩
      exact
        hUrl.normal_append (hEnd hTrailing) hLeading hAddress
  | namedNamespace _ _ _ hUrl _ =>
      simp only [List.forall_mem_append,
        List.forall_mem_cons] at hOwn
      rcases hOwn with
        ⟨hLeading, hName, hInner, hAddress, hTrailing⟩
      have hTail :=
        hUrl.normal_append (hEnd hTrailing) hInner hAddress
      exact hTail.gap_solid rfl hName hLeading

end Form

end LosslessCss

------------------------------------------------------------
-- The Items at Paths
------------------------------------------------------------

namespace LosslessCss

open Grammar

namespace Node

/- The last child of a child is the last one of its block. -/
theorem LastIn.cons
    {opening : Opening}
    {left right : List Node}
    {child : Node}
    {after before : String}
    {location : Location}
    {path : List Nat}
    (hLast : child.LastIn path) :
    (block opening (left ++ child :: right) after location
        before).LastIn
      (left.length :: path) := by
  rcases hLast with
    ⟨parent, index, opening, children, location, before, rfl,
      hParent, hIndex⟩
  refine
    ⟨left.length :: parent, index, opening, children,
      location, before, rfl, ?_, hIndex⟩
  simpa [at?] using hParent

theorem lastIn_concat
    {opening : Opening}
    {left : List Node}
    {child : Node}
    {before : String}
    {location : Location} :
    (block opening (left ++ [child]) "" location
        before).LastIn
      [left.length] :=
  ⟨[], left.length, _, _, _, _, rfl, rfl, by simp⟩

end Node

namespace Form

/- No item starts at the end of a list of items. -/
theorem Items.eq_of_rightCurly
    {before : String}
    {ts rest : List Token}
    {block : Block}
    (hForm : Items before ts rest block)
    (hEnd : ∀ t ∈ (ts ++ rest).head?, isRightCurly t = true) :
    ts = [] ∧ block = ⟨[], before⟩ := by
  cases hForm with
  | done => exact ⟨rfl, rfl⟩
  | @separator _ t ts _ _ hSeparator _ =>
      have hKind := isRightCurly_iff_kind.mp (hEnd t rfl)
      simp [isSeparator, hKind] at hSeparator
  | flat hItem _ =>
      rcases hItem.exists_head with ⟨t, hFirst, -, hNot⟩
      have hRight := hEnd t (by simp [hFirst])
      rw [hNot] at hRight
      cases hRight
  | block hHead _ _ _ _ =>
      rcases hHead.exists_head with ⟨t, hFirst, hNot⟩
      have hRight := hEnd t (by simp [hFirst])
      rw [hNot] at hRight
      cases hRight

/- A child has its own tokens, and items come after it. -/
theorem Items.exists_tail_of_append
    {ts rest : List Token}
    {left right : List Node}
    {node : Node}
    {after : String}
    (hForm :
      Items "" ts rest ⟨left ++ node :: right, after⟩) :
    ∃ us first ws,
      ts = us ++ (first ++ ws) ∧
        Child "" first (ws ++ rest) node ∧
        Items "" ws rest ⟨right, after⟩ := by
  induction left generalizing ts with
  | nil =>
      rcases hForm.exists_child rfl with
        ⟨first, tail, rfl, hChild, hTail⟩
      exact ⟨[], first, tail, rfl, hChild, hTail⟩
  | cons other left ih =>
      rcases hForm.exists_child rfl with
        ⟨front, tail, rfl, -, hTail⟩
      rcases ih hTail with
        ⟨us, first, ws, rfl, hChild, hItems⟩
      exact
        ⟨front ++ us, first, ws, by simp, hChild, hItems⟩

/-
  The node at a path is an item of the tokens, and without a
  token but a right brace behind it, it is the last one in
  its block.
-/
def FoundAt
    (root : Node)
    (path : List Nat)
    (node : Node)
    (ts rest : List Token) : Prop :=
  ∃ front item back bare before,
    ts = front ++ (item ++ back) ∧
      Item item (back ++ rest) bare ∧
      node = bare.withBefore before ∧
      ((∀ t ∈ (back ++ rest).head?,
          isRightCurly t = true) →
        root.LastIn path)

/- There may be more tokens around the ones that are known. -/
theorem FoundAt.widen
    {root node : Node}
    {path : List Nat}
    {ts ws rest : List Token}
    (hFound : FoundAt root path node ts (ws ++ rest))
    (us : List Token) :
    FoundAt root path node (us ++ (ts ++ ws)) rest := by
  rcases hFound with
    ⟨front, item, back, bare, before, rfl, hItem, hNode,
      hLast⟩
  refine
    ⟨us ++ front, item, back ++ ws, bare, before, by simp,
      by simpa using hItem, hNode, ?_⟩
  simpa using hLast

/- What is found in a child is found in its block. -/
theorem FoundAt.of_child
    {opening : Opening}
    {left right : List Node}
    {child node : Node}
    {after before : String}
    {location : Location}
    {path : List Nat}
    {ts rest : List Token}
    (hFound : FoundAt child path node ts rest) :
    FoundAt
      (.block opening (left ++ child :: right) after location
        before)
      (left.length :: path) node ts rest := by
  rcases hFound with
    ⟨front, item, back, bare, filler, hTokens, hItem, hNode,
      hLast⟩
  exact
    ⟨front, item, back, bare, filler, hTokens, hItem, hNode,
      fun hEnd => (hLast hEnd).cons⟩

/- An item is found at the position that it has as a child. -/
theorem Child.found_at
    {opening : Opening}
    {left right : List Node}
    {child : Node}
    {after before : String}
    {location : Location}
    {us first ws rest : List Token}
    (hForm : Child "" first (ws ++ rest) child)
    (hTail : Items "" ws rest ⟨right, after⟩) :
    FoundAt
      (.block opening (left ++ child :: right) after location
        before)
      [left.length] child (us ++ (first ++ ws)) rest := by
  cases hForm with
  | @intro front item _ bare _ _ hItem =>
      refine
        ⟨us ++ front, item, ws, bare, _, by simp, hItem, rfl,
          ?_⟩
      intro hEnd
      rcases hTail.eq_of_rightCurly hEnd with ⟨rfl, hLast⟩
      cases hLast
      exact Node.lastIn_concat

/- In a list of items everything is found. -/
theorem Items.found_at
    {index : Nat}
    {path : List Nat}
    {root node : Node}
    {block : Block}
    {ts rest : List Token}
    (hForm : Items "" ts rest block)
    (hBlock : root.block? = some block)
    (hAt : root.at? (index :: path) = some node) :
    FoundAt root (index :: path) node ts rest := by
  induction path generalizing index root block ts rest with
  | nil =>
      rcases Node.exists_child_of_at? hAt with
        ⟨opening, left, child, right, after, location,
          before, rfl, rfl, hChild⟩
      cases hBlock
      cases hChild
      rcases hForm.exists_tail_of_append with
        ⟨us, first, ws, rfl, hFirst, hTail⟩
      exact hFirst.found_at hTail
  | cons next path ih =>
      rcases Node.exists_child_of_at? hAt with
        ⟨opening, left, child, right, after, location,
          before, rfl, rfl, hChild⟩
      cases hBlock
      rcases hForm.exists_tail_of_append with
        ⟨us, first, ws, rfl, hFirst, -⟩
      cases child with
      | leaf _ _ _ => cases hChild
      | block _ _ _ _ _ =>
          rcases hFirst.exists_body with
            ⟨front, head, body, brace, rfl, -, -, hBody, -⟩
          have hFound :
              FoundAt _ _ node body ([brace] ++ (ws ++ rest)) :=
            ih hBody rfl hChild
          have hAll := (hFound.widen (front ++ head)).widen us
          simp only [List.append_assoc] at hAll ⊢
          exact hAll.of_child

/- The same within a single item. -/
theorem Item.found_at
    {next : Nat}
    {path : List Nat}
    {bare node : Node}
    {before : String}
    {item rest : List Token}
    (hForm : Item item rest bare)
    (hAt :
      (bare.withBefore before).at? (next :: path) =
        some node) :
    FoundAt (bare.withBefore before) (next :: path) node item
      rest := by
  cases hForm with
  | flat _ => cases hAt
  | @block head body _ brace opening inner _ hBody _ =>
      have hFound :
          FoundAt _ _ node body ([brace] ++ rest) :=
        hBody.found_at rfl hAt
      exact hFound.widen head

/- A whole input is a list of items or one of them. -/
theorem Whole.found_at
    {index : Nat}
    {path : List Nat}
    {root node : Node}
    {block : Block}
    {ts : List Token}
    (hForm : Whole ts block)
    (hBlock : root.block? = some block)
    (hAt : root.at? (index :: path) = some node) :
    FoundAt root (index :: path) node ts [] := by
  cases hForm with
  | items hItems => exact hItems.found_at hBlock hAt
  | @single before item after bare hBefore hItem hAfter =>
      rcases Node.exists_child_of_at? hAt with
        ⟨opening, left, child, right, _, location, _, rfl,
          rfl, hChild⟩
      simp only [Node.block?, Option.some.injEq,
        Block.mk.injEq] at hBlock
      rcases hBlock with ⟨hChildren, rfl⟩
      obtain ⟨rfl, rfl, rfl⟩ :
          left = [] ∧ child = bare.withBefore _ ∧
            right = [] := by
        cases left with
        | nil => simpa using hChildren
        | cons _ _ => simp at hChildren
      cases path with
      | nil =>
          cases hChild
          refine
            ⟨before, item, after, bare, _, rfl,
              by simpa using hItem, rfl, ?_⟩
          intro hEnd
          cases after with
          | nil => exact Node.lastIn_concat
          | cons t after =>
              have hKind :=
                isRightCurly_iff_kind.mp (hEnd t rfl)
              have hFiller := hAfter t (by simp)
              simp [Token.isFiller, Token.isWhitespace,
                Token.isComment, hKind] at hFiller
      | cons next path =>
          have hFound :
              FoundAt _ _ node item (after ++ []) :=
            Item.found_at (by simpa using hItem) hChild
          apply FoundAt.of_child
          exact hFound.widen before

end Form

end LosslessCss

------------------------------------------------------------
-- At-Rules in Parsed Trees
------------------------------------------------------------

namespace LosslessCss

open TokenSource (upcoming)

open Grammar

namespace Scan

/- Semicolons are spelled the usual way. -/
theorem raw_token_of_semicolon
    {input : List Char}
    (hKind : (token input).value = .semicolon) :
    (token input).raw = [';'] := by
  have hPunctuation :
      (token input).value.isPunctuation = true := by
    rw [hKind]
    rfl
  rcases isPunctuation_token_cases hPunctuation with
    rfl | hComment | ⟨c, rest, kind, rfl, hMark⟩
  · cases hKind
  · rcases exists_comment_of_startsComment hComment with
      ⟨text, hText⟩
    rw [hText] at hKind
    cases hKind
  · rw [token_of_mark hMark] at hKind ⊢
    obtain rfl : kind = .semicolon := hKind
    unfold mark? at hMark
    split at hMark <;> cases hMark
    rfl

end Scan

namespace PulledText

theorem raw_of_semicolon
    {css : String}
    {here : Location}
    {t : Token}
    (hMem : t ∈ upcoming (ofText css here))
    (hKind : t.kind = .semicolon) :
    t.raw = ";" := by
  rcases List.append_of_mem hMem with ⟨left, right, hTokens⟩
  rcases Lexer.token_of_upcoming hTokens with
    ⟨complete, hToken⟩
  have hValue :
      (Scan.token
          (Token.rawText (t :: right)).toList).value =
        .semicolon := by
    rw [hToken]
    exact hKind
  have hRaw := Scan.raw_token_of_semicolon hValue
  rw [hToken] at hRaw
  exact String.toList_injective hRaw

end PulledText

namespace Form

/- The mark of a statement is the end of its last piece. -/
theorem Arranged.getLast?_eq
    {name : StatementRule}
    {own : List Token}
    {t : Token}
    {pieces : List Piece}
    (hForm : Arranged (.statement name) own [t] pieces) :
    ∃ text,
      pieces.getLast? = some (.filler (text ++ t.raw)) := by
  have hGap :
      ∀ trailing : List Token,
        Piece.gap (trailing ++ [t]) =
          [.filler (Token.rawText trailing ++ t.raw)] := by
    intro trailing
    rw [Piece.gap_of_ne_nil (by simp), Token.rawText_append]
    simp [Token.rawText]
  cases hForm with
  | @charsetRule _ trailing =>
      exact ⟨Token.rawText trailing, by simp [hGap]⟩
  | @importRule _ _ trailing =>
      exact ⟨Token.rawText trailing, by simp [hGap]⟩
  | @conditionalImport _ _ _ _ trailing =>
      exact
        ⟨Token.rawText trailing,
          by simp [hGap, List.getLast?_cons]⟩
  | @namespaceRule _ _ trailing =>
      exact ⟨Token.rawText trailing, by simp [hGap]⟩
  | @namedNamespace _ _ _ trailing =>
      exact
        ⟨Token.rawText trailing,
          by simp [hGap, List.getLast?_cons]⟩

/- An at-rule that is found is read from its tokens. -/
theorem FoundAt.readFrom
    {root node : Node}
    {path : List Nat}
    {ts : List Token}
    {name : AtRule}
    {pieces : List Piece}
    (hFound : FoundAt root path node ts [])
    (hRule : node.atRule? = some (name, pieces))
    (hRaw : ∀ t ∈ ts, t.raw ≠ "")
    (hSemicolon :
      ∀ t ∈ ts, t.kind = .semicolon → t.raw = ";") :
    ReadFrom ts root path node name pieces := by
  rcases hFound with
    ⟨front, item, back, bare, before, rfl, hItem, rfl, hLast⟩
  rw [List.append_nil] at hItem hLast
  simp only [List.forall_mem_append] at hRaw hSemicolon
  rcases hRaw with ⟨-, hRaw, -⟩
  rcases hSemicolon with ⟨-, hSemicolon, -⟩
  cases hItem with
  | flat hFlat =>
      cases hFlat with
      | comment _ => cases hRule
      | @statement keyword name ts _ pieces
          hKeyword hStatement =>
          cases hRule
          rcases hStatement.exists_arranged
              (List.forall_mem_cons.mp hRaw).2 with
            ⟨own, mark, rfl, hEnd, hArranged⟩
          refine
            ⟨front, keyword, own, mark, back, by simp,
              hKeyword, rfl, hArranged, ?_⟩
          cases hEnd with
          | @semicolon t _ hKind =>
              have hSpelled := hSemicolon t (by simp) hKind
              rcases hArranged.getLast?_eq with ⟨text, hText⟩
              rw [hSpelled] at hText
              exact .semicolon hKind hText
          | nothing hRest => exact .last hRest (hLast hRest)
      | @declaration _ _ _ leaf _ _ hContent =>
          rcases hContent.leaf_eq with
            ⟨property, between, value, important, rfl⟩
          cases hRule
  | @block head body _ right opening inner hHead hBody hRight =>
      cases hHead with
      | rule _ _ _ _ => cases hRule
      | @atRule keyword left name params _
          hKeyword hParameters hLeft =>
          cases hRule
          have hOwn : ∀ t ∈ params, t.raw ≠ "" :=
            fun t hMem => hRaw t (by simp [hMem])
          rcases hParameters.exists_frames hOwn with
            ⟨leading, core, trailing, rfl, hFrames, rfl⟩
          exact
            ⟨front, keyword, _, [],
              left :: (body ++ right :: back), by simp,
              hKeyword, rfl, .parameters hFrames,
              .block hLeft⟩

end Form

namespace Parse

/-
  The pieces of at-rules.  Wherever a node of a parsed tree
  is an at-rule, they are in normal form and arranged from
  the tokens between its keyword and its end.  A semicolon
  at the end is the last character of the last piece.  A
  statement without one is the last node in its block.
-/
theorem at_rule_pieces
    {css : String}
    {settings : Settings}
    {root node : Node}
    {path : List Nat}
    {name : AtRule}
    {pieces : List Piece}
    (hParse : text css settings = .ok root)
    (hAt : root.at? path = some node)
    (hRule : node.atRule? = some (name, pieces)) :
    Piece.Normal pieces ∧
      Form.ReadFrom
        (upcoming (PulledText.ofText css settings.location))
        root path node name pieces := by
  rcases form_of_text hParse with ⟨block, hForm, rfl⟩
  have hRaw :=
    (Lexer.ofText css
      settings.location).raw_ne_empty_of_mem_upcoming
  cases path with
  | nil =>
      cases hAt
      cases hRule
  | cons index path =>
      have hRead :=
        (hForm.found_at rfl hAt).readFrom hRule hRaw
          fun t => PulledText.raw_of_semicolon
      refine ⟨?_, hRead⟩
      rcases hRead with
        ⟨front, keyword, own, mark, back, hTokens, -, -,
          hArranged, -⟩
      have hAll :
          ∀ t ∈ front ++ keyword :: (own ++ (mark ++ back)),
            t.raw ≠ "" := by
        rw [← hTokens]
        exact hRaw
      simp only [List.forall_mem_append,
        List.forall_mem_cons] at hAll
      rcases hAll with ⟨-, -, hOwn, hMark, -⟩
      exact hArranged.normal hOwn hMark

/-
  An import in a block, with a comment between its address
  and its conditions and a blank in front of its semicolon.
-/
theorem at_rule_pieces_import :
    ∃ root node,
      text "@page x\x7b@import url( 'a' )/*;*/ p q ;\n\x7d"
          ⟨.styleSheet, ⟨3, 7, 40⟩, none⟩ =
        .ok root ∧
      root.at? [0, 0] = some node ∧
      node.atRule? =
        some
          (.statement .importRule,
            [ .filler " ", .function "url( 'a' )",
              .filler "/*;*/ ", .value "p q",
              .filler " ;" ]) ∧
      Form.ReadFrom
        (upcoming
          (PulledText.ofText
            "@page x\x7b@import url( 'a' )/*;*/ p q ;\n\x7d"
            ⟨3, 7, 40⟩))
        root [0, 0] node (.statement .importRule)
        [ .filler " ", .function "url( 'a' )",
          .filler "/*;*/ ", .value "p q", .filler " ;" ] := by
  let node : Node :=
    .leaf
      (.statement .importRule
        [ .filler " ", .function "url( 'a' )",
          .filler "/*;*/ ", .value "p q", .filler " ;" ])
      ⟨3, 15, 48⟩ ""
  let root : Node :=
    .block .styleSheet
      [ .block
          (.atRule .page [.filler " ", .value "x"])
          [node] "\n" ⟨3, 7, 40⟩ "" ]
      "" ⟨3, 7, 40⟩ ""
  have hParse :
      text "@page x\x7b@import url( 'a' )/*;*/ p q ;\n\x7d"
          ⟨.styleSheet, ⟨3, 7, 40⟩, none⟩ =
        .ok root :=
    eq_ok_of_toOption (by decide +kernel)
  have hAt : root.at? [0, 0] = some node := rfl
  exact
    ⟨root, node, hParse, hAt, rfl,
      (at_rule_pieces hParse hAt rfl).2⟩

end Parse

end LosslessCss
