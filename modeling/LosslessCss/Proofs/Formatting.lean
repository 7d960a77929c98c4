import LosslessCss.Proofs.Blanks
import LosslessCss.Proofs.RoundTrip

/-
  Formatting does not change the structure of a style sheet.

  A blank can be put between any two tokens of a style sheet
  that are not in one value or function.  The tokens are
  still accepted, and their tree has the same structure.

  Key definitions include:
    * `Form.Statement.Takes`
    * `Form.Items.TakesBlank`

  Key theorems include:
    * `Form.Statement.insert`
    * `Form.Flat.insert`
    * `Form.Opens.insert`
    * `Form.Items.takesBlank`
    * `Parse.tokens_insert_blank`
-/

------------------------------------------------------------
-- Statements
------------------------------------------------------------

namespace LosslessCss

open Grammar

open Segment (Covers Joins)

/- A place beside a token is in front of it or behind it. -/
theorem Token.place_beside
    {front back first last : List Token}
    {t : Token}
    (hParts : front ++ back = first ++ t :: last) :
    (∃ more,
      first = front ++ more ∧ back = more ++ t :: last) ∨
    ∃ more,
      front = first ++ t :: more ∧ last = more ++ back := by
  rcases place_cases hParts with
    hFirst | ⟨u, more, rfl, hTail⟩
  · exact .inl hFirst
  · rcases List.cons.inj hTail with ⟨rfl, rfl⟩
    exact .inr ⟨more, rfl, rfl⟩

namespace Form

/- A place is in front of the end or behind a semicolon. -/
theorem End.place_cases
    {front back ts mark rest : List Token}
    (hForm : End mark rest)
    (hParts : front ++ back = ts ++ mark) :
    (∃ more, ts = front ++ more ∧ back = more ++ mark) ∨
      back = [] ∧ front = ts ++ mark ∧ mark ≠ [] ∧
        ∀ other, End mark other := by
  rcases Token.place_cases hParts with
    hFirst | ⟨t, more, rfl, hMark⟩
  · exact .inl hFirst
  · cases hForm with
    | nothing _ => cases hMark
    | semicolon hKind =>
        rcases List.cons.inj hMark with ⟨rfl, hNone⟩
        rcases List.append_eq_nil_iff.mp hNone.symm with
          ⟨rfl, rfl⟩
        exact
          .inr
            ⟨rfl, rfl, by simp, fun _ => .semicolon hKind⟩

/- An address belongs together. -/
theorem Address.joins
    {pieces : List Piece}
    {address : Piece}
    {first left right : List Token}
    (hForm : Address (left ++ right) address)
    (hFirst : Covers (Piece.segments pieces) first)
    (hLeft : left ≠ [])
    (hRight : right ≠ []) :
    Joins (Piece.segments (pieces ++ [address]))
      (first ++ left) right := by
  have hSolid : address.isFiller = false := by
    generalize left ++ right = ts at hForm
    cases hForm with
    | token _ => rfl
    | call _ _ => rfl
  have hNone : Covers (Piece.segments []) [] := .nil
  have hJoins :=
    Piece.joins_of_solid hSolid hForm.text_eq hFirst hLeft
      hRight hNone
  rwa [List.append_nil] at hJoins

/- A blank beside the name in front of an address. -/
theorem Alias.insert
    {blank : Token}
    {front back : List Token}
    {pieces : List Piece}
    (hBlank : blank.kind = .whitespace)
    (hForm : Alias (front ++ back) pieces) :
    ∃ pieces',
      Alias (front ++ blank :: back) pieces' ∧
        Piece.solids pieces' = Piece.solids pieces := by
  generalize hParts : front ++ back = ts at hForm
  cases hForm with
  | absent hFillers =>
      subst hParts
      exact ⟨_, .absent (hFillers.insert hBlank), by simp⟩
  | @present before inner t hBefore hIdent hInner =>
      rcases Token.place_beside hParts with
        ⟨more, rfl, rfl⟩ | ⟨more, rfl, rfl⟩
      · rw [← List.cons_append, ← List.append_assoc]
        exact
          ⟨_, .present (hBefore.insert hBlank) hIdent hInner,
            by simp⟩
      · rw [List.append_assoc, List.cons_append]
        exact
          ⟨_, .present hBefore hIdent (hInner.insert hBlank),
            by simp⟩

/-
  With a blank, some tokens are a statement of the same
  structure.  If it is behind all of them, they may be one
  whatever follows.
-/
def Statement.Takes
    (name : StatementRule)
    (blank : Token)
    (front back rest : List Token)
    (pieces : List Piece) : Prop :=
  (∃ pieces',
    Statement name (front ++ blank :: back) rest pieces' ∧
      Piece.solids pieces' = Piece.solids pieces) ∨
    back = [] ∧ ∀ other, Statement name front other pieces

theorem Statement.takes_charsetRule
    {blank t : Token}
    {front back before inner mark rest : List Token}
    (hBlank : blank.kind = .whitespace)
    (hParts :
      front ++ back = before ++ t :: (inner ++ mark))
    (hBefore : Fillers before)
    (hQuoted : isDoubleQuoted t = true)
    (hInner : Fillers inner)
    (hEnd : End mark rest) :
    Statement.Takes .charsetRule blank front back rest
      (Piece.pushFiller
        (Piece.pushFiller
          (Piece.pushFiller [] (Token.rawText before) ++
            [.value t.raw])
          (Token.rawText inner))
        (Token.rawText mark)) := by
  rw [← List.cons_append, ← List.append_assoc] at hParts
  rcases hEnd.place_cases hParts with
    ⟨more, hMore, rfl⟩ | ⟨rfl, rfl, _, hAny⟩
  · refine .inl ?_
    rcases Token.place_beside hMore.symm with
      ⟨after, rfl, rfl⟩ | ⟨after, rfl, rfl⟩
    · have hSame :
          front ++ blank :: (after ++ t :: inner ++ mark) =
            front ++ blank :: after ++
              t :: (inner ++ mark) := by
        simp
      rw [hSame]
      exact
        ⟨_, .charsetRule (hBefore.insert hBlank) hQuoted
            hInner hEnd,
          by simp⟩
    · have hSame :
          before ++ t :: after ++ blank :: (more ++ mark) =
            before ++
              t :: (after ++ blank :: more ++ mark) := by
        simp
      rw [hSame]
      exact
        ⟨_, .charsetRule hBefore hQuoted
            (hInner.insert hBlank) hEnd,
          by simp⟩
  · refine .inr ⟨rfl, fun other => ?_⟩
    rw [List.append_assoc, List.cons_append]
    exact .charsetRule hBefore hQuoted hInner (hAny other)

theorem Statement.takes_importRule
    {blank : Token}
    {front back before url conditions mark rest :
      List Token}
    {address : Piece}
    {pieces : List Piece}
    (hBlank : blank.kind = .whitespace)
    (hParts :
      front ++ back =
        before ++ (url ++ (conditions ++ mark)))
    (hRaw : ∀ t ∈ front ++ back, t.raw ≠ "")
    (hBefore : Fillers before)
    (hUrl : Address url address)
    (hConditions :
      Fragment endsImport conditions (mark ++ rest) pieces)
    (hEnd : End mark rest)
    (hApart :
      ¬ Joins
        (Piece.segments
          (Piece.pushFiller
            (pieces.foldl Piece.push
              (Piece.pushFiller [] (Token.rawText before) ++
                [address]))
            (Token.rawText mark)))
        front back) :
    Statement.Takes .importRule blank front back rest
      (Piece.pushFiller
        (pieces.foldl Piece.push
          (Piece.pushFiller [] (Token.rawText before) ++
            [address]))
        (Token.rawText mark)) := by
  rw [hParts] at hRaw
  have hRawBefore : ∀ t ∈ before, t.raw ≠ "" :=
    fun t hMem => hRaw t (by simp [hMem])
  have hRawConditions : ∀ t ∈ conditions, t.raw ≠ "" :=
    fun t hMem => hRaw t (by simp [hMem])
  have hRawMark : ∀ t ∈ mark, t.raw ≠ "" :=
    fun t hMem => hRaw t (by simp [hMem])
  rw [← List.append_assoc url, ← List.append_assoc] at hParts
  rcases hEnd.place_cases hParts with
    ⟨more, hMore, rfl⟩ | ⟨rfl, rfl, hSome, hAny⟩
  · refine .inl ?_
    rcases Token.place_around hMore.symm with
      ⟨after, rfl, rfl⟩ |
        ⟨left, right, hLeft, hRight, rfl, rfl, rfl⟩ |
        ⟨after, _, rfl, rfl⟩
    · have hSame :
          front ++
              blank :: (after ++ (url ++ conditions) ++ mark) =
            front ++ blank :: after ++
              (url ++ (conditions ++ mark)) := by
        simp
      rw [hSame]
      exact
        ⟨_, .importRule (hBefore.insert hBlank) hUrl
            hConditions hEnd,
          by simp⟩
    · refine absurd ?_ hApart
      apply Piece.joins_pushFiller hRawMark
      exact
        Piece.joins_foldl_push hRawConditions
          (hUrl.joins (covers_pushFiller_nil hRawBefore)
            hLeft hRight)
          (hConditions.covers hRawConditions)
    · have hCovers :=
        (covers_pushFiller_nil hRawBefore).append hUrl.covers
      rw [← Piece.segments_append] at hCovers
      have hInner :
          ¬ Joins (Piece.segments pieces) after more := by
        intro hJoins
        apply hApart
        apply Piece.joins_pushFiller hRawMark
        rw [← List.append_assoc]
        exact
          Piece.foldl_push_joins hRawConditions hCovers hJoins
      rcases hConditions.insert hBlank
          (by simp [endsImport, hBlank]) hRawConditions
          hInner with
        ⟨pieces', hNew, hSolids⟩
      have hSame :
          before ++ (url ++ after) ++
              blank :: (more ++ mark) =
            before ++
              (url ++ (after ++ blank :: more ++ mark)) := by
        simp
      rw [hSame]
      exact
        ⟨_, .importRule hBefore hUrl hNew hEnd,
          by simp [hSolids]⟩
  · refine .inr ⟨rfl, fun other => ?_⟩
    have hNew :=
      hConditions.congr_rest
        (@Token.startsLike_of_ne_nil mark other rest hSome)
    rw [List.append_assoc, List.append_assoc]
    exact .importRule hBefore hUrl hNew (hAny other)

theorem Statement.takes_namespaceRule
    {blank : Token}
    {front back name url inner mark rest : List Token}
    {address : Piece}
    {pieces : List Piece}
    (hBlank : blank.kind = .whitespace)
    (hParts :
      front ++ back = name ++ (url ++ (inner ++ mark)))
    (hRaw : ∀ t ∈ front ++ back, t.raw ≠ "")
    (hName : Alias name pieces)
    (hUrl : Address url address)
    (hInner : Fillers inner)
    (hEnd : End mark rest)
    (hApart :
      ¬ Joins
        (Piece.segments
          (Piece.pushFiller
            (Piece.pushFiller (pieces ++ [address])
              (Token.rawText inner))
            (Token.rawText mark)))
        front back) :
    Statement.Takes .namespaceRule blank front back rest
      (Piece.pushFiller
        (Piece.pushFiller (pieces ++ [address])
          (Token.rawText inner))
        (Token.rawText mark)) := by
  rw [hParts] at hRaw
  have hRawName : ∀ t ∈ name, t.raw ≠ "" :=
    fun t hMem => hRaw t (by simp [hMem])
  have hRawInner : ∀ t ∈ inner, t.raw ≠ "" :=
    fun t hMem => hRaw t (by simp [hMem])
  have hRawMark : ∀ t ∈ mark, t.raw ≠ "" :=
    fun t hMem => hRaw t (by simp [hMem])
  rw [← List.append_assoc url, ← List.append_assoc] at hParts
  rcases hEnd.place_cases hParts with
    ⟨more, hMore, rfl⟩ | ⟨rfl, rfl, _, hAny⟩
  · refine .inl ?_
    rcases Token.place_around hMore.symm with
      ⟨after, rfl, rfl⟩ |
        ⟨left, right, hLeft, hRight, rfl, rfl, rfl⟩ |
        ⟨after, _, rfl, rfl⟩
    · rcases hName.insert hBlank with ⟨pieces', hNew, hSolids⟩
      have hSame :
          front ++
              blank :: (after ++ (url ++ inner) ++ mark) =
            front ++ blank :: after ++
              (url ++ (inner ++ mark)) := by
        simp
      rw [hSame]
      exact
        ⟨_, .namespaceRule hNew hUrl hInner hEnd,
          by simp [hSolids]⟩
    · refine absurd ?_ hApart
      apply Piece.joins_pushFiller hRawMark
      apply Piece.joins_pushFiller hRawInner
      exact
        hUrl.joins (hName.covers hRawName) hLeft hRight
    · have hSame :
          name ++ (url ++ after) ++ blank :: (more ++ mark) =
            name ++
              (url ++ (after ++ blank :: more ++ mark)) := by
        simp
      rw [hSame]
      exact
        ⟨_, .namespaceRule hName hUrl (hInner.insert hBlank)
            hEnd,
          by simp⟩
  · refine .inr ⟨rfl, fun other => ?_⟩
    rw [List.append_assoc, List.append_assoc]
    exact .namespaceRule hName hUrl hInner (hAny other)

/- A blank in a statement does not change its structure. -/
theorem Statement.insert
    {name : StatementRule}
    {blank : Token}
    {front back rest : List Token}
    {pieces : List Piece}
    (hBlank : blank.kind = .whitespace)
    (hForm : Statement name (front ++ back) rest pieces)
    (hRaw : ∀ t ∈ front ++ back, t.raw ≠ "")
    (hApart : ¬ Joins (Piece.segments pieces) front back) :
    Statement.Takes name blank front back rest pieces := by
  generalize hParts : front ++ back = ts at hForm
  cases hForm with
  | charsetRule hBefore hQuoted hInner hEnd =>
      exact
        takes_charsetRule hBlank hParts hBefore hQuoted
          hInner hEnd
  | importRule hBefore hUrl hConditions hEnd =>
      exact
        takes_importRule hBlank hParts hRaw hBefore hUrl
          hConditions hEnd hApart
  | namespaceRule hName hUrl hInner hEnd =>
      exact
        takes_namespaceRule hBlank hParts hRaw hName hUrl
          hInner hEnd hApart

end Form

end LosslessCss

------------------------------------------------------------
-- Items
------------------------------------------------------------

namespace LosslessCss

open Grammar

open Segment (Covers Joins covers_loose covers_mark)

namespace Form

/- A blank behind the property of a declaration. -/
theorem Declaration.insert
    {blank : Token}
    {front back : List Token}
    {leaf : Leaf}
    (hBlank : blank.kind = .whitespace)
    (hForm : Declaration (front ++ back) leaf)
    (hFront : front ≠ [])
    (hRaw : ∀ t ∈ front ++ back, t.raw ≠ "")
    (hApart : ¬ Joins leaf.segments front back) :
    ∃ leaf',
      Declaration (front ++ blank :: back) leaf' ∧
        leaf'.stripped = leaf.stripped := by
  generalize hParts : front ++ back = ts at hForm
  cases hForm with
  | @intro property colon between value chunks
      hProperty hBetween hColon hValue =>
      cases front with
      | nil => exact absurd rfl hFront
      | cons t front =>
          rcases List.cons.inj hParts with ⟨rfl, hTail⟩
          rcases Token.place_beside hTail with
            ⟨more, rfl, rfl⟩ | ⟨more, rfl, rfl⟩
          · have hNew :=
              Token.forall_insert
                (by simp [beforeColon, hBlank] :
                  beforeColon blank = true)
                hBetween
            have hSame :
                t :: front ++
                    blank :: (more ++ colon :: value) =
                  t ::
                    (front ++ blank :: more ++
                      colon :: value) := by
              simp
            rw [hSame]
            exact ⟨_, .intro hProperty hNew hColon hValue, rfl⟩
          · have hInner :
                ¬ Joins
                  (Piece.segments
                    (Importance.foldAll
                      (arrangeValue chunks)).1)
                  more back := by
              intro hJoins
              apply hApart
              rw [List.append_cons between]
              exact
                hJoins.append_left
                  (covers_property t colon between)
            have hRawValue :
                ∀ u ∈ more ++ back, u.raw ≠ "" :=
              fun u hMem => hRaw u (by simp_all)
            rcases hValue.insert_value hBlank hRawValue
                hInner with
              ⟨chunks', hNew, hSolids, hImportant⟩
            have hSame :
                t :: (between ++ colon :: more) ++
                    blank :: back =
                  t ::
                    (between ++
                      colon :: (more ++ blank :: back)) := by
              simp
            rw [hSame]
            refine
              ⟨_, .intro hProperty hBetween hColon hNew, ?_⟩
            simp [Leaf.stripped, hSolids, hImportant]

/-
  A blank behind the first token of an item without children.
  If the item is closed in front of it, it may be one
  whatever follows.
-/
theorem Flat.insert
    {blank : Token}
    {front back rest : List Token}
    {leaf : Leaf}
    (hBlank : blank.kind = .whitespace)
    (hForm : Flat (front ++ back) rest leaf)
    (hFront : front ≠ [])
    (hRaw : ∀ t ∈ front ++ back, t.raw ≠ "")
    (hApart : ¬ Joins leaf.segments front back) :
    (∃ leaf',
      Flat (front ++ blank :: back) rest leaf' ∧
        leaf'.stripped = leaf.stripped) ∨
      back = [] ∧ ∀ other, Flat front other leaf := by
  generalize hParts : front ++ back = ts at hForm
  cases hForm with
  | @comment t _ hComment =>
      cases front with
      | nil => exact absurd rfl hFront
      | cons u front =>
          rcases List.cons.inj hParts with ⟨rfl, hNone⟩
          rcases List.append_eq_nil_iff.mp hNone with
            ⟨rfl, rfl⟩
          exact .inr ⟨rfl, fun _ => .comment hComment⟩
  | @statement t name ts _ pieces hKeyword hValue =>
      cases front with
      | nil => exact absurd rfl hFront
      | cons u front =>
          rcases List.cons.inj hParts with ⟨rfl, rfl⟩
          have hInner :
              ¬ Joins (Piece.segments pieces) front back :=
            fun hJoins =>
              hApart (hJoins.append_left hKeyword.covers)
          rcases hValue.insert hBlank
              (List.forall_mem_cons.mp hRaw).2 hInner with
            ⟨pieces', hNew, hSolids⟩ | ⟨hNone, hAny⟩
          · refine .inl ⟨_, .statement hKeyword hNew, ?_⟩
            simp [Leaf.stripped, hSolids]
          · exact
              .inr
                ⟨hNone, fun other =>
                  .statement hKeyword (hAny other)⟩
  | @declaration ts mark _ _ hRun hEnd hContent =>
      rw [← hParts] at hContent
      -- Without a semicolon, a blank at the end goes to the
      -- value.
      rcases hEnd.place_cases hParts with
        ⟨more, rfl, rfl⟩ | ⟨rfl, rfl, _, hAny⟩
      · rcases hContent.insert hBlank hFront hRaw hApart with
          ⟨leaf', hNew, hSame⟩
        have hTest : isAmbiguous blank = true := by
          simp [isAmbiguous, hBlank]
        rw [← List.cons_append, ← List.append_assoc] at hNew ⊢
        exact
          .inl
            ⟨leaf',
              .declaration (Token.forall_insert hTest hRun)
                hEnd hNew,
              hSame⟩
      · rw [List.append_nil] at hContent
        exact
          .inr
            ⟨rfl, fun other =>
              .declaration hRun (hAny other) hContent⟩

/- A blank between two tokens of what opens a block. -/
theorem Opens.insert
    {blank : Token}
    {front back : List Token}
    {opening : Opening}
    (hBlank : blank.kind = .whitespace)
    (hForm : Opens (front ++ back) opening)
    (hFront : front ≠ [])
    (hBack : back ≠ [])
    (hRaw : ∀ t ∈ front ++ back, t.raw ≠ "")
    (hApart : ¬ Joins opening.segments front back) :
    ∃ opening',
      Opens (front ++ blank :: back) opening' ∧
        opening'.stripped = opening.stripped := by
  generalize hParts : front ++ back = ts at hForm
  cases hForm with
  | @rule ts left chunks hRun hStart hSelectors hLeft =>
      rcases Token.place_beside hParts with
        ⟨more, rfl, rfl⟩ | ⟨more, rfl, hNone⟩
      · have hInner :
            ¬ Joins
              (Piece.segments (arrangeSelectors chunks))
              front more :=
          fun hJoins =>
            hApart (hJoins.append_right (covers_mark left))
        rw [hParts, List.forall_mem_append] at hRaw
        rcases hSelectors.insert_selectors hBlank hRaw.1
            hInner with
          ⟨chunks', hNew, hSolids⟩
        have hTest : isAmbiguous blank = true := by
          simp [isAmbiguous, hBlank]
        have hNewStart :
            Token.Stops startsOther
              (front ++ blank :: more) :=
          hStart.of_startsLike
            (Token.startsLike_of_ne_nil hFront)
        rw [← List.cons_append, ← List.append_assoc]
        refine
          ⟨_, .rule (Token.forall_insert hTest hRun)
            hNewStart hNew hLeft, ?_⟩
        simp [Opening.stripped, hSolids]
      · exact
          absurd (List.append_eq_nil_iff.mp hNone.symm).2
            hBack
  | @atRule t left name ts pieces hKeyword hParameters hLeft =>
      cases front with
      | nil => exact absurd rfl hFront
      | cons u front =>
          rcases List.cons.inj hParts with ⟨rfl, hTail⟩
          rcases Token.place_beside hTail with
            ⟨more, rfl, rfl⟩ | ⟨more, rfl, hNone⟩
          · have hInner :
                ¬ Joins (Piece.segments pieces) front more :=
              fun hJoins =>
                hApart
                  ((hJoins.append_right
                    (covers_mark left)).append_left
                      hKeyword.covers)
            rw [hParts, List.forall_mem_cons,
              List.forall_mem_append] at hRaw
            rcases hParameters.insert hBlank
                (by simp [isLeftCurly, hBlank]) hRaw.2.1
                hInner with
              ⟨pieces', hNew, hSolids⟩
            have hSame :
                u :: front ++ blank :: (more ++ [left]) =
                  u ::
                    (front ++ blank :: more ++ [left]) := by
              simp
            rw [hSame]
            refine ⟨_, .atRule hKeyword hNew hLeft, ?_⟩
            simp [Opening.stripped, hSolids]
          · exact
              absurd (List.append_eq_nil_iff.mp hNone.symm).2
                hBack

end Form

end LosslessCss

------------------------------------------------------------
-- Lists of Items
------------------------------------------------------------

namespace LosslessCss

open Grammar

open Segment (Covers Joins covers_loose)

namespace Segment

section Blocks

variable {opening : Opening}
variable {inner block : Block}
variable {head body ts : List Token}
variable {here : Location}

/- What belongs together in front of the left brace. -/
theorem Joins.of_opening
    {front back : List Token}
    (hJoins : Joins opening.segments front back)
    (hClosing : opening.closing = [.mark])
    (hInner : Covers inner.segments body)
    (hOthers : Covers block.segments ts)
    (prior : List Token)
    (right : Token) :
    Joins
      (block.cons
        (inner.toNode opening here
          (Token.rawText prior))).segments
      (prior ++ front) (back ++ (body ++ right :: ts)) := by
  rw [Block.segments_cons, Block.segments_toNode, hClosing,
    List.append_cons body, ← List.append_assoc back]
  exact
    ((hJoins.append_right
      (hInner.append (covers_mark right))).append_left
        (covers_loose prior)).append_right hOthers

/- What belongs together inside of the braces. -/
theorem Joins.of_children
    {front back : List Token}
    (hJoins : Joins inner.segments front back)
    (hHead : Covers opening.segments head)
    (hClosing : opening.closing = [.mark])
    (hOthers : Covers block.segments ts)
    (prior : List Token)
    (right : Token) :
    Joins
      (block.cons
        (inner.toNode opening here
          (Token.rawText prior))).segments
      (prior ++ (head ++ front)) (back ++ right :: ts) := by
  rw [Block.segments_cons, Block.segments_toNode, hClosing,
    List.append_cons back]
  exact
    (((hJoins.append_right (covers_mark right)).append_left
      hHead).append_left (covers_loose prior)).append_right
        hOthers

/- What belongs together behind the right brace. -/
theorem Joins.of_others
    {front back : List Token}
    (hJoins : Joins block.segments front back)
    (hHead : Covers opening.segments head)
    (hClosing : opening.closing = [.mark])
    (hInner : Covers inner.segments body)
    (prior : List Token)
    (right : Token) :
    Joins
      (block.cons
        (inner.toNode opening here
          (Token.rawText prior))).segments
      (prior ++ (head ++ (body ++ right :: front)))
      back := by
  have hCovers :=
    (covers_loose prior).append
      (hHead.append (hInner.append (covers_mark right)))
  rw [Block.segments_cons, Block.segments_toNode, hClosing]
  simpa using hJoins.append_left hCovers

end Blocks

end Segment

namespace Form

/- The text in front of items does not count. -/
theorem Items.congr_before
    {before : String}
    {ts rest : List Token}
    {block : Block}
    (hForm : Items before ts rest block)
    (other : String) :
    ∃ block',
      Items other ts rest block' ∧
        block'.stripped = block.stripped := by
  induction hForm generalizing other with
  | done => exact ⟨_, .done, rfl⟩
  | @separator _ t _ _ _ hSeparator _ ih =>
      rcases ih (other ++ t.raw) with ⟨block', hNew, hSame⟩
      exact ⟨block', .separator hSeparator hNew, hSame⟩
  | flat hItem hTail _ =>
      exact ⟨_, .flat hItem hTail, by simp [Node.stripped]⟩
  | block hHead hSeparator hBody hRight hTail _ _ =>
      exact
        ⟨_, .block hHead hSeparator hBody hRight hTail,
          by simp⟩

/- A blank in front of items is formatting. -/
theorem Items.insert_first
    {before : String}
    {blank : Token}
    {ts rest : List Token}
    {block : Block}
    (hBlank : blank.kind = .whitespace)
    (hForm : Items before ts rest block) :
    ∃ block',
      Items before (blank :: ts) rest block' ∧
        block'.stripped = block.stripped := by
  have hSeparator : isSeparator blank = true := by
    simp [isSeparator, hBlank]
  rcases hForm.congr_before (before ++ blank.raw) with
    ⟨block', hNew, hSame⟩
  exact ⟨block', .separator hSeparator hNew, hSame⟩

/- A blank in or beside an item without children. -/
theorem Flat.insert_items
    {before : String}
    {blank : Token}
    {front back ts rest : List Token}
    {leaf : Leaf}
    {block : Block}
    (hBlank : blank.kind = .whitespace)
    (hForm : Flat (front ++ back) (ts ++ rest) leaf)
    (hTail : Items "" ts rest block)
    (hRaw : ∀ t ∈ front ++ back, t.raw ≠ "")
    (hApart : ¬ Joins leaf.segments front back) :
    ∃ block',
      Items before (front ++ blank :: (back ++ ts)) rest
          block' ∧
        block'.stripped =
          (block.cons
            (.leaf leaf (startOf (front ++ back))
              before)).stripped := by
  by_cases hFront : front = []
  · -- In front of the item, the blank is a separator.
    subst hFront
    exact Items.insert_first hBlank (.flat hForm hTail)
  · rcases hForm.insert hBlank hFront hRaw hApart with
      ⟨leaf', hNew, hSame⟩ | ⟨rfl, hAny⟩
    · rw [← List.cons_append, ← List.append_assoc]
      exact
        ⟨_, .flat hNew hTail, by simp [Node.stripped, hSame]⟩
    · rcases hTail.insert_first hBlank with
        ⟨block', hNew, hSame⟩
      exact
        ⟨_, .flat (hAny _) hNew,
          by simp [Node.stripped, hSame]⟩

/- A blank in or beside what opens a block. -/
theorem Opens.insert_items
    {before : String}
    {blank right : Token}
    {front back body ts rest : List Token}
    {opening : Opening}
    {inner block : Block}
    (hBlank : blank.kind = .whitespace)
    (hForm : Opens (front ++ back) opening)
    (hSeparator : Token.Stops isSeparator (front ++ back))
    (hBody : Items "" body (right :: (ts ++ rest)) inner)
    (hRight : isRightCurly right = true)
    (hTail : Items "" ts rest block)
    (hRaw : ∀ t ∈ front ++ back, t.raw ≠ "")
    (hApart : ¬ Joins opening.segments front back) :
    ∃ block',
      Items before
          (front ++ blank :: (back ++ (body ++ right :: ts)))
          rest block' ∧
        block'.stripped =
          (block.cons
            (inner.toNode opening (startOf (front ++ back))
              before)).stripped := by
  by_cases hFront : front = []
  · subst hFront
    exact
      Items.insert_first hBlank
        (.block hForm hSeparator hBody hRight hTail)
  by_cases hBack : back = []
  · -- Behind the left brace, it comes before the children.
    subst hBack
    rw [List.append_nil] at hForm hSeparator
    rcases hBody.insert_first hBlank with
      ⟨inner', hNew, hSame⟩
    exact
      ⟨_, .block hForm hSeparator hNew hRight hTail,
        by simp [hSame]⟩
  · rcases hForm.insert hBlank hFront hBack hRaw hApart with
      ⟨opening', hNew, hSame⟩
    have hNewSeparator :
        Token.Stops isSeparator (front ++ blank :: back) :=
      hSeparator.of_startsLike
        (Token.startsLike_of_ne_nil hFront)
    rw [← List.cons_append, ← List.append_assoc]
    exact
      ⟨_, .block hNew hNewSeparator hBody hRight hTail,
        by simp [hSame]⟩

/-
  A blank can be put between any two tokens of some items
  that do not belong together, and their structure stays.
  The formatting in front of the items has the tokens
  `prior`.
-/
def Items.TakesBlank
    (blank : Token)
    (before : String)
    (ts rest : List Token)
    (block : Block) : Prop :=
  ∀ front back prior : List Token,
    front ++ back = ts → before = Token.rawText prior →
      ¬ Joins block.segments (prior ++ front) back →
        ∃ block',
          Items before (front ++ blank :: back) rest block' ∧
            block'.stripped = block.stripped

theorem Flat.takesBlank
    {before : String}
    {blank : Token}
    {item ts rest : List Token}
    {leaf : Leaf}
    {block : Block}
    (hBlank : blank.kind = .whitespace)
    (hForm : Flat item (ts ++ rest) leaf)
    (hTail : Items "" ts rest block)
    (hRaw : ∀ t ∈ item ++ ts, t.raw ≠ "")
    (hNext : Items.TakesBlank blank "" ts rest block) :
    Items.TakesBlank blank before (item ++ ts) rest
      (block.cons (.leaf leaf (startOf item) before)) := by
  rintro front back prior hParts rfl hApart
  rcases List.forall_mem_append.mp hRaw with
    ⟨hRawItem, hRawTail⟩
  rw [Block.segments_cons] at hApart
  rcases Token.place_cases hParts with
    ⟨more, rfl, rfl⟩ | ⟨t, more, rfl, rfl⟩
  · apply hForm.insert_items hBlank hTail hRawItem
    intro hJoins
    have hCovers : Covers block.segments ([] ++ ts) :=
      hTail.covers hRawTail rfl
    exact
      hApart
        ((hJoins.append_left
          (covers_loose prior)).append_right hCovers)
  · have hApartTail :
        ¬ Joins block.segments ([] ++ t :: more) back := by
      intro hJoins
      apply hApart
      rw [← List.append_assoc]
      exact
        hJoins.append_left
          ((covers_loose prior).append
            (hForm.covers hRawItem))
    rcases hNext _ _ [] rfl rfl hApartTail with
      ⟨block', hNew, hSame⟩
    have hItem :=
      hForm.congr_rest
        (@Token.startsLike_cons t
          (more ++ blank :: back ++ rest) _)
    rw [List.append_assoc]
    exact
      ⟨_, .flat hItem hNew, by simp [Node.stripped, hSame]⟩

theorem Opens.takesBlank
    {before : String}
    {blank right : Token}
    {head body ts rest : List Token}
    {opening : Opening}
    {inner block : Block}
    (hBlank : blank.kind = .whitespace)
    (hForm : Opens head opening)
    (hSeparator : Token.Stops isSeparator head)
    (hBody : Items "" body (right :: (ts ++ rest)) inner)
    (hRight : isRightCurly right = true)
    (hTail : Items "" ts rest block)
    (hRaw : ∀ t ∈ head ++ (body ++ right :: ts), t.raw ≠ "")
    (hInside :
      Items.TakesBlank blank "" body
        (right :: (ts ++ rest)) inner)
    (hNext : Items.TakesBlank blank "" ts rest block) :
    Items.TakesBlank blank before
      (head ++ (body ++ right :: ts)) rest
      (block.cons
        (inner.toNode opening (startOf head) before)) := by
  rintro front back prior hParts rfl hApart
  rw [List.forall_mem_append, List.forall_mem_append,
    List.forall_mem_cons] at hRaw
  rcases hRaw with ⟨hRawHead, hRawBody, _, hRawTail⟩
  rcases hForm.covers hRawHead with ⟨hOpening, hClosing⟩
  have hInner : Covers inner.segments ([] ++ body) :=
    hBody.covers hRawBody rfl
  have hLast : Covers block.segments ([] ++ ts) :=
    hTail.covers hRawTail rfl
  rcases Token.place_cases hParts with
    ⟨more, rfl, rfl⟩ | ⟨t, more, rfl, hRest⟩
  · apply hForm.insert_items hBlank hSeparator hBody hRight
      hTail hRawHead
    intro hJoins
    exact
      hApart
        (hJoins.of_opening hClosing hInner hLast prior right)
  · -- What follows the children only shows its first token,
    -- which is the right brace wherever the blank is.
    rcases Token.place_beside hRest.symm with
      ⟨after, rfl, rfl⟩ | ⟨after, hMore, rfl⟩
    · have hApartBody :
          ¬ Joins inner.segments ([] ++ t :: more) after :=
        fun hJoins =>
          hApart
            (hJoins.of_children hOpening hClosing hLast prior
              right)
      rcases hInside _ _ [] rfl rfl hApartBody with
        ⟨inner', hNew, hSame⟩
      have hOrder :
          head ++ t :: more ++
              blank :: (after ++ right :: ts) =
            head ++
              (t :: more ++ blank :: after ++
                right :: ts) := by
        simp
      rw [hOrder]
      exact
        ⟨_, .block hForm hSeparator hNew hRight hTail,
          by simp [hSame]⟩
    · have hApartTail :
          ¬ Joins block.segments ([] ++ after) back := by
        rw [hMore] at hApart
        exact fun hJoins =>
          hApart
            (hJoins.of_others hOpening hClosing hInner prior
              right)
      rcases hNext _ _ [] rfl rfl hApartTail with
        ⟨block', hNew, hSame⟩
      have hBodyNew :=
        hBody.congr_rest
          (@Token.startsLike_cons right
            (after ++ blank :: back ++ rest) _)
      have hOrder :
          head ++ (body ++ right :: after) ++ blank :: back =
            head ++
              (body ++
                right :: (after ++ blank :: back)) := by
        simp
      rw [hMore, hOrder]
      exact
        ⟨_, .block hForm hSeparator hBodyNew hRight hNew,
          by simp [hSame]⟩

theorem Items.takesBlank
    {before : String}
    {blank : Token}
    {ts rest : List Token}
    {block : Block}
    (hBlank : blank.kind = .whitespace)
    (hForm : Items before ts rest block)
    (hRaw : ∀ t ∈ ts, t.raw ≠ "") :
    Items.TakesBlank blank before ts rest block := by
  induction hForm with
  | done =>
      rintro front back prior hParts _ _
      rcases List.append_eq_nil_iff.mp hParts with
        ⟨rfl, rfl⟩
      exact Items.insert_first hBlank .done
  | @separator before t ts rest block hSeparator hTail ih =>
      rintro front back prior hParts hPrior hApart
      cases front with
      | nil =>
          rw [List.nil_append] at hParts
          subst hParts
          exact
            Items.insert_first hBlank
              (.separator hSeparator hTail)
      | cons u front =>
          rcases List.cons.inj hParts with ⟨rfl, hRest⟩
          rw [List.append_cons] at hApart
          rcases ih (List.forall_mem_cons.mp hRaw).2 _ _
              (prior ++ [u]) hRest
              (by simp [hPrior, Token.rawText]) hApart with
            ⟨block', hNew, hSame⟩
          exact ⟨block', .separator hSeparator hNew, hSame⟩
  | flat hItem hTail ih =>
      exact
        hItem.takesBlank hBlank hTail hRaw
          (ih (List.forall_mem_append.mp hRaw).2)
  | block hHead hSeparator hBody hRight hTail ihBody
      ihTail =>
      have hParts := hRaw
      rw [List.forall_mem_append, List.forall_mem_append,
        List.forall_mem_cons] at hParts
      exact
        hHead.takesBlank hBlank hSeparator hBody hRight hTail
          hRaw (ihBody hParts.2.1) (ihTail hParts.2.2.2)

end Form

end LosslessCss

------------------------------------------------------------
-- Style Sheets
------------------------------------------------------------

namespace LosslessCss

open Segment (Covers Joins covers_loose)

/- Around the items of a style sheet there are no tokens. -/
theorem Block.segments_styleSheet
    (block : Block)
    (here : Location) :
    (block.toNode .styleSheet here "").segments =
      .loose (Token.rawText []) :: block.segments := by
  simp [segments_toNode, Opening.segments, Opening.closing,
    Token.rawText]

namespace Parse

variable {here : Location} {source : Option String}

/-
  The segments of the tree cover all tokens, so it can be
  computed which places are inside of a value or a function.
-/
theorem joins_iff_of_tokens
    {front back : List Token}
    {root : Node}
    (hEof : ∀ t ∈ front ++ back, t.isEof = false)
    (hRaw : ∀ t ∈ front ++ back, t.raw ≠ "")
    (hParse :
      tokens (front ++ back) ⟨.styleSheet, here, source⟩ =
        .ok root) :
    Joins root.segments front back ↔
      Segment.cutsJoint root.segments (front ++ back)
        front.length = true := by
  rcases (tokens_styleSheet_iff hEof).mp hParse with
    ⟨block, hForm, rfl⟩
  have hCovers :
      Covers block.segments ([] ++ (front ++ back)) :=
    hForm.covers hRaw rfl
  refine Segment.joins_iff_cutsJoint ?_ hRaw
  rw [Block.segments_styleSheet]
  exact (covers_loose []).append hCovers

/-
  Wherever a blank is put between the tokens of a style
  sheet, other than inside of a value or a function, they are
  still accepted, and the structure of their tree stays.
-/
theorem tokens_insert_blank
    {front back : List Token}
    {blank : Token}
    {root : Node}
    (hEof : ∀ t ∈ front ++ back, t.isEof = false)
    (hRaw : ∀ t ∈ front ++ back, t.raw ≠ "")
    (hBlank : blank.kind = .whitespace)
    (hParse :
      tokens (front ++ back) ⟨.styleSheet, here, source⟩ =
        .ok root)
    (hApart : ¬ Joins root.segments front back) :
    ∃ root',
      tokens (front ++ blank :: back)
          ⟨.styleSheet, here, source⟩ =
        .ok root' ∧
      root'.stripped = root.stripped ∧
      root'.outline = root.outline := by
  rcases (tokens_styleSheet_iff hEof).mp hParse with
    ⟨block, hForm, rfl⟩
  have hInner : ¬ Joins block.segments ([] ++ front) back := by
    intro hJoins
    rw [Block.segments_styleSheet] at hApart
    exact hApart (hJoins.append_left (covers_loose []))
  rcases hForm.takesBlank hBlank hRaw front back [] rfl rfl
      hInner with
    ⟨block', hNew, hSame⟩
  have hNewEof :
      ∀ t ∈ front ++ blank :: back, t.isEof = false := by
    rw [List.forall_mem_append] at hEof
    rw [List.forall_mem_append, List.forall_mem_cons]
    exact ⟨hEof.1, by simp [Token.isEof, hBlank], hEof.2⟩
  refine
    ⟨_, (tokens_styleSheet_iff hNewEof).mpr
      ⟨block', hNew, rfl⟩, ?_⟩
  have hStripped :
      (block'.toNode .styleSheet
          (TokenSource.location
            (TokenList.ofTokens (front ++ blank :: back)))
          "").stripped =
        (block.toNode .styleSheet
          (TokenSource.location
            (TokenList.ofTokens (front ++ back)))
          "").stripped := by
    simp [hSame]
  exact
    ⟨hStripped, Node.outline_eq_of_stripped hStripped⟩

/-
  A blank between an exclamation mark and the word that comes
  after it.  The two are formatting together.
-/
theorem tokens_insert_blank_important :
    ∃ (front back : List Token) (blank : Token)
        (root root' : Node),
      (∀ t ∈ front ++ back, t.isEof = false) ∧
      (∀ t ∈ front ++ back, t.raw ≠ "") ∧
      blank.kind = .whitespace ∧
      tokens (front ++ back) Settings.default = .ok root ∧
      ¬ Joins root.segments front back ∧
      tokens (front ++ blank :: back) Settings.default =
        .ok root' ∧
      root'.outline =
        "[StyleSheet (1)]\n" ++
          "  [Rule (2)] p, q>r\n" ++
          "    [Declaration] property: s important: true\n" ++
          "      [Function] t(u)\n" := by
  let front :=
    (Lexer.tokenize "p,q>r\x7bs:t(u)!"
      Location.start).dropLast
  let back :=
    (Lexer.tokenize "important;\x7d" Location.start).dropLast
  let blank : Token := ⟨.whitespace, "\n", Location.start⟩
  let root : Node :=
    .block .styleSheet
      [ .block
          (.rule
            [ .filler "", .value "p", .filler ",",
              .value "q>r", .filler "" ])
          [ .leaf
              (.declaration "s" ""
                [.function "t(u)", .filler "!important;"]
                true)
              ⟨1, 7, 6⟩ "" ]
          "" ⟨1, 1, 0⟩ "" ]
      "" ⟨1, 1, 0⟩ ""
  have hEof : ∀ t ∈ front ++ back, t.isEof = false := by
    decide +kernel
  have hRaw : ∀ t ∈ front ++ back, t.raw ≠ "" := by
    decide +kernel
  have hBlank : blank.kind = .whitespace := rfl
  have hParse :
      tokens (front ++ back) Settings.default = .ok root := by
    decide +kernel
  have hApart : ¬ Joins root.segments front back := by
    rw [joins_iff_of_tokens hEof hRaw hParse]
    decide +kernel
  rcases tokens_insert_blank hEof hRaw hBlank hParse
      hApart with
    ⟨root', hNew, _, hOutline⟩
  exact
    ⟨front, back, blank, root, root', hEof, hRaw, hBlank,
      hParse, hApart, hNew,
      hOutline.trans (by decide +kernel)⟩

end Parse

end LosslessCss
