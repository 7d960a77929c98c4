import LosslessCss.Parse
import LosslessCss.Proofs.DocumentRecognition
import Mathlib.Data.List.Basic

/-
  The style sheets that are accepted.

  The grammar of this file has no trees.  It says which runs
  of tokens are lists of items, and a list of tokens can be
  parsed as a style sheet exactly when it is one of them.

  Three kinds of runs stop at different tokens.  In front of
  a rule or a declaration a run stops at the first semicolon
  or brace, be it inside of a span or not.  The conditions
  of an import stop there outside of spans only.  Parameters
  of a nested at-rule only stop at a left brace.

  Key definitions include:
    * `Sheet.Balanced`
    * `Sheet.Statement`
    * `Sheet.Property`
    * `Sheet.Items`

  Key theorems include:
    * `Sheet.items_iff`
    * `Parse.tokens_accepted_iff`
-/

------------------------------------------------------------
-- The Grammar
------------------------------------------------------------

namespace LosslessCss

open Grammar

namespace Sheet

/- A token that is an item by itself. -/
def Loose (t : Token) : Prop :=
  t.kind = .whitespace ∨ t.kind = .cdo ∨ t.kind = .cdc ∨
    ∃ text, t.kind = .comment text

/- A token that does not end a statement. -/
def Inner (t : Token) : Prop :=
  t.kind ≠ .semicolon ∧ t.kind ≠ .leftCurly ∧
    t.kind ≠ .rightCurly

/-
  A run in which every span is closed.  The tokens outside
  of the spans, and those that open them, satisfy `p`.
-/
inductive Balanced
    (opens : Token → Option Opener)
    (p : Token → Prop) : List Token → Prop where
  | nil : Balanced opens p []
  | token
      {t : Token}
      {ts : List Token}
      (hOpens : opens t = none)
      (hFirst : p t)
      (hRest : Balanced opens p ts) :
      Balanced opens p (t :: ts)
  | span
      {t : Token}
      {opener : Opener}
      {body ts : List Token}
      (hOpens : opens t = some opener)
      (hFirst : p t)
      (hBody : Form.SpanRest opener.closer body)
      (hRest : Balanced opens p ts) :
      Balanced opens p (t :: (body ++ ts))

/- An address: one token, or a call of `url`. -/
def Address (ts : List Token) : Prop :=
  ∃ address, Form.Address ts address

/- An at-rule without a block. -/
inductive Statement : List Token → List Token → Prop where
  | charsetRule
      {keyword name : Token}
      {blank inner mark rest : List Token}
      (hKeyword : Form.IsKeyword keyword "charset")
      (hBlank : Form.Fillers blank)
      (hName : isDoubleQuoted name = true)
      (hInner : Form.Fillers inner)
      (hEnd : Form.End mark rest) :
      Statement
        (keyword :: (blank ++ name :: (inner ++ mark))) rest
  | importRule
      {keyword : Token}
      {blank url conditions mark rest : List Token}
      (hKeyword : Form.IsKeyword keyword "import")
      (hBlank : Form.Fillers blank)
      (hUrl : Address url)
      (hConditions : Balanced opens? Inner conditions)
      (hEnd : Form.End mark rest) :
      Statement
        (keyword :: (blank ++ (url ++ (conditions ++ mark))))
        rest
  | namespaceRule
      {keyword : Token}
      {blank url inner mark rest : List Token}
      (hKeyword : Form.IsKeyword keyword "namespace")
      (hBlank : Form.Fillers blank)
      (hUrl : Address url)
      (hInner : Form.Fillers inner)
      (hEnd : Form.End mark rest) :
      Statement
        (keyword :: (blank ++ (url ++ (inner ++ mark)))) rest
  | namedNamespaceRule
      {keyword name : Token}
      {blank between url inner mark rest : List Token}
      (hKeyword : Form.IsKeyword keyword "namespace")
      (hBlank : Form.Fillers blank)
      (hName : name.isIdent = true)
      (hBetween : Form.Fillers between)
      (hUrl : Address url)
      (hInner : Form.Fillers inner)
      (hEnd : Form.End mark rest) :
      Statement
        (keyword ::
          (blank ++ name ::
            (between ++ (url ++ (inner ++ mark))))) rest

/-
  A name, a colon and a value.  In the value functions are
  closed, while single parentheses and brackets may be open.
-/
def Property (ts : List Token) : Prop :=
  ∃ name between colon value,
    ts = name :: (between ++ colon :: value) ∧
      name.isIdent = true ∧
      (∀ t ∈ between, t.kind ≠ .colon) ∧
      colon.kind = .colon ∧
      Balanced opensFunction? (fun _ => True) value

/- The keywords of the at-rules that have a block. -/
def nestedWords : List String :=
  [ "media", "supports", "page", "font-face", "keyframes",
    "counter-style", "font-feature-values", "viewport",
    "-ms-viewport" ]

/- A list of items, in front of the tokens `rest`. -/
inductive Items : List Token → List Token → Prop where
  | done
      {rest : List Token} :
      Items [] rest
  | loose
      {t : Token}
      {ts rest : List Token}
      (hLoose : Loose t)
      (hTail : Items ts rest) :
      Items (t :: ts) rest
  | statement
      {item ts rest : List Token}
      (hItem : Statement item (ts ++ rest))
      (hTail : Items ts rest) :
      Items (item ++ ts) rest
  | declaration
      {run mark ts rest : List Token}
      (hRun : ∀ t ∈ run, Inner t)
      (hProperty : Property run)
      (hEnd : Form.End mark (ts ++ rest))
      (hTail : Items ts rest) :
      Items (run ++ (mark ++ ts)) rest
  | nested
      {keyword left right : Token}
      {word : String}
      {parameters body ts rest : List Token}
      (hWord : word ∈ nestedWords)
      (hKeyword : Form.IsKeyword keyword word)
      (hParameters :
        Balanced opens? (fun t => t.kind ≠ .leftCurly)
          parameters)
      (hLeft : left.kind = .leftCurly)
      (hBody : Items body (right :: (ts ++ rest)))
      (hRight : right.kind = .rightCurly)
      (hTail : Items ts rest) :
      Items
        (keyword ::
          (parameters ++ left :: (body ++ right :: ts)))
        rest
  | rule
      {left right : Token}
      {run body ts rest : List Token}
      (hRun : ∀ t ∈ run, Inner t)
      (hStart :
        ∀ t ∈ run.head?,
          ¬ Loose t ∧ isAtKeyword t = false)
      (hSpans : Balanced opens? (fun _ => True) run)
      (hLeft : left.kind = .leftCurly)
      (hBody : Items body (right :: (ts ++ rest)))
      (hRight : right.kind = .rightCurly)
      (hTail : Items ts rest) :
      Items (run ++ left :: (body ++ right :: ts)) rest

end Sheet

end LosslessCss

------------------------------------------------------------
-- Kinds of Tokens
------------------------------------------------------------

namespace LosslessCss

open Grammar

namespace Sheet

theorem loose_iff
    {t : Token} :
    Loose t ↔ isSeparator t = true ∨ t.isComment = true := by
  rw [isComment_iff_kind]
  unfold Loose isSeparator
  split <;> simp_all

theorem inner_iff
    {t : Token} :
    Inner t ↔ isAmbiguous t = true := by
  unfold Inner isAmbiguous
  split <;> simp_all

theorem inner_iff_endsImport
    {t : Token} :
    Inner t ↔ endsImport t = false := by
  unfold Inner endsImport
  split <;> simp_all

theorem kind_ne_leftCurly_iff
    {t : Token} :
    t.kind ≠ .leftCurly ↔ isLeftCurly t = false := by
  rw [ne_eq, ← isLeftCurly_iff_kind, Bool.not_eq_true]

/- The nested keywords are those of the block at-rules. -/
theorem mem_nestedWords_iff
    {word : String} :
    word ∈ nestedWords ↔
      ∃ name : BlockRule, name.keyword = word := by
  constructor
  · intro hMem
    simp only [nestedWords, List.mem_cons, List.not_mem_nil,
      or_false] at hMem
    rcases hMem with
      rfl | rfl | rfl | rfl | rfl | rfl | rfl | rfl | rfl
    · exact ⟨.media, rfl⟩
    · exact ⟨.supports, rfl⟩
    · exact ⟨.page, rfl⟩
    · exact ⟨.fontFace, rfl⟩
    · exact ⟨.keyframes, rfl⟩
    · exact ⟨.counterStyle, rfl⟩
    · exact ⟨.fontFeatureValues, rfl⟩
    · exact ⟨.viewport, rfl⟩
    · exact ⟨.msViewport, rfl⟩
  · intro h
    rcases h with ⟨name, rfl⟩
    cases name <;> simp [nestedWords, BlockRule.keyword]

theorem opens?_of_isFiller
    {t : Token}
    (hFiller : t.isFiller = true) :
    opens? t = none := by
  unfold opens?
  split <;>
    simp_all [Token.isFiller, Token.isWhitespace,
      Token.isComment]

end Sheet

end LosslessCss

------------------------------------------------------------
-- Balanced Runs
------------------------------------------------------------

namespace LosslessCss

open Grammar

namespace Sheet

/- A balanced run can be cut into chunks. -/
theorem balanced_iff
    {opens : Token → Option Opener}
    {p : Token → Prop}
    {q : Token → Bool}
    {ts : List Token}
    (hSame : ∀ t, p t ↔ q t = true) :
    Balanced opens p ts ↔
      ∃ chunks, Form.Chunks opens q ts chunks := by
  constructor
  · intro hRun
    induction hRun with
    | nil => exact ⟨_, .nil⟩
    | token hOpens hFirst _ ih =>
        rcases ih with ⟨chunks, hChunks⟩
        exact ⟨_, .token hOpens ((hSame _).mp hFirst) hChunks⟩
    | span hOpens hFirst hBody _ ih =>
        rcases ih with ⟨chunks, hChunks⟩
        exact
          ⟨_, .span hOpens ((hSame _).mp hFirst) hBody
            hChunks⟩
  · intro h
    rcases h with ⟨chunks, hChunks⟩
    induction hChunks with
    | nil => exact .nil
    | token hOpens hFirst _ ih =>
        exact .token hOpens ((hSame _).mpr hFirst) ih
    | span hOpens hFirst hBody _ ih =>
        exact .span hOpens ((hSame _).mpr hFirst) hBody ih

theorem balanced_cons_iff
    {opens : Token → Option Opener}
    {p : Token → Prop}
    {t : Token}
    {ts : List Token}
    (hOpens : opens t = none)
    (hFirst : p t) :
    Balanced opens p (t :: ts) ↔ Balanced opens p ts := by
  constructor
  · intro hRun
    cases hRun with
    | token _ _ hRest => exact hRest
    | span hSpan _ _ _ => simp [hOpens] at hSpan
  · exact .token hOpens hFirst

theorem balanced_all_iff
    {opens : Token → Option Opener}
    {ts : List Token} :
    Balanced opens (fun _ => True) ts ↔
      ∃ chunks,
        Form.Chunks opens (fun _ => true) ts chunks :=
  balanced_iff fun _ => by simp

/- Formatting in front changes no balance. -/
theorem balanced_append_iff
    {p : Token → Prop}
    {blank ts : List Token}
    (hBlank : Form.Fillers blank)
    (hFiller : ∀ t, t.isFiller = true → p t) :
    Balanced opens? p (blank ++ ts) ↔
      Balanced opens? p ts := by
  induction blank with
  | nil => rfl
  | cons t blank ih =>
      have hFirst : t.isFiller = true := hBlank t (by simp)
      rw [List.cons_append,
        balanced_cons_iff (opens?_of_isFiller hFirst)
          (hFiller t hFirst)]
      exact ih fun u hMem => hBlank u (by simp [hMem])

/-
  A fragment is a balanced run.  What follows it is known to
  end it, so only its own tokens count.
-/
theorem exists_fragment_iff
    {ends : Token → Bool}
    {p : Token → Prop}
    {ts rest : List Token}
    (hSame : ∀ t, p t ↔ ends t = false)
    (hFiller : ∀ t, t.isFiller = true → p t)
    (hEnds : Token.Stops (fun t => !ends t) rest)
    (hBlank : Token.Stops Token.isFiller rest) :
    (∃ pieces, Form.Fragment ends ts rest pieces) ↔
      Balanced opens? p ts := by
  have hChunks :
      ∀ us, Balanced opens? p us ↔
        ∃ chunks,
          Form.Chunks opens? (fun t => !ends t) us chunks :=
    fun us => balanced_iff fun t => by simp [hSame t]
  constructor
  · intro h
    rcases h with
      ⟨pieces, leading, body, chunks, rfl, hLeading, _,
        hBody, _, _⟩
    rw [balanced_append_iff hLeading hFiller, hChunks]
    exact ⟨chunks, hBody⟩
  · intro hRun
    -- The leading formatting is as long as possible.
    have hLeading :
        Form.Fillers (ts.takeWhile Token.isFiller) :=
      fun t hMem => List.mem_takeWhile_imp hMem
    rw [← List.takeWhile_append_dropWhile
        (p := Token.isFiller) (l := ts),
      balanced_append_iff hLeading hFiller, hChunks] at hRun
    rcases hRun with ⟨chunks, hBody⟩
    refine
      ⟨_, _, _, chunks,
        List.takeWhile_append_dropWhile.symm, hLeading, ?_,
        hBody, hEnds, rfl⟩
    cases hDrop : ts.dropWhile Token.isFiller with
    | nil => exact hBlank
    | cons t us =>
        have hHead := List.head?_dropWhile_not
          Token.isFiller ts
        simpa [hDrop] using hHead

end Sheet

end LosslessCss

------------------------------------------------------------
-- Declarations
------------------------------------------------------------

namespace LosslessCss

open Grammar

/- A span ends with its closer. -/
theorem Form.SpanRest.exists_last
    {closer : Closer}
    {ts : List Token}
    (hSpan : Form.SpanRest closer ts) :
    ∃ front last,
      ts = front ++ [last] ∧ closer.closes last = true := by
  induction hSpan with
  | close hCloses => exact ⟨[], _, rfl, hCloses⟩
  | @plain _ t _ _ _ _ ih =>
      rcases ih with ⟨front, last, rfl, hCloses⟩
      exact ⟨t :: front, last, rfl, hCloses⟩
  | @nested _ t _ body _ _ _ _ _ ih =>
      rcases ih with ⟨front, last, rfl, hCloses⟩
      exact
        ⟨t :: (body ++ front), last, by simp, hCloses⟩

namespace Sheet

/- A token that closes no span can be taken off the end. -/
theorem Balanced.of_concat
    {opens : Token → Option Opener}
    {p : Token → Prop}
    {ts us : List Token}
    {mark : Token}
    (hRun : Balanced opens p us)
    (hParts : us = ts ++ [mark])
    (hMark : ∀ closer : Closer, closer.closes mark = false) :
    Balanced opens p ts := by
  induction hRun generalizing ts with
  | nil => simp at hParts
  | @token t us hOpens hFirst _ ih =>
      cases ts with
      | nil => exact .nil
      | cons u ts =>
          rcases List.cons.inj hParts with ⟨rfl, hTail⟩
          exact .token hOpens hFirst (ih hTail)
  | @span t opener body us hOpens hFirst hBody _ ih =>
      rcases List.eq_nil_or_concat' us with
        rfl | ⟨front, last, rfl⟩
      · -- The last token would be the closer of the span.
        rcases hBody.exists_last with
          ⟨front, last, rfl, hCloses⟩
        have hLast : last = mark := by
          have hAll :
              (t :: front) ++ [last] = ts ++ [mark] := by
            simpa using hParts
          simpa using List.append_inj_right' hAll rfl
        rw [hLast, hMark] at hCloses
        cases hCloses
      · have hAll :
            (t :: (body ++ front)) ++ [last] =
              ts ++ [mark] := by
          simpa using hParts
        have hFront := List.append_inj_left' hAll rfl
        have hLast := List.append_inj_right' hAll rfl
        rw [← hFront]
        exact
          .span hOpens hFirst hBody (ih (by rw [hLast]))

theorem Balanced.concat
    {opens : Token → Option Opener}
    {p : Token → Prop}
    {ts : List Token}
    {mark : Token}
    (hRun : Balanced opens p ts)
    (hOpens : opens mark = none)
    (hMark : p mark) :
    Balanced opens p (ts ++ [mark]) := by
  induction hRun with
  | nil => exact .token hOpens hMark .nil
  | token hNone hFirst _ ih => exact .token hNone hFirst ih
  | @span t _ body ts hSome hFirst hBody _ ih =>
      rw [List.cons_append, List.append_assoc]
      exact .span hSome hFirst hBody ih

/- The value of a declaration keeps its semicolon. -/
theorem balanced_append_end_iff
    {ts mark rest : List Token}
    (hEnd : Form.End mark rest) :
    Balanced opensFunction? (fun _ => True) (ts ++ mark) ↔
      Balanced opensFunction? (fun _ => True) ts := by
  cases hEnd with
  | nothing _ => rw [List.append_nil]
  | @semicolon t _ hKind =>
      have hCloses :
          ∀ closer : Closer, closer.closes t = false := by
        intro closer
        cases closer <;> simp [Closer.closes, hKind]
      have hOpens : opensFunction? t = none := by
        simp [opensFunction?, hKind]
      constructor
      · intro hRun
        exact hRun.of_concat rfl hCloses
      · intro hRun
        exact hRun.concat hOpens trivial

/- What ends a declaration comes after its colon. -/
theorem exists_value_of_end
    {front run mark rest value : List Token}
    {colon : Token}
    (hEnd : Form.End mark rest)
    (hAll : run ++ mark = front ++ colon :: value)
    (hColon : colon.kind = .colon) :
    ∃ inner,
      value = inner ++ mark ∧
        run = front ++ colon :: inner := by
  cases hEnd with
  | nothing _ => exact ⟨value, by simp, by simpa using hAll⟩
  | @semicolon t _ hKind =>
      rcases List.eq_nil_or_concat' value with
        rfl | ⟨inner, last, rfl⟩
      · have hLast := List.append_inj_right' hAll rfl
        simp only [List.cons.injEq, and_true] at hLast
        rw [hLast, hColon] at hKind
        cases hKind
      · rw [← List.cons_append, ← List.append_assoc] at hAll
        have hRun := List.append_inj_left' hAll rfl
        have hLast := List.append_inj_right' hAll rfl
        exact ⟨inner, by rw [hLast], hRun⟩

theorem exists_declaration_iff
    {run mark rest : List Token}
    (hRun : ∀ t ∈ run, Inner t)
    (hEnd : Form.End mark rest) :
    (∃ leaf, Form.Declaration (run ++ mark) leaf) ↔
      Property run := by
  constructor
  · intro h
    rcases h with ⟨leaf, hForm⟩
    generalize hAll : run ++ mark = ts at hForm
    cases hForm with
    | @intro name colon between value chunks
        hName hBetween hColon hValue =>
        rw [← List.cons_append] at hAll
        rcases exists_value_of_end hEnd hAll hColon with
          ⟨inner, rfl, hParts⟩
        refine
          ⟨name, between, colon, inner, hParts, hName, ?_,
            hColon, ?_⟩
        · intro t hMem hKind
          simpa [beforeColon, hKind] using hBetween t hMem
        · rw [← balanced_append_end_iff hEnd,
            balanced_all_iff]
          exact ⟨chunks, hValue⟩
  · intro h
    rcases h with
      ⟨name, between, colon, value, rfl, hName, hBetween,
        hColon, hValue⟩
    rw [← balanced_append_end_iff hEnd, balanced_all_iff]
      at hValue
    rcases hValue with ⟨chunks, hValue⟩
    have hBefore :
        ∀ t ∈ between, beforeColon t = true := by
      intro t hMem
      have hInner := hRun t (by simp [hMem])
      unfold beforeColon
      split
      · exact absurd ‹_› (hBetween t hMem)
      · exact absurd ‹_› hInner.1
      · rfl
    have hForm :=
      Form.Declaration.intro hName hBefore hColon hValue
    rw [List.cons_append, List.append_assoc,
      List.cons_append]
    exact ⟨_, hForm⟩

end Sheet

end LosslessCss

------------------------------------------------------------
-- Statements and Openings
------------------------------------------------------------

namespace LosslessCss

open Grammar

namespace Sheet

/- Conditions of an import, up to the end of the import. -/
theorem exists_conditions_iff
    {ts mark rest : List Token}
    (hEnd : Form.End mark rest) :
    (∃ pieces,
      Form.Fragment endsImport ts (mark ++ rest) pieces) ↔
      Balanced opens? Inner ts := by
  apply exists_fragment_iff
  · intro t
    exact inner_iff_endsImport
  · intro t hFiller
    rw [inner_iff_endsImport]
    unfold endsImport
    split <;>
      simp_all [Token.isFiller, Token.isWhitespace,
        Token.isComment]
  · apply stops_of_end hEnd
    · intro t hKind
      simp [endsImport, hKind]
    · intro t hKind
      simp [endsImport, hKind]
  · exact stops_isFiller_of_end hEnd

/- Parameters of a nested at-rule, up to its left brace. -/
theorem exists_parameters_iff
    {ts : List Token}
    {left : Token}
    (hLeft : left.kind = .leftCurly) :
    (∃ pieces,
      Form.Fragment isLeftCurly ts [left] pieces) ↔
      Balanced opens? (fun t => t.kind ≠ .leftCurly) ts := by
  apply exists_fragment_iff
  · intro t
    exact kind_ne_leftCurly_iff
  · intro t hFiller hKind
    simp [Token.isFiller, Token.isWhitespace,
      Token.isComment, hKind] at hFiller
  · simp [isLeftCurly, hLeft]
  · simp [Token.isFiller, Token.isWhitespace,
      Token.isComment, hLeft]

/- A statement of a form is in the grammar. -/
theorem statement_of_form
    {t : Token}
    {name : StatementRule}
    {ts rest : List Token}
    {pieces : List Piece}
    (hKeyword : Form.IsKeyword t name.keyword)
    (hForm : Form.Statement name ts rest pieces) :
    Statement (t :: ts) rest := by
  cases hForm with
  | charsetRule hBlank hQuoted hInner hEnd =>
      exact
        .charsetRule hKeyword hBlank hQuoted hInner hEnd
  | importRule hBlank hUrl hConditions hEnd =>
      have hRun :=
        (exists_conditions_iff hEnd).mp ⟨_, hConditions⟩
      exact .importRule hKeyword hBlank ⟨_, hUrl⟩ hRun hEnd
  | namespaceRule hName hUrl hInner hEnd =>
      cases hName with
      | absent hBlank =>
          exact
            .namespaceRule hKeyword hBlank ⟨_, hUrl⟩ hInner
              hEnd
      | present hBlank hIdent hBetween =>
          rw [List.append_assoc, List.cons_append]
          exact
            .namedNamespaceRule hKeyword hBlank hIdent
              hBetween ⟨_, hUrl⟩ hInner hEnd

/- A statement of the grammar has a form. -/
theorem Statement.exists_flat
    {ts rest : List Token}
    (hItem : Statement ts rest) :
    ∃ leaf, Form.Flat ts rest leaf := by
  cases hItem with
  | charsetRule hKeyword hBlank hName hInner hEnd =>
      have hForm :=
        Form.Statement.charsetRule hBlank hName hInner hEnd
      refine ⟨_, .statement ?_ hForm⟩
      exact hKeyword
  | importRule hKeyword hBlank hUrl hConditions hEnd =>
      rcases hUrl with ⟨address, hUrl⟩
      rcases (exists_conditions_iff hEnd).mpr hConditions
        with ⟨pieces, hRun⟩
      have hForm :=
        Form.Statement.importRule hBlank hUrl hRun hEnd
      refine ⟨_, .statement ?_ hForm⟩
      exact hKeyword
  | namespaceRule hKeyword hBlank hUrl hInner hEnd =>
      rcases hUrl with ⟨address, hUrl⟩
      have hForm :=
        Form.Statement.namespaceRule (.absent hBlank) hUrl
          hInner hEnd
      refine ⟨_, .statement ?_ hForm⟩
      exact hKeyword
  | namedNamespaceRule hKeyword hBlank hName hBetween hUrl
      hInner hEnd =>
      rcases hUrl with ⟨address, hUrl⟩
      have hForm :=
        Form.Statement.namespaceRule
          (.present hBlank hName hBetween) hUrl hInner hEnd
      rw [List.append_assoc, List.cons_append] at hForm
      refine ⟨_, .statement ?_ hForm⟩
      exact hKeyword

/-
  The tokens that a rule cannot start with are those that
  start another item, or stand between items.
-/
theorem rule_start_iff
    {run : List Token}
    {left : Token}
    (hLeft : left.kind = .leftCurly) :
    (∀ t ∈ run.head?, ¬ Loose t ∧ isAtKeyword t = false) ↔
      Token.Stops Form.startsOther run ∧
        Token.Stops isSeparator (run ++ [left]) := by
  cases run with
  | nil => simp [isSeparator, hLeft]
  | cons t run =>
      simp only [loose_iff, Form.startsOther,
        List.head?_cons, Option.mem_def, Option.some.injEq,
        forall_eq', Token.stops_cons, List.cons_append,
        Bool.or_eq_false_iff, not_or, Bool.not_eq_true]
      tauto

end Sheet

end LosslessCss

------------------------------------------------------------
-- Lists of Items
------------------------------------------------------------

namespace LosslessCss

open Grammar

namespace Sheet

/- Tokens that have the form of items are in the grammar. -/
theorem items_of_form
    {before : String}
    {ts rest : List Token}
    {block : Block}
    (hForm : Form.Items before ts rest block) :
    Items ts rest := by
  induction hForm with
  | done => exact .done
  | separator hSeparator _ ih =>
      exact .loose (loose_iff.mpr (.inl hSeparator)) ih
  | flat hItem _ ih =>
      cases hItem with
      | comment hComment =>
          exact .loose (loose_iff.mpr (.inr hComment)) ih
      | statement hKeyword hValue =>
          have hItem := statement_of_form hKeyword hValue
          exact .statement hItem ih
      | declaration hRun hEnd hContent =>
          have hInner := fun t hMem =>
            inner_iff.mpr (hRun t hMem)
          have hProperty :=
            (exists_declaration_iff hInner hEnd).mp
              ⟨_, hContent⟩
          rw [List.append_assoc]
          exact .declaration hInner hProperty hEnd ih
  | block hHead hSeparator _ hRight _ ihBody ihTail =>
      have hClose := isRightCurly_iff_kind.mp hRight
      cases hHead with
      | rule hRun hStart hSelectors hLeft =>
          have hInner := fun t hMem =>
            inner_iff.mpr (hRun t hMem)
          have hBrace := isLeftCurly_iff_kind.mp hLeft
          have hFirst :=
            (rule_start_iff hBrace).mpr ⟨hStart, hSeparator⟩
          have hSpans :=
            balanced_all_iff.mpr ⟨_, hSelectors⟩
          rw [List.append_assoc, List.singleton_append]
          exact
            .rule hInner hFirst hSpans hBrace ihBody hClose
              ihTail
      | atRule hKeyword hParameters hLeft =>
          have hBrace := isLeftCurly_iff_kind.mp hLeft
          have hRun :=
            (exists_parameters_iff hBrace).mp
              ⟨_, hParameters⟩
          rw [List.cons_append, List.append_assoc,
            List.singleton_append]
          exact
            .nested (mem_nestedWords_iff.mpr ⟨_, rfl⟩)
              hKeyword hRun hBrace ihBody hClose ihTail

/- Tokens in the grammar have the form of items. -/
theorem exists_form_of_items
    {ts rest : List Token}
    (hItems : Items ts rest)
    (before : String) :
    ∃ block, Form.Items before ts rest block := by
  induction hItems generalizing before with
  | done => exact ⟨_, .done⟩
  | @loose t _ _ hLoose _ ih =>
      rcases loose_iff.mp hLoose with hSeparator | hComment
      · rcases ih (before ++ t.raw) with ⟨block, hTail⟩
        exact ⟨_, .separator hSeparator hTail⟩
      · rcases ih "" with ⟨block, hTail⟩
        exact ⟨_, .flat (.comment hComment) hTail⟩
  | statement hItem _ ih =>
      rcases ih "" with ⟨block, hTail⟩
      rcases hItem.exists_flat with ⟨leaf, hFlat⟩
      exact ⟨_, .flat hFlat hTail⟩
  | declaration hRun hProperty hEnd _ ih =>
      rcases ih "" with ⟨block, hTail⟩
      rcases (exists_declaration_iff hRun hEnd).mpr hProperty
        with ⟨leaf, hContent⟩
      rw [← List.append_assoc]
      have hRuns := fun t hMem => inner_iff.mp (hRun t hMem)
      exact
        ⟨_, .flat (.declaration hRuns hEnd hContent) hTail⟩
  | @nested keyword left right word parameters body ts rest
      hWord hKeyword hParameters hLeft _ hRight _
      ihBody ihTail =>
      rcases mem_nestedWords_iff.mp hWord with ⟨name, rfl⟩
      rcases ihBody "" with ⟨inner, hBody⟩
      rcases ihTail "" with ⟨block, hTail⟩
      rcases (exists_parameters_iff hLeft).mpr hParameters
        with ⟨pieces, hRun⟩
      have hHead :=
        Form.Opens.atRule hKeyword hRun
          (isLeftCurly_iff_kind.mpr hLeft)
      have hSeparator :
          Token.Stops isSeparator
            (keyword :: (parameters ++ [left])) := by
        rcases isAtKeyword_iff_kind.mp hKeyword.1 with
          ⟨_, hKind⟩
        simp [isSeparator, hKind]
      have hParts :
          keyword ::
              (parameters ++ left :: (body ++ right :: ts)) =
            (keyword :: (parameters ++ [left])) ++
              (body ++ right :: ts) := by
        simp
      rw [hParts]
      exact
        ⟨_, .block hHead hSeparator hBody
          (isRightCurly_iff_kind.mpr hRight) hTail⟩
  | rule hRun hStart hSpans hLeft _ hRight _ ihBody ihTail =>
      rcases ihBody "" with ⟨inner, hBody⟩
      rcases ihTail "" with ⟨block, hTail⟩
      rcases balanced_all_iff.mp hSpans with
        ⟨chunks, hSelectors⟩
      rcases (rule_start_iff hLeft).mp hStart with
        ⟨hFirst, hSeparator⟩
      have hRuns := fun t hMem => inner_iff.mp (hRun t hMem)
      have hHead :=
        Form.Opens.rule hRuns hFirst hSelectors
          (isLeftCurly_iff_kind.mpr hLeft)
      rw [List.append_cons]
      exact
        ⟨_, .block hHead hSeparator hBody
          (isRightCurly_iff_kind.mpr hRight) hTail⟩

/- The grammar without trees is the one with trees. -/
theorem items_iff
    {ts rest : List Token} :
    Items ts rest ↔
      ∃ block, Form.Items "" ts rest block := by
  constructor
  · intro hItems
    exact exists_form_of_items hItems ""
  · intro h
    rcases h with ⟨block, hForm⟩
    exact items_of_form hForm

end Sheet

end LosslessCss

------------------------------------------------------------
-- Accepted Style Sheets
------------------------------------------------------------

namespace LosslessCss

open Grammar

namespace Grammar

variable {σ : Type} [TokenSource σ]

/- A source is accepted when its tokens are items. -/
theorem exists_styleSheet_iff
    {s : σ} :
    (∃ root,
      ((document .full .styleSheet).run s).outcome = .ok root) ↔
      Sheet.Items (TokenSource.upcoming s) [] := by
  rw [Sheet.items_iff]
  constructor
  · intro h
    rcases h with ⟨root, hRoot⟩
    rcases yields_styleSheet.mp
        (Parser.yields_of_outcome hRoot) with
      ⟨block, _, hForm, _⟩
    exact ⟨block, hForm⟩
  · intro h
    rcases h with ⟨block, hForm⟩
    rcases TokenSource.exists_passes_upcoming s with
      ⟨s', hPasses, _⟩
    exact
      ⟨_, (yields_styleSheet.mpr
        ⟨block, hPasses, hForm, rfl⟩).1⟩

end Grammar

namespace Parse

/-
  Tokens are accepted as a style sheet exactly when those in
  front of the first end mark are a list of items.
-/
theorem tokens_accepted_iff
    (list : List Token)
    (here : Location)
    (source : Option String) :
    (∃ root,
      tokens list ⟨.styleSheet, here, source⟩ = .ok root) ↔
      Sheet.Items (Token.untilEof list) [] := by
  rw [← TokenList.upcoming_ofTokens]
  exact exists_styleSheet_iff

end Parse

end LosslessCss
