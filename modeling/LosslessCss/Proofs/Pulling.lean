import LosslessCss.Parse
import LosslessCss.Proofs.Sessions

/-
  Which tokens a parse moves to.

  A source that reads its tokens while it moves leaves each
  of them in the trace.  The grammar moves over one token
  after the other and never moves on from an end mark, so
  the trace tells the tokens that were passed, and nothing
  is told twice.

  Key definitions include:
    * `Event.tokens`
    * `Parser.Pulls`

  Key theorems include:
    * `Parser.Pulls.bind`
    * `Grammar.pulls_items`
    * `Grammar.pulls_document`
-/

------------------------------------------------------------
-- Tokens in a Trace
------------------------------------------------------------

namespace LosslessCss

namespace Event

/- The token that an event tells of. -/
def token? : Event → Option Token
| .token t => some t
| _ => none

/- The tokens that a trace tells of. -/
def tokens (trace : List Event) : List Token :=
  trace.filterMap token?

@[simp] theorem tokens_concat
    (first second : List Event) :
    tokens (first ++ second) =
      tokens first ++ tokens second :=
  List.filterMap_append

@[simp] theorem tokens_enter
    (routine : Routine)
    (trace : List Event) :
    tokens (.enter routine :: trace) = tokens trace :=
  rfl

end Event

namespace TokenSource

variable {σ : Type} [TokenSource σ]

theorem tokens_arrival
    (s : σ) :
    Event.tokens (arrival s) =
      if traced σ then [current s] else [] := by
  unfold arrival
  split
  · rfl
  · rfl

end TokenSource

end LosslessCss

------------------------------------------------------------
-- Parsers That Pull
------------------------------------------------------------

namespace LosslessCss

open TokenSource (Passes)

namespace Parser

variable {σ : Type} [TokenSource σ] {α β : Type}

/-
  The parser passes tokens and no end mark.  The trace tells
  the tokens after the first one, up to the one that the
  parser stops at, if the source tells any at all.
-/
def Pulls
    (p : Parser σ α)
    (s : σ) : Prop :=
  ∃ passed arrived,
    Passes s passed (p.run s).source ∧
      passed ++ [TokenSource.current (p.run s).source] =
        TokenSource.current s :: arrived ∧
      Event.tokens (p.run s).trace =
        if TokenSource.traced σ then arrived else []

variable {s : σ}

theorem Pulls.of_eq
    {p q : Parser σ α}
    (hEq : p = q)
    (hPulls : q.Pulls s) :
    p.Pulls s := by
  rw [hEq]
  exact hPulls

/- A parser that stays where it is tells no token. -/
theorem pulls_of_stays
    {p : Parser σ α}
    (hSource : (p.run s).source = s)
    (hTrace : Event.tokens (p.run s).trace = []) :
    p.Pulls s := by
  refine ⟨[], [], hSource.symm, ?_, ?_⟩
  · rw [hSource]
    rfl
  · rw [hTrace, ite_self]

theorem pulls_pure
    (value : α) :
    (pure value : Parser σ α).Pulls s :=
  pulls_of_stays rfl rfl

theorem pulls_fail
    (kind : ErrorKind)
    (detail : String) :
    (fail kind detail : Parser σ α).Pulls s :=
  pulls_of_stays rfl rfl

/-
  What a sequence passes is what its first step passes, and
  then what comes next does.
-/
theorem Pulls.bind
    {p : Parser σ α}
    {next : α → Parser σ β}
    (hFirst : p.Pulls s)
    (hNext :
      ∀ a s', p.Yields s a s' → (next a).Pulls s') :
    (p >>= next).Pulls s := by
  cases hp : (p.run s).outcome with
  | error e =>
      unfold Pulls
      rw [run_bind_of_error p next s hp]
      exact hFirst
  | ok a =>
      rcases hFirst with
        ⟨passed, arrived, hPasses, hArrived, hTrace⟩
      rcases hNext a _ (yields_of_outcome hp) with
        ⟨passed', arrived', hPasses', hArrived', hTrace'⟩
      unfold Pulls
      rw [run_bind_of_ok p next s hp]
      refine
        ⟨passed ++ passed', arrived ++ arrived',
          hPasses.append hPasses', ?_, ?_⟩
      · calc
          passed ++ passed' ++ [_] =
              passed ++ (passed' ++ [_]) :=
            List.append_assoc _ _ _
          _ = passed ++ ([_] ++ arrived') :=
            congrArg (passed ++ ·) hArrived'
          _ = passed ++ [_] ++ arrived' :=
            (List.append_assoc _ _ _).symm
          _ = TokenSource.current s ::
                (arrived ++ arrived') := by
            rw [hArrived, List.cons_append]
      · change Event.tokens (_ ++ _) = _
        rw [Event.tokens_concat, hTrace, hTrace']
        split
        · rfl
        · rfl

theorem pulls_bind_current
    {next : Token → Parser σ β}
    (hNext : (next (TokenSource.current s)).Pulls s) :
    (current >>= next).Pulls s :=
  hNext

theorem pulls_bind_location
    {next : Location → Parser σ β}
    (hNext : (next (TokenSource.location s)).Pulls s) :
    (location >>= next).Pulls s :=
  hNext

theorem pulls_bind_enter
    {routine : Routine}
    {next : Unit → Parser σ β}
    (hNext : (next ()).Pulls s) :
    (enter routine >>= next).Pulls s :=
  hNext

/- A token is only moved over when it is no end mark. -/
theorem pulls_advance
    (hEof : (TokenSource.current s).isEof = false) :
    (advance : Parser σ Unit).Pulls s := by
  refine
    ⟨[TokenSource.current s],
      [TokenSource.current (TokenSource.advance s)],
      .single hEof, rfl, ?_⟩
  exact TokenSource.tokens_arrival (TokenSource.advance s)

theorem pulls_bind_advance
    {next : Unit → Parser σ β}
    (hEof : (TokenSource.current s).isEof = false)
    (hNext : (next ()).Pulls (TokenSource.advance s)) :
    (advance >>= next).Pulls s := by
  apply (pulls_advance hEof).bind
  rintro _ s' ⟨_, rfl⟩
  exact hNext

/- The tokens of an isolated run have been read before. -/
theorem pulls_isolated
    {p : Scope → Parser TokenSlice α}
    {tokens : List Token}
    {fallback : Location}
    (hRun :
      (p .fragment).Pulls
        (TokenSlice.ofTokens tokens fallback)) :
    (isolated tokens fallback p : Parser σ α).Pulls s := by
  rcases hRun with ⟨_, _, _, _, hTrace⟩
  exact pulls_of_stays rfl hTrace

theorem pulls_ite
    {c : Prop}
    [Decidable c]
    {p q : Parser σ α}
    (hYes : c → p.Pulls s)
    (hNo : ¬ c → q.Pulls s) :
    (if c then p else q).Pulls s := by
  split
  · exact hYes ‹_›
  · exact hNo ‹_›

end Parser

end LosslessCss

------------------------------------------------------------
-- Runs and Spans
------------------------------------------------------------

namespace LosslessCss

namespace Grammar

variable {σ : Type} [TokenSource σ] {s : σ}

theorem pulls_tokensWhile
    (p : Token → Bool) :
    (tokensWhile p : Parser σ (List Token)).Pulls s := by
  induction s using TokenSource.remaining_induction with
  | step s ih =>
      apply Parser.Pulls.of_eq (tokensWhile_eq p)
      apply Parser.pulls_bind_current
      apply Parser.pulls_ite
      · intro hGoesOn
        simp only [Bool.and_eq_true, Bool.not_eq_true']
          at hGoesOn
        apply Parser.pulls_bind_advance hGoesOn.1
        apply (ih _
          (TokenSource.remaining_advance_lt s
            hGoesOn.1)).bind
        intro tail s' _
        exact Parser.pulls_pure _
      · intro _
        exact Parser.pulls_pure _

theorem pulls_filler :
    (filler : Parser σ String).Pulls s := by
  apply (pulls_tokensWhile _).bind
  intro tokens s' _
  exact Parser.pulls_pure _

theorem pulls_span
    (closer : Closer) :
    (span closer : Parser σ String).Pulls s := by
  induction s using TokenSource.remaining_induction
    generalizing closer with
  | step s ih =>
      apply Parser.Pulls.of_eq (span_eq closer)
      apply Parser.pulls_bind_current
      apply Parser.pulls_ite
      · intro hCloses
        have hEof := isEof_of_closes hCloses
        apply Parser.pulls_bind_advance hEof
        exact Parser.pulls_pure _
      · intro _
        apply Parser.pulls_ite
        · intro _
          exact Parser.pulls_fail _ _
        · intro hEof
          rw [Bool.not_eq_true] at hEof
          have hLt := TokenSource.remaining_advance_lt s hEof
          cases hOpens : opens? (TokenSource.current s) with
          | none =>
              apply Parser.pulls_bind_advance hEof
              apply (ih _ hLt closer).bind
              intro tail s' _
              exact Parser.pulls_pure _
          | some opener =>
              apply Parser.pulls_bind_enter
              apply Parser.pulls_bind_advance hEof
              apply (ih _ hLt opener.closer).bind
              intro body s' hBody
              have hLast :=
                Nat.lt_of_le_of_lt hBody.remaining_le hLt
              apply (ih _ hLast closer).bind
              intro tail s'' _
              exact Parser.pulls_pure _

/- A chunk is only read where there is a token. -/
theorem pulls_chunk
    (opens : Token → Option Opener)
    (hEof : (TokenSource.current s).isEof = false) :
    (chunk opens : Parser σ Chunk).Pulls s := by
  apply Parser.pulls_bind_current
  cases hOpens : opens (TokenSource.current s) with
  | none =>
      apply Parser.pulls_bind_advance hEof
      exact Parser.pulls_pure _
  | some opener =>
      apply Parser.pulls_bind_enter
      apply Parser.pulls_bind_advance hEof
      apply (pulls_span _).bind
      intro body s' _
      exact Parser.pulls_pure _

theorem pulls_chunksWhile
    (opens : Token → Option Opener)
    (p : Token → Bool) :
    (chunksWhile opens p :
      Parser σ (List Chunk)).Pulls s := by
  induction s using TokenSource.remaining_induction with
  | step s ih =>
      apply Parser.Pulls.of_eq (chunksWhile_eq opens p)
      apply Parser.pulls_bind_current
      apply Parser.pulls_ite
      · intro hGoesOn
        simp only [Bool.and_eq_true, Bool.not_eq_true']
          at hGoesOn
        apply (pulls_chunk opens hGoesOn.1).bind
        intro first s' hFirst
        have hLt :=
          (consumes_chunk opens hGoesOn.1).lt_of_yields hFirst
        apply (ih _ hLt).bind
        intro tail s'' _
        exact Parser.pulls_pure _
      · intro _
        exact Parser.pulls_pure _

theorem pulls_fragment
    (ends : Token → Bool) :
    (fragment ends : Parser σ (List Piece)).Pulls s := by
  apply Parser.pulls_bind_enter
  apply pulls_filler.bind
  intro leading s' _
  apply (pulls_chunksWhile _ _).bind
  intro chunks s'' _
  exact Parser.pulls_pure _

end Grammar

end LosslessCss

------------------------------------------------------------
-- At-Rules
------------------------------------------------------------

namespace LosslessCss

namespace Grammar

variable {σ : Type} [TokenSource σ] {s : σ}

theorem pulls_address
    (kind : ErrorKind) :
    (address kind : Parser σ Piece).Pulls s := by
  apply Parser.pulls_bind_current
  apply Parser.pulls_ite
  · intro hPlain
    have hEof := isEof_of_test hPlain fun _ _ => rfl
    apply Parser.pulls_bind_advance hEof
    exact Parser.pulls_pure _
  · intro _
    apply Parser.pulls_ite
    · intro hUrl
      have hEof := isEof_of_test hUrl fun _ _ => rfl
      apply (pulls_chunk _ hEof).bind
      intro call s' _
      exact Parser.pulls_pure _
    · intro _
      exact Parser.pulls_fail _ _

theorem pulls_statementEnd
    (pieces : List Piece)
    (kind : ErrorKind) :
    (statementEnd pieces kind :
      Parser σ (List Piece)).Pulls s := by
  apply pulls_filler.bind
  intro blank s' _
  apply Parser.pulls_bind_current
  split
  · rename_i hKind
    have hEof : (TokenSource.current s').isEof = false := by
      simp [Token.isEof, hKind]
    apply Parser.pulls_bind_advance hEof
    exact Parser.pulls_pure _
  · exact Parser.pulls_pure _
  · exact Parser.pulls_pure _
  · exact Parser.pulls_fail _ _

theorem pulls_charsetValue :
    (charsetValue : Parser σ (List Piece)).Pulls s := by
  apply Parser.pulls_bind_enter
  apply pulls_filler.bind
  intro blank s' _
  apply Parser.pulls_bind_current
  apply Parser.pulls_ite
  · intro hQuoted
    have hEof := isEof_of_test hQuoted fun _ _ => rfl
    apply Parser.pulls_bind_advance hEof
    exact pulls_statementEnd _ _
  · intro _
    exact Parser.pulls_fail _ _

theorem pulls_importValue :
    (importValue : Parser σ (List Piece)).Pulls s := by
  apply Parser.pulls_bind_enter
  apply pulls_filler.bind
  intro blank s₁ _
  apply (pulls_address _).bind
  intro url s₂ _
  apply (pulls_fragment _).bind
  intro conditions s₃ _
  exact pulls_statementEnd _ _

theorem pulls_namespaceName :
    (namespaceName : Parser σ (List Piece)).Pulls s := by
  apply pulls_filler.bind
  intro blank s' _
  apply Parser.pulls_bind_current
  apply Parser.pulls_ite
  · intro hIdent
    have hEof := isEof_of_test hIdent fun _ _ => rfl
    apply Parser.pulls_bind_advance hEof
    apply pulls_filler.bind
    intro inner s'' _
    exact Parser.pulls_pure _
  · intro _
    exact Parser.pulls_pure _

theorem pulls_namespaceValue :
    (namespaceValue : Parser σ (List Piece)).Pulls s := by
  apply Parser.pulls_bind_enter
  apply pulls_namespaceName.bind
  intro name s' _
  apply (pulls_address _).bind
  intro url s'' _
  exact pulls_statementEnd _ _

theorem pulls_statementValue
    (name : StatementRule) :
    (statementValue name :
      Parser σ (List Piece)).Pulls s := by
  cases name with
  | charsetRule => exact pulls_charsetValue
  | importRule => exact pulls_importValue
  | namespaceRule => exact pulls_namespaceValue

theorem pulls_blockParameters :
    (blockParameters : Parser σ (List Piece)).Pulls s := by
  apply Parser.pulls_bind_enter
  apply (pulls_fragment _).bind
  intro parameters s' _
  apply Parser.pulls_bind_current
  apply Parser.pulls_ite
  · intro hLeft
    have hEof := isEof_of_test hLeft fun _ _ => rfl
    apply Parser.pulls_bind_advance hEof
    exact Parser.pulls_pure _
  · intro _
    exact Parser.pulls_fail _ _

/-
  The text of an end mark may look like a keyword, so the
  token has to be known here.
-/
theorem pulls_atRule
    (hEof : (TokenSource.current s).isEof = false) :
    (atRule : Parser σ Head).Pulls s := by
  apply Parser.pulls_bind_enter
  apply Parser.pulls_bind_current
  split
  · exact Parser.pulls_fail _ _
  · apply Parser.pulls_bind_advance hEof
    apply (pulls_statementValue _).bind
    intro value s' _
    exact Parser.pulls_pure _
  · apply Parser.pulls_bind_advance hEof
    apply pulls_blockParameters.bind
    intro parameters s' _
    exact Parser.pulls_pure _

end Grammar

end LosslessCss

------------------------------------------------------------
-- Items
------------------------------------------------------------

namespace LosslessCss

namespace Grammar

variable {σ : Type} [TokenSource σ] {s : σ}

theorem pulls_ambiguousSpan :
    (ambiguousSpan :
      Parser σ (List Token × SpanEnd)).Pulls s := by
  apply Parser.pulls_bind_enter
  apply (pulls_tokensWhile _).bind
  intro tokens s' _
  apply Parser.pulls_bind_current
  split
  · rename_i hKind
    have hEof : (TokenSource.current s').isEof = false := by
      simp [Token.isEof, hKind]
    apply Parser.pulls_bind_advance hEof
    exact Parser.pulls_pure _
  · rename_i hKind
    have hEof : (TokenSource.current s').isEof = false := by
      simp [Token.isEof, hKind]
    apply Parser.pulls_bind_advance hEof
    exact Parser.pulls_pure _
  · apply Parser.pulls_ite
    · intro _
      exact Parser.pulls_fail _ _
    · intro _
      exact Parser.pulls_pure _
  · exact Parser.pulls_pure _

theorem pulls_selectorList :
    (selectorList : Parser σ (List Piece)).Pulls s := by
  apply Parser.pulls_bind_enter
  apply (pulls_chunksWhile _ _).bind
  intro chunks s' _
  exact Parser.pulls_pure _

theorem pulls_declaration :
    (declaration : Parser σ Leaf).Pulls s := by
  apply Parser.pulls_bind_enter
  apply Parser.pulls_bind_current
  apply Parser.pulls_ite
  · intro hIdent
    have hEof := isEof_of_test hIdent fun _ _ => rfl
    apply Parser.pulls_bind_advance hEof
    apply (pulls_tokensWhile _).bind
    intro between s' _
    apply Parser.pulls_bind_current
    split
    · rename_i hKind
      have hColon : (TokenSource.current s').isEof = false :=
        by simp [Token.isEof, hKind]
      apply Parser.pulls_bind_advance hColon
      apply (pulls_chunksWhile _ _).bind
      intro chunks s'' _
      exact Parser.pulls_pure _
    · exact Parser.pulls_fail _ _
  · intro _
    exact Parser.pulls_fail _ _

theorem pulls_ruleOpening
    (tokens : List Token)
    (start : Location) :
    (ruleOpening tokens start : Parser σ Opening).Pulls s := by
  apply Parser.pulls_bind_enter
  apply (Parser.pulls_isolated pulls_selectorList).bind
  intro selectors s' _
  exact Parser.pulls_pure _

theorem pulls_isolatedDeclaration
    (tokens : List Token) :
    (isolatedDeclaration tokens : Parser σ Leaf).Pulls s := by
  apply Parser.pulls_bind_location
  exact Parser.pulls_isolated pulls_declaration

theorem pulls_ruleOrDeclaration :
    (ruleOrDeclaration : Parser σ Head).Pulls s := by
  apply Parser.pulls_bind_enter
  apply Parser.pulls_bind_location
  apply pulls_ambiguousSpan.bind
  rintro ⟨tokens, ending⟩ s' _
  cases ending with
  | declaration =>
      apply (pulls_isolatedDeclaration tokens).bind
      intro content s'' _
      exact Parser.pulls_pure _
  | block =>
      apply (pulls_ruleOpening tokens _).bind
      intro opening s'' _
      exact Parser.pulls_pure _

theorem pulls_itemHead :
    (itemHead : Parser σ Head).Pulls s := by
  apply Parser.pulls_bind_current
  split
  · rename_i hKind
    have hEof : (TokenSource.current s).isEof = false := by
      simp [Token.isEof, hKind]
    apply Parser.pulls_bind_advance hEof
    exact Parser.pulls_pure _
  · rename_i hKind
    have hEof : (TokenSource.current s).isEof = false := by
      simp [Token.isEof, hKind]
    exact pulls_atRule hEof
  · exact pulls_ruleOrDeclaration

/- A block pulls when the items in it do. -/
theorem pulls_blockNode_of_items
    (opening : Opening)
    (start : Location)
    (hItems : (items true "" : Parser σ Block).Pulls s) :
    (blockNode .full opening start :
      Parser σ Node).Pulls s := by
  have hList :
      (ruleList .full true : Parser σ Block).Pulls s :=
    Parser.Pulls.of_eq (ruleList_eq true)
      (Parser.pulls_bind_enter hItems)
  apply hList.bind
  intro block s' _
  apply Parser.pulls_bind_current
  apply Parser.pulls_ite
  · intro hRight
    have hEof := isEof_of_test hRight fun _ _ => rfl
    apply Parser.pulls_bind_advance hEof
    exact Parser.pulls_pure _
  · intro _
    exact Parser.pulls_fail _ _

theorem pulls_finishItem_of_items
    (head : Head)
    (start : Location)
    (hItems : (items true "" : Parser σ Block).Pulls s) :
    (finishItem .full head start :
      Parser σ Node).Pulls s := by
  cases head with
  | leaf content => exact Parser.pulls_pure _
  | opening opening =>
      exact pulls_blockNode_of_items opening start hItems

theorem pulls_items
    (nested : Bool)
    (before : String) :
    (items nested before : Parser σ Block).Pulls s := by
  -- The items inside of a block and those after it start
  -- at places that have less left than the block itself.
  induction s using TokenSource.remaining_induction
    generalizing nested before with
  | step s ih =>
      apply Parser.Pulls.of_eq (items_eq nested before)
      apply Parser.pulls_bind_current
      apply Parser.pulls_ite
      · intro _
        exact Parser.pulls_pure _
      · intro hGoesOn
        have hEof :
            (TokenSource.current s).isEof = false := by
          simp only [endsItems, Bool.or_eq_true, not_or]
            at hGoesOn
          simpa using hGoesOn.1
        apply Parser.pulls_ite
        · intro _
          apply Parser.pulls_bind_advance hEof
          exact ih _
            (TokenSource.remaining_advance_lt s hEof) _ _
        · intro _
          apply pulls_itemHead.bind
          intro head s₁ hHead
          have hLt₁ :=
            (consumes_itemHead hEof).lt_of_yields hHead
          apply (pulls_finishItem_of_items head _
            (ih _ hLt₁ true "")).bind
          intro node s₂ hNode
          have hLt₂ :=
            Nat.lt_of_le_of_lt hNode.remaining_le hLt₁
          apply (ih _ hLt₂ nested "").bind
          intro tail s₃ _
          exact Parser.pulls_pure _

end Grammar

end LosslessCss

------------------------------------------------------------
-- Documents
------------------------------------------------------------

namespace LosslessCss

namespace Grammar

variable {σ : Type} [TokenSource σ] {s : σ}

theorem pulls_styleSheet :
    (styleSheet .full : Parser σ Node).Pulls s := by
  have hList :
      (ruleList .full false : Parser σ Block).Pulls s :=
    Parser.Pulls.of_eq (ruleList_eq false)
      (Parser.pulls_bind_enter (pulls_items false ""))
  apply Parser.pulls_bind_enter
  apply Parser.pulls_bind_location
  apply hList.bind
  intro block s' _
  exact Parser.pulls_pure _

theorem pulls_singleRule :
    (singleRule .full : Parser σ Node).Pulls s := by
  apply Parser.pulls_bind_enter
  apply Parser.pulls_bind_current
  apply Parser.pulls_ite
  · intro _
    exact Parser.pulls_fail _ _
  · intro _
    apply Parser.pulls_bind_location
    apply pulls_ambiguousSpan.bind
    rintro ⟨tokens, ending⟩ s' _
    cases ending with
    | block =>
        apply (pulls_ruleOpening tokens _).bind
        intro opening s'' _
        exact
          pulls_blockNode_of_items opening _
            (pulls_items true "")
    | declaration => exact Parser.pulls_fail _ _

theorem pulls_singleAtRule :
    (singleAtRule .full : Parser σ Node).Pulls s := by
  apply Parser.pulls_bind_enter
  apply Parser.pulls_bind_current
  apply Parser.pulls_ite
  · intro hKeyword
    have hEof := isEof_of_test hKeyword fun _ _ => rfl
    apply (pulls_atRule hEof).bind
    intro head s' _
    exact
      pulls_finishItem_of_items head _ (pulls_items true "")
  · intro _
    exact Parser.pulls_fail _ _

theorem pulls_singleDeclaration :
    (singleDeclaration : Parser σ Node).Pulls s := by
  apply Parser.pulls_bind_enter
  apply Parser.pulls_bind_location
  apply pulls_ambiguousSpan.bind
  rintro ⟨tokens, ending⟩ s' _
  cases ending with
  | declaration =>
      apply (pulls_isolatedDeclaration tokens).bind
      intro content s'' _
      exact Parser.pulls_pure _
  | block => exact Parser.pulls_fail _ _

theorem pulls_single
    {item : Parser σ Node}
    (kind : ErrorKind)
    (hItem : ∀ s', item.Pulls s') :
    (single item kind).Pulls s := by
  apply Parser.pulls_bind_enter
  apply Parser.pulls_bind_location
  apply pulls_filler.bind
  intro before s₁ _
  apply (hItem s₁).bind
  intro node s₂ _
  apply pulls_filler.bind
  intro after s₃ _
  apply Parser.pulls_bind_current
  apply Parser.pulls_ite
  · intro _
    exact Parser.pulls_pure _
  · intro _
    exact Parser.pulls_fail _ _

/- In every context the end mark is where a parse stops. -/
theorem pulls_document
    (context : Context) :
    (document .full context : Parser σ Node).Pulls s := by
  cases context with
  | styleSheet => exact pulls_styleSheet
  | rule => exact pulls_single _ fun _ => pulls_singleRule
  | atRule => exact pulls_single _ fun _ => pulls_singleAtRule
  | declaration =>
      exact pulls_single _ fun _ => pulls_singleDeclaration

end Grammar

end LosslessCss
