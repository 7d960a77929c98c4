import LosslessCss.Lexer
import LosslessCss.Proofs.Failing

/-
  What the scope of a session makes available.

  A list of items asks for the full grammar, and fails in a
  fragment before it takes a token.  Nothing else in the
  grammar asks for it.  A fragment is only made for selectors
  or for a declaration, which have no lists of items, so a
  parse that starts with the full grammar never misses any
  of it, whatever tokens it reads.

  Key definitions include:
    * `Parser.Available`

  Key theorems include:
    * `Grammar.fails_ruleList_fragment`
    * `Grammar.available_items`
    * `Grammar.available_document`
    * `Session.parse_styleSheet_of_fragment`
    * `Session.unavailable_iff_fragment`
-/

------------------------------------------------------------
-- Available Parsers
------------------------------------------------------------

namespace LosslessCss

namespace Parser

variable {σ : Type} [TokenSource σ] {α β : Type}

/- The parser never fails for want of a part of the grammar. -/
def Available (p : Parser σ α) : Prop :=
  ∀ s e, p.Fails s e → e.kind ≠ .unimplemented

theorem available_pure
    (value : α) :
    (pure value : Parser σ α).Available :=
  fun _ _ h => absurd h fails_pure

theorem available_fail
    {kind : ErrorKind}
    (hKind : kind ≠ .unimplemented)
    (detail : String) :
    (fail kind detail : Parser σ α).Available := by
  intro s e h
  rw [fails_fail.mp h]
  exact hKind

/- A sequence misses only what one of its steps misses. -/
theorem Available.bind
    {p : Parser σ α}
    {f : α → Parser σ β}
    (hFirst : p.Available)
    (hNext : ∀ a, (f a).Available) :
    (p >>= f).Available := by
  intro s e h
  rcases fails_bind.mp h with hHere | ⟨a, m, _, hThere⟩
  · exact hFirst s e hHere
  · exact hNext a m e hThere

theorem available_bind_current
    {f : Token → Parser σ β}
    (hNext : ∀ t, (f t).Available) :
    (current >>= f).Available :=
  fun s e h => hNext _ s e (fails_bind_current.mp h)

theorem available_bind_location
    {f : Location → Parser σ β}
    (hNext : ∀ here, (f here).Available) :
    (location >>= f).Available :=
  fun s e h => hNext _ s e (fails_bind_location.mp h)

theorem available_bind_advance
    {f : Unit → Parser σ β}
    (hNext : (f ()).Available) :
    (advance >>= f).Available :=
  fun _ e h => hNext _ e (fails_bind_advance.mp h)

theorem available_bind_enter
    {routine : Routine}
    {f : Unit → Parser σ β}
    (hNext : (f ()).Available) :
    (enter routine >>= f).Available :=
  fun s e h => hNext s e (fails_bind_enter.mp h)

/- An isolated run has only what a fragment has. -/
theorem available_isolated
    {p : Scope → Parser TokenSlice α}
    (hRun : (p .fragment).Available)
    (tokens : List Token)
    (fallback : Location) :
    (isolated tokens fallback p : Parser σ α).Available :=
  fun _ e h => hRun _ e (fails_isolated.mp h)

end Parser

end LosslessCss

------------------------------------------------------------
-- Runs and Spans
------------------------------------------------------------

namespace LosslessCss

namespace Grammar

variable {σ : Type} [TokenSource σ]

theorem available_filler :
    (filler : Parser σ String).Available :=
  fun _ _ h => absurd h not_fails_filler

theorem available_span
    (closer : Closer) :
    (span closer : Parser σ String).Available := by
  intro s e h
  rw [eq_of_fails_span h]
  nofun

theorem available_chunk
    (opens : Token → Option Opener) :
    (chunk opens : Parser σ Chunk).Available := by
  apply Parser.available_bind_current
  intro t
  split
  · apply Parser.available_bind_advance
    exact Parser.available_pure _
  · apply Parser.available_bind_enter
    apply Parser.available_bind_advance
    apply (available_span _).bind
    intro body
    exact Parser.available_pure _

theorem available_fragment
    (ends : Token → Bool) :
    (fragment ends : Parser σ (List Piece)).Available := by
  intro s e h
  rw [eq_of_fails_fragment h]
  nofun

end Grammar

end LosslessCss

------------------------------------------------------------
-- At-Rules
------------------------------------------------------------

namespace LosslessCss

namespace Grammar

variable {σ : Type} [TokenSource σ]

theorem available_address
    {kind : ErrorKind}
    (hKind : kind ≠ .unimplemented) :
    (address kind : Parser σ Piece).Available := by
  apply Parser.available_bind_current
  intro t
  split
  · apply Parser.available_bind_advance
    exact Parser.available_pure _
  · split
    · apply (available_chunk _).bind
      intro call
      exact Parser.available_pure _
    · exact Parser.available_fail hKind _

theorem available_statementEnd
    (pieces : List Piece)
    {kind : ErrorKind}
    (hKind : kind ≠ .unimplemented) :
    (statementEnd pieces kind :
      Parser σ (List Piece)).Available := by
  apply available_filler.bind
  intro blank
  apply Parser.available_bind_current
  intro t
  split
  · apply Parser.available_bind_advance
    exact Parser.available_pure _
  · exact Parser.available_pure _
  · exact Parser.available_pure _
  · exact Parser.available_fail hKind _

theorem available_charsetValue :
    (charsetValue : Parser σ (List Piece)).Available := by
  apply Parser.available_bind_enter
  apply available_filler.bind
  intro blank
  apply Parser.available_bind_current
  intro t
  split
  · apply Parser.available_bind_advance
    exact available_statementEnd _ (by decide)
  · exact Parser.available_fail (by decide) _

theorem available_importValue :
    (importValue : Parser σ (List Piece)).Available := by
  apply Parser.available_bind_enter
  apply available_filler.bind
  intro blank
  apply (available_address (by decide)).bind
  intro url
  apply (available_fragment _).bind
  intro conditions
  exact available_statementEnd _ (by decide)

theorem available_namespaceName :
    (namespaceName : Parser σ (List Piece)).Available := by
  apply available_filler.bind
  intro blank
  apply Parser.available_bind_current
  intro t
  split
  · apply Parser.available_bind_advance
    apply available_filler.bind
    intro inner
    exact Parser.available_pure _
  · exact Parser.available_pure _

theorem available_namespaceValue :
    (namespaceValue : Parser σ (List Piece)).Available := by
  apply Parser.available_bind_enter
  apply available_namespaceName.bind
  intro name
  apply (available_address (by decide)).bind
  intro url
  exact available_statementEnd _ (by decide)

theorem available_statementValue
    (name : StatementRule) :
    (statementValue name :
      Parser σ (List Piece)).Available := by
  cases name with
  | charsetRule => exact available_charsetValue
  | importRule => exact available_importValue
  | namespaceRule => exact available_namespaceValue

theorem available_blockParameters :
    (blockParameters : Parser σ (List Piece)).Available := by
  apply Parser.available_bind_enter
  apply (available_fragment _).bind
  intro parameters
  apply Parser.available_bind_current
  intro t
  split
  · apply Parser.available_bind_advance
    exact Parser.available_pure _
  · exact Parser.available_fail (by decide) _

theorem available_atRule :
    (atRule : Parser σ Head).Available := by
  apply Parser.available_bind_enter
  apply Parser.available_bind_current
  intro t
  split
  · exact Parser.available_fail (by decide) _
  · apply Parser.available_bind_advance
    apply (available_statementValue _).bind
    intro value
    exact Parser.available_pure _
  · apply Parser.available_bind_advance
    apply available_blockParameters.bind
    intro parameters
    exact Parser.available_pure _

end Grammar

end LosslessCss

------------------------------------------------------------
-- Items
------------------------------------------------------------

namespace LosslessCss

namespace Grammar

variable {σ : Type} [TokenSource σ]

theorem available_ambiguousSpan :
    (ambiguousSpan :
      Parser σ (List Token × SpanEnd)).Available := by
  intro s e h
  rw [(exists_of_fails_ambiguousSpan h).2]
  nofun

theorem available_selectorList :
    (selectorList : Parser σ (List Piece)).Available := by
  intro s e h
  rw [eq_of_fails_selectorList h]
  nofun

theorem available_declaration :
    (declaration : Parser σ Leaf).Available := by
  intro s e h
  rcases cases_of_fails_declaration h with
    ⟨_, rfl⟩ | ⟨_, _, _, _, _, _, rfl⟩ | rfl
  · nofun
  · nofun
  · nofun

theorem available_ruleOpening
    (tokens : List Token)
    (start : Location) :
    (ruleOpening tokens start :
      Parser σ Opening).Available := by
  apply Parser.available_bind_enter
  have hRun :
      (Parser.isolated tokens start fun _ => selectorList :
        Parser σ (List Piece)).Available :=
    Parser.available_isolated available_selectorList tokens
      start
  apply hRun.bind
  intro selectors
  exact Parser.available_pure _

theorem available_isolatedDeclaration
    (tokens : List Token) :
    (isolatedDeclaration tokens :
      Parser σ Leaf).Available := by
  apply Parser.available_bind_location
  intro here
  exact
    Parser.available_isolated available_declaration tokens
      here

theorem available_ruleOrDeclaration :
    (ruleOrDeclaration : Parser σ Head).Available := by
  apply Parser.available_bind_enter
  apply Parser.available_bind_location
  intro start
  apply available_ambiguousSpan.bind
  rintro ⟨tokens, ending⟩
  cases ending with
  | declaration =>
      apply (available_isolatedDeclaration tokens).bind
      intro content
      exact Parser.available_pure _
  | block =>
      apply (available_ruleOpening tokens start).bind
      intro opening
      exact Parser.available_pure _

theorem available_itemHead :
    (itemHead : Parser σ Head).Available := by
  apply Parser.available_bind_current
  intro t
  split
  · apply Parser.available_bind_advance
    exact Parser.available_pure _
  · exact available_atRule
  · exact available_ruleOrDeclaration

/- A block misses only what its items miss. -/
theorem available_blockNode_of_items
    {opening : Opening}
    {start : Location}
    {s : σ}
    {e : SyntaxError}
    (hItems :
      (items true "").Fails s e → e.kind ≠ .unimplemented)
    (h : (blockNode .full opening start).Fails s e) :
    e.kind ≠ .unimplemented := by
  unfold blockNode at h
  rw [ruleList_eq, Parser.fails_bind,
    Parser.fails_bind_enter] at h
  rcases h with hFirst | ⟨block, m, _, hAfter⟩
  · exact hItems hFirst
  rw [Parser.fails_bind_current] at hAfter
  split at hAfter
  · rw [Parser.fails_bind_advance] at hAfter
    exact absurd hAfter Parser.fails_pure
  · rw [Parser.fails_fail.mp hAfter]
    nofun

theorem available_items
    (nested : Bool)
    (before : String) :
    (items nested before : Parser σ Block).Available := by
  intro s e h
  -- The list inside of a block is a list of the full scope
  -- again, and it has less left than the one around it.
  induction s using TokenSource.remaining_induction
    generalizing nested before with
  | step s ih =>
      rw [items_eq, Parser.fails_bind_current] at h
      split at h
      · exact absurd h Parser.fails_pure
      rename_i hGoesOn
      have hEof : (TokenSource.current s).isEof = false := by
        simp only [endsItems, Bool.or_eq_true, not_or]
          at hGoesOn
        simpa using hGoesOn.1
      split at h
      · rw [Parser.fails_bind_advance] at h
        exact
          ih _ (TokenSource.remaining_advance_lt s hEof) _ _ h
      rcases Parser.fails_bind.mp h with
        hHead | ⟨head, m, hHead, hAfter⟩
      · exact available_itemHead s e hHead
      have hLess :=
        (consumes_itemHead hEof).lt_of_yields hHead
      rcases Parser.fails_bind.mp hAfter with
        hNode | ⟨node, n, hNode, hRest⟩
      · cases head with
        | leaf content => exact absurd hNode Parser.fails_pure
        | opening opening =>
            exact
              available_blockNode_of_items
                (ih _ hLess true "") hNode
      rcases Parser.fails_bind.mp hRest with
        hTail | ⟨tail, k, _, hPure⟩
      · exact
          ih _
            (Nat.lt_of_le_of_lt hNode.remaining_le hLess)
            nested "" hTail
      · exact absurd hPure Parser.fails_pure

theorem available_finishItem
    (head : Head)
    (start : Location) :
    (finishItem .full head start : Parser σ Node).Available :=
  match head with
  | .leaf _ => Parser.available_pure _
  | .opening _ => fun s e =>
      available_blockNode_of_items (available_items true "" s e)

end Grammar

end LosslessCss

------------------------------------------------------------
-- Documents
------------------------------------------------------------

namespace LosslessCss

namespace Grammar

variable {σ : Type} [TokenSource σ]

theorem available_styleSheet :
    (styleSheet .full : Parser σ Node).Available := by
  apply Parser.available_bind_enter
  apply Parser.available_bind_location
  intro start
  rw [ruleList_eq]
  apply
    (Parser.available_bind_enter
      (available_items false "")).bind
  intro block
  exact Parser.available_pure _

theorem available_singleRule :
    (singleRule .full : Parser σ Node).Available := by
  apply Parser.available_bind_enter
  apply Parser.available_bind_current
  intro t
  split
  · exact Parser.available_fail (by decide) _
  apply Parser.available_bind_location
  intro start
  apply available_ambiguousSpan.bind
  rintro ⟨tokens, ending⟩
  cases ending with
  | block =>
      apply (available_ruleOpening tokens start).bind
      intro opening
      exact available_finishItem (.opening opening) start
  | declaration =>
      exact Parser.available_fail (by decide) _

theorem available_singleAtRule :
    (singleAtRule .full : Parser σ Node).Available := by
  apply Parser.available_bind_enter
  apply Parser.available_bind_current
  intro t
  split
  · apply available_atRule.bind
    intro head
    exact available_finishItem head _
  · exact Parser.available_fail (by decide) _

theorem available_singleDeclaration :
    (singleDeclaration : Parser σ Node).Available := by
  apply Parser.available_bind_enter
  apply Parser.available_bind_location
  intro start
  apply available_ambiguousSpan.bind
  rintro ⟨tokens, ending⟩
  cases ending with
  | declaration =>
      apply (available_isolatedDeclaration tokens).bind
      intro content
      exact Parser.available_pure _
  | block => exact Parser.available_fail (by decide) _

theorem available_single
    {item : Parser σ Node}
    {kind : ErrorKind}
    (hItem : item.Available)
    (hKind : kind ≠ .unimplemented) :
    (single item kind).Available := by
  apply Parser.available_bind_enter
  apply Parser.available_bind_location
  intro start
  apply available_filler.bind
  intro before
  apply hItem.bind
  intro node
  apply available_filler.bind
  intro after
  apply Parser.available_bind_current
  intro t
  split
  · exact Parser.available_pure _
  · exact Parser.available_fail hKind _

/- The full grammar is available in all of a document. -/
theorem available_document
    (context : Context) :
    (document .full context : Parser σ Node).Available := by
  cases context with
  | styleSheet => exact available_styleSheet
  | rule =>
      exact available_single available_singleRule (by decide)
  | atRule =>
      exact
        available_single available_singleAtRule (by decide)
  | declaration =>
      exact
        available_single available_singleDeclaration
          (by decide)

/- A list of items in a fragment fails where it starts. -/
theorem fails_ruleList_fragment
    {nested : Bool}
    {s : σ}
    {e : SyntaxError} :
    (ruleList .fragment nested : Parser σ Block).Fails s e ↔
      e = unavailableList s := by
  rw [ruleList_fragment, Parser.fails_bind_enter,
    Parser.fails_fail]
  rfl

end Grammar

end LosslessCss

------------------------------------------------------------
-- Sessions
------------------------------------------------------------

namespace LosslessCss

namespace Session

variable {σ : Type} [TokenSource σ] {session : Session σ}

/- Only a fragment misses a part of the grammar. -/
theorem fragment_of_unimplemented
    {context : Context}
    {e : SyntaxError}
    (h : (session.parse context).outcome = .error e)
    (hKind : e.kind = .unimplemented) :
    session.scope = .fragment := by
  rcases session with ⟨s, scope⟩
  cases scope with
  | full =>
      exact
        absurd hKind
          (Grammar.available_document context s e h)
  | fragment => rfl

/- A fragment is no style sheet, whatever its tokens are. -/
theorem parse_styleSheet_of_fragment
    (hScope : session.scope = .fragment) :
    session.parse .styleSheet =
      ⟨.error (Grammar.unavailableList session.source),
        session.source,
        [.enter .styleSheet, .enter .ruleList]⟩ := by
  rcases session with ⟨s, scope⟩
  subst hScope
  rfl

example :
    ((Session.ofFragment
        (Lexer.tokenize "a\x7b\x7d" Location.start)
        Location.start).parse .styleSheet).outcome =
      .error
        ⟨.unimplemented,
          "rule lists are not available in a fragment",
          Location.start⟩ := by
  decide +kernel

/- A style sheet misses its lists exactly in a fragment. -/
theorem unavailable_iff_fragment :
    (session.parse .styleSheet).outcome =
        .error (Grammar.unavailableList session.source) ↔
      session.scope = .fragment := by
  constructor
  · intro h
    exact fragment_of_unimplemented h rfl
  · intro hScope
    rw [parse_styleSheet_of_fragment hScope]

end Session

end LosslessCss
