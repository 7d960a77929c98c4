import LosslessCss.Proofs.Failing
import LosslessCss.Proofs.Partition
import LosslessCss.Proofs.Scopes
import LosslessCss.Proofs.Sessions

/-
  Where errors are found.

  Every error of a parse is found at a token of its text or
  at the end mark after them, and most kinds of errors say
  which token that is.  Some errors are found in a run of
  tokens that is read apart, where the end of the run stands
  for the token after it.

  Key definitions include:
    * `SyntaxError.Fits`
    * `SyntaxError.FoundIn`
    * `TokenSource.Gapless`

  Key theorems include:
    * `Grammar.found_of_fails_itemHead`
    * `Grammar.found_of_fails_items`
    * `Grammar.found_of_fails_document`
    * `Parse.text_error_located`
-/

------------------------------------------------------------
-- Tokens That Errors Are Found At
------------------------------------------------------------

namespace LosslessCss

open Grammar

namespace SyntaxError

/-
  What an error in a style sheet says about the token that it
  is found at, and about those in front of it.
-/
def Fits
    (e : SyntaxError)
    (left : List Token)
    (t : Token) : Prop :=
  match e.kind with
  | .unexpectedRightCurly => t.kind = .rightCurly
  | .unexpectedAtRule =>
      isAtKeyword t = true ∧
        ∀ rule : AtRule, t.raw ≠ "@" ++ rule.keyword
  | .invalidBlockAtRule => t.kind = .eof
  | .invalidImport =>
      isPlainAddress t = false ∧ isUrlFunction t = false
  | .invalidDeclaration =>
      t.isIdent = false ∧
        (e.detail = "expected a colon" →
          t.kind = .semicolon ∨ t.kind = .rightCurly ∨
            t.kind = .eof)
  | .unclosedBlock =>
      t.kind = .eof ∨ t.kind = .leftCurly ∨
        t.kind = .rightCurly ∨
        ∃ u ∈ left.getLast?, u.kind = .semicolon
  | .invalidCharset => True
  | .invalidNamespace => True
  | .unimplemented => False

/- More tokens in front do not matter. -/
theorem Fits.append
    {e : SyntaxError}
    {left : List Token}
    {t : Token}
    (ts : List Token)
    (hFits : e.Fits left t) :
    e.Fits (ts ++ left) t := by
  unfold Fits at hFits ⊢
  cases hKind : e.kind with
  | unclosedBlock =>
      rw [hKind] at hFits
      rcases hFits with hEof | hLeft | hRight | ⟨u, hu, hSemi⟩
      · exact .inl hEof
      · exact .inr (.inl hLeft)
      · exact .inr (.inr (.inl hRight))
      · refine .inr (.inr (.inr ⟨u, ?_, hSemi⟩))
        rw [Option.mem_def] at hu ⊢
        rw [List.getLast?_append, hu, Option.some_or]
  | _ =>
      rw [hKind] at hFits
      exact hFits

end SyntaxError

end LosslessCss

------------------------------------------------------------
-- Errors in a Source
------------------------------------------------------------

namespace LosslessCss

open TokenSource (Passes shown)

namespace SyntaxError

variable {σ : Type} [TokenSource σ]

/-
  The error is found at a token of the source, or at its end
  mark.  In a style sheet it fits that token.
-/
def FoundIn
    (sheet : Prop)
    (e : SyntaxError)
    (s : σ) : Prop :=
  ∃ left t right,
    shown s = left ++ t :: right ∧
      e.location = t.location ∧
      (sheet → e.Fits left t)

variable {sheet : Prop} {e : SyntaxError} {s m : σ}

theorem FoundIn.of_passes
    {ts : List Token}
    (hPasses : Passes s ts m)
    (hFound : e.FoundIn sheet m) :
    e.FoundIn sheet s := by
  rcases hFound with
    ⟨left, t, right, hShown, hPlace, hFits⟩
  refine
    ⟨ts ++ left, t, right, ?_, hPlace, fun hSheet =>
      (hFits hSheet).append ts⟩
  rw [hPasses.shown_eq, hShown, List.append_assoc]

/- What fits in a style sheet is found in any context. -/
theorem FoundIn.weaken
    (hFound : e.FoundIn True s) :
    e.FoundIn sheet s := by
  rcases hFound with
    ⟨left, t, right, hShown, hPlace, hFits⟩
  exact
    ⟨left, t, right, hShown, hPlace, fun _ =>
      hFits trivial⟩

/- An error behind some tokens is found where they end. -/
theorem foundIn_of_passes
    {ts : List Token}
    (hPasses : Passes s ts m)
    (hPlace : e.location = TokenSource.location m)
    (hFits : sheet → e.Fits ts (TokenSource.current m)) :
    e.FoundIn sheet s := by
  rcases TokenSource.shown_eq_cons m with ⟨rest, hShown⟩
  exact
    ⟨ts, TokenSource.current m, rest,
      by rw [hPasses.shown_eq, hShown], hPlace, hFits⟩

/- An error at the cursor is found there. -/
theorem foundIn_current
    (hPlace : e.location = TokenSource.location s)
    (hFits : sheet → e.Fits [] (TokenSource.current s)) :
    e.FoundIn sheet s :=
  foundIn_of_passes (TokenSource.passes_nil.mpr rfl) hPlace
    hFits

/- An open span is found at the end of the input. -/
theorem foundIn_spanError :
    (Grammar.spanError s).FoundIn sheet s := by
  refine
    ⟨TokenSource.upcoming s, TokenSource.ending s, [], rfl,
      rfl, fun _ => .inl ?_⟩
  exact
    Grammar.isEof_iff_kind.mp (TokenSource.isEof_ending s)

end SyntaxError

end LosslessCss

------------------------------------------------------------
-- At-Rules
------------------------------------------------------------

namespace LosslessCss

open TokenSource (Passes upcoming)

open SyntaxError (foundIn_current foundIn_spanError)

namespace Grammar

variable {σ : Type} [TokenSource σ]
variable {s : σ} {e : SyntaxError}

theorem found_of_fails_charsetValue
    (h : (charsetValue : Parser σ (List Piece)).Fails s e) :
    e.FoundIn True s := by
  unfold charsetValue at h
  rw [Parser.fails_bind_enter, Parser.fails_bind] at h
  rcases h with hBlank | ⟨blank, m, hBlank, hAfter⟩
  · exact absurd hBlank not_fails_filler
  rcases yields_filler.mp hBlank with ⟨ts, hPasses, _⟩
  apply SyntaxError.FoundIn.of_passes hPasses
  rw [Parser.fails_bind_current] at hAfter
  split at hAfter
  · rename_i hQuoted
    have hEof := isEof_of_test hQuoted fun _ _ => rfl
    rw [Parser.fails_bind_advance] at hAfter
    rcases exists_of_fails_statementEnd hAfter with
      ⟨inner, n, hInner, _, rfl, _⟩
    exact
      SyntaxError.foundIn_of_passes (.cons hEof hInner) rfl
        fun _ => trivial
  · rw [Parser.fails_fail.mp hAfter]
    exact foundIn_current rfl fun _ => trivial

theorem not_address_of_endsImport
    {t : Token}
    (h : endsImport t = true) :
    isPlainAddress t = false ∧ isUrlFunction t = false := by
  unfold endsImport at h
  unfold isPlainAddress isUrlFunction
  split at h <;> simp_all

/-
  The conditions of an import end where no address is, so a
  missing semicolon is not at an address either.
-/
theorem found_of_fails_importValue
    (h : (importValue : Parser σ (List Piece)).Fails s e) :
    e.FoundIn True s := by
  unfold importValue at h
  rw [Parser.fails_bind_enter, Parser.fails_bind] at h
  rcases h with hBlank | ⟨blank, m, hBlank, hAfter⟩
  · exact absurd hBlank not_fails_filler
  rcases yields_filler.mp hBlank with ⟨ts, hPasses, _⟩
  apply SyntaxError.FoundIn.of_passes hPasses
  rcases Parser.fails_bind.mp hAfter with
    hUrl | ⟨url, n, hUrl, hRest⟩
  · rcases cases_of_fails_address hUrl with
      rfl | ⟨rfl, hPlain, hCall⟩
    · exact foundIn_spanError
    · exact
        foundIn_current rfl fun _ => ⟨hPlain, hCall⟩
  rcases yields_address.mp hUrl with ⟨us, hPassesUrl, _⟩
  apply SyntaxError.FoundIn.of_passes hPassesUrl
  rcases Parser.fails_bind.mp hRest with
    hParts | ⟨pieces, k, hParts, hEnd⟩
  · rw [eq_of_fails_fragment hParts]
    exact foundIn_spanError
  rcases yields_fragment.mp hParts with
    ⟨vs, hPassesParts, _, _, _, _, _, _, _, hStops, _⟩
  apply SyntaxError.FoundIn.of_passes hPassesParts
  rcases exists_of_fails_statementEnd hEnd with
    ⟨inner, l, hInner, hFillers, rfl, _, hEof, _⟩
  rw [hInner.upcoming_eq] at hStops
  rcases eq_nil_of_stops_endsImport hFillers hStops with rfl
  rcases TokenSource.passes_nil.mp hInner with rfl
  rw [List.nil_append, stops_upcoming_iff] at hStops
  rw [Ne, ← isEof_iff_kind, Bool.not_eq_true] at hEof
  refine foundIn_current rfl fun _ => ?_
  exact not_address_of_endsImport (by simpa [hEof] using hStops)

theorem not_fails_namespaceName :
    ¬ (namespaceName : Parser σ (List Piece)).Fails s e := by
  intro h
  unfold namespaceName at h
  rcases Parser.fails_bind.mp h with
    hBlank | ⟨blank, m, _, hAfter⟩
  · exact not_fails_filler hBlank
  rw [Parser.fails_bind_current] at hAfter
  split at hAfter
  · rw [Parser.fails_bind_advance,
      Parser.fails_bind] at hAfter
    rcases hAfter with hInner | ⟨inner, n, _, hPure⟩
    · exact not_fails_filler hInner
    · exact Parser.fails_pure hPure
  · exact Parser.fails_pure hAfter

theorem found_of_fails_namespaceValue
    (h : (namespaceValue : Parser σ (List Piece)).Fails s e) :
    e.FoundIn True s := by
  unfold namespaceValue at h
  rw [Parser.fails_bind_enter, Parser.fails_bind] at h
  rcases h with hName | ⟨name, m, hName, hAfter⟩
  · exact absurd hName not_fails_namespaceName
  rcases form_of_yields_namespaceName hName with
    ⟨ts, hPasses, _⟩
  apply SyntaxError.FoundIn.of_passes hPasses
  rcases Parser.fails_bind.mp hAfter with
    hUrl | ⟨url, n, hUrl, hEnd⟩
  · rcases cases_of_fails_address hUrl with rfl | ⟨rfl, _⟩
    · exact foundIn_spanError
    · exact foundIn_current rfl fun _ => trivial
  rcases yields_address.mp hUrl with ⟨us, hPassesUrl, _⟩
  apply SyntaxError.FoundIn.of_passes hPassesUrl
  rcases exists_of_fails_statementEnd hEnd with
    ⟨inner, l, hInner, _, rfl, _⟩
  exact
    SyntaxError.foundIn_of_passes hInner rfl fun _ =>
      trivial

/- A block at-rule without a block goes on to the end. -/
theorem found_of_fails_blockParameters
    (h :
      (blockParameters : Parser σ (List Piece)).Fails s e) :
    e.FoundIn True s := by
  unfold blockParameters at h
  rw [Parser.fails_bind_enter, Parser.fails_bind] at h
  rcases h with hParts | ⟨pieces, m, hParts, hAfter⟩
  · rw [eq_of_fails_fragment hParts]
    exact foundIn_spanError
  rcases yields_fragment.mp hParts with
    ⟨ts, hPasses, _, _, _, _, _, _, _, hStops, _⟩
  apply SyntaxError.FoundIn.of_passes hPasses
  rw [Parser.fails_bind_current] at hAfter
  split at hAfter
  · rw [Parser.fails_bind_advance] at hAfter
    exact absurd hAfter Parser.fails_pure
  · rename_i hLeft
    rw [Parser.fails_fail.mp hAfter]
    refine foundIn_current rfl fun _ => ?_
    rw [stops_upcoming_iff] at hStops
    exact isEof_iff_kind.mp (by simpa [hLeft] using hStops)

theorem found_of_fails_atRule
    (hAt : isAtKeyword (TokenSource.current s) = true)
    (h : (atRule : Parser σ Head).Fails s e) :
    e.FoundIn True s := by
  have hEof := isEof_of_test hAt fun _ _ => rfl
  unfold atRule at h
  rw [Parser.fails_bind_enter, Parser.fails_bind_current] at h
  split at h
  · rename_i hNone
    rw [Parser.fails_fail.mp h]
    refine foundIn_current rfl fun _ => ⟨hAt, ?_⟩
    intro rule hRaw
    rw [ofKeyword?_keywordOf_iff.mpr hRaw] at hNone
    cases hNone
  · rename_i name _
    apply SyntaxError.FoundIn.of_passes (.single hEof)
    rw [Parser.fails_bind_advance, Parser.fails_bind] at h
    rcases h with hValue | ⟨value, m, _, hPure⟩
    · cases name with
      | charsetRule => exact found_of_fails_charsetValue hValue
      | importRule => exact found_of_fails_importValue hValue
      | namespaceRule =>
          exact found_of_fails_namespaceValue hValue
    · exact absurd hPure Parser.fails_pure
  · apply SyntaxError.FoundIn.of_passes (.single hEof)
    rw [Parser.fails_bind_advance, Parser.fails_bind] at h
    rcases h with hParts | ⟨pieces, m, _, hPure⟩
    · exact found_of_fails_blockParameters hParts
    · exact absurd hPure Parser.fails_pure

end Grammar

end LosslessCss

------------------------------------------------------------
-- Sources Without Gaps
------------------------------------------------------------

namespace LosslessCss

open TokenSource (Passes shown ending)

namespace TokenSource

variable {σ : Type} [TokenSource σ]

/- The tokens of the source follow each other directly. -/
def Gapless (s : σ) : Prop :=
  Token.Located (location s) (shown s)

variable {s m : σ} {ts : List Token}

/- The cursor is where the passed tokens end. -/
theorem Gapless.location_of_passes
    (hGapless : Gapless s)
    (hPasses : Passes s ts m) :
    location m = (location s).advanceBy (Token.rawText ts) := by
  rcases shown_eq_cons m with ⟨rest, hShown⟩
  unfold Gapless at hGapless
  rw [hPasses.shown_eq, hShown] at hGapless
  exact hGapless.location_of_append

theorem Gapless.of_passes
    (hGapless : Gapless s)
    (hPasses : Passes s ts m) :
    Gapless m := by
  have hPlace := hGapless.location_of_passes hPasses
  unfold Gapless at hGapless ⊢
  rw [hPasses.shown_eq, Token.located_append, ← hPlace]
    at hGapless
  exact hGapless.2

/-
  A run of tokens that is read apart ends where the token
  after it stands.
-/
theorem Gapless.location_ending_slice
    (hGapless : Gapless s)
    (hPasses : Passes s ts m)
    {fallback : Location}
    (hFallback : ts = [] → fallback = location m) :
    (ending (TokenSlice.ofTokens ts fallback)).location =
      location m := by
  have hLocated := hGapless
  unfold Gapless at hLocated
  rw [hPasses.shown_eq, Token.located_append] at hLocated
  rw [TokenSlice.ending_ofTokens]
  cases ts with
  | nil => exact hFallback rfl
  | cons t ts =>
      rw [Token.eofAfter_congr (List.cons_ne_nil t ts) _
          (location s),
        Token.eofAfter_of_located hLocated.1
          fun _ => hPasses.isEof_of_mem,
        hGapless.location_of_passes hPasses]
      rfl

/-
  A place in a run that is read apart is a place of the whole
  source: the one after the run, or one with the same token.
-/
theorem Gapless.exists_passes_of_slice
    (hGapless : Gapless s)
    (hPasses : Passes s ts m)
    {fallback : Location}
    (hFallback : ts = [] → fallback = location m)
    {front : List Token}
    {place : TokenSlice}
    (hFront :
      Passes (TokenSlice.ofTokens ts fallback) front place) :
    (front = ts ∧ location place = location m) ∨
      ∃ n, Passes s front n ∧ current n = current place := by
  have hTokens : ts = front ++ upcoming place := by
    rw [← hFront.upcoming_eq, TokenSlice.upcoming_ofTokens,
      Token.untilEof_eq_self fun _ => hPasses.isEof_of_mem]
  cases hEof : (current place).isEof with
  | true =>
      refine .inl ⟨?_, ?_⟩
      · rw [hTokens, upcoming_of_isEof hEof,
          List.append_nil]
      · rw [← hGapless.location_ending_slice hPasses
            hFallback,
          hFront.ending_eq, ending_of_isEof hEof]
        rfl
  | false =>
      rw [upcoming_of_not_isEof hEof] at hTokens
      rw [hTokens] at hPasses
      rcases passes_append.mp hPasses with
        ⟨n, hRun, hSame, _⟩
      exact .inr ⟨n, hRun, hSame⟩

end TokenSource

end LosslessCss

------------------------------------------------------------
-- Rules and Declarations
------------------------------------------------------------

namespace LosslessCss

open TokenSource (Passes upcoming Gapless)

open SyntaxError (foundIn_current foundIn_of_passes)

namespace Grammar

variable {σ : Type} [TokenSource σ]
variable {s m : σ} {e : SyntaxError}

/- An open span of selectors is found at the left brace. -/
theorem found_of_fails_ruleOpening
    (hGapless : Gapless s)
    {ts : List Token}
    {left : Token}
    (hPasses : Passes s (ts ++ [left]) m)
    (hLeft : isLeftCurly left = true)
    (h :
      (ruleOpening ts (TokenSource.location s)).Fails m e) :
    e.FoundIn True s := by
  rcases TokenSource.passes_append.mp hPasses with
    ⟨n, hRun, hLast⟩
  rcases hLast with ⟨rfl, _, _⟩
  unfold ruleOpening at h
  rw [Parser.fails_bind_enter, Parser.fails_bind] at h
  rcases h with hSlice | ⟨pieces, k, _, hPure⟩
  · rw [Parser.fails_isolated] at hSlice
    rw [eq_of_fails_selectorList hSlice]
    apply foundIn_of_passes hRun
    · apply hGapless.location_ending_slice hRun
      rintro rfl
      rw [TokenSource.passes_nil.mp hRun]
    · intro _
      exact .inr (.inl (isLeftCurly_iff_kind.mp hLeft))
  · exact absurd hPure Parser.fails_pure

/-
  A declaration that is not closed by a semicolon ends in
  front of a right brace or at the end of the input.
-/
theorem closed_or_kind_of_end
    (run : List Token)
    {mark : List Token}
    (hEnd : Form.End mark (upcoming m)) :
    (∃ u ∈ (run ++ mark).getLast?, u.kind = .semicolon) ∨
      (TokenSource.current m).kind = .eof ∨
      (TokenSource.current m).kind = .rightCurly := by
  cases hEnd with
  | semicolon hKind => exact .inl ⟨_, by simp, hKind⟩
  | nothing hRest =>
      exact .inr (end_nothing_iff.mp (.nothing hRest))

section Declarations

variable {run mark : List Token}

/- An error in place of the property is found there. -/
theorem found_of_no_property
    (hGapless : Gapless s)
    (hPasses : Passes s (run ++ mark) m)
    (hEnd : Form.End mark (upcoming m))
    {slice : TokenSlice}
    (hSlice :
      slice =
        .ofTokens (run ++ mark) (TokenSource.location m))
    (hIdent : (TokenSource.current slice).isIdent = false) :
    SyntaxError.FoundIn True
      ⟨.invalidDeclaration, "expected a property name",
        TokenSource.location slice⟩ s := by
  subst hSlice
  rcases hGapless.exists_passes_of_slice hPasses
      (fun _ => rfl) (TokenSource.passes_nil.mpr rfl) with
    ⟨hNone, hPlace⟩ | ⟨n, hFront, hSame⟩
  · refine
      foundIn_of_passes hPasses hPlace fun _ => ?_
    refine ⟨?_, by simp⟩
    rcases closed_or_kind_of_end run hEnd with
      ⟨u, hLast, _⟩ | hEof | hRight
    · rw [← hNone] at hLast
      cases hLast
    · simp [Token.isIdent, hEof]
    · simp [Token.isIdent, hRight]
  · refine
      foundIn_of_passes hFront
        (congrArg Token.location hSame.symm)
        fun _ => ?_
    rw [hSame]
    exact ⟨hIdent, by simp⟩

/- An error in place of the colon is found there. -/
theorem found_of_no_colon
    (hGapless : Gapless s)
    (hPasses : Passes s (run ++ mark) m)
    (hEnd : Form.End mark (upcoming m))
    {property : Token}
    {between : List Token}
    {place : TokenSlice}
    (hProperty : property.isIdent = true)
    (hBetween : ∀ t ∈ between, beforeColon t = true)
    (hFront :
      Passes
        (TokenSlice.ofTokens (run ++ mark)
          (TokenSource.location m))
        (property :: between) place)
    (hPlace :
      (TokenSource.current place).kind = .semicolon ∨
        (TokenSource.current place).isEof = true) :
    SyntaxError.FoundIn True
      ⟨.invalidDeclaration, "expected a colon",
        TokenSource.location place⟩ s := by
  have hIdent
      {t : Token}
      (hKind :
        t.kind = .semicolon ∨ t.kind = .rightCurly ∨
          t.kind = .eof) :
      t.isIdent = false := by
    rcases hKind with hKind | hKind | hKind
    · simp [Token.isIdent, hKind]
    · simp [Token.isIdent, hKind]
    · simp [Token.isIdent, hKind]
  rcases hGapless.exists_passes_of_slice hPasses
      (fun _ => rfl) hFront with
    ⟨hAll, hSame⟩ | ⟨n, hBefore, hSame⟩
  · refine
      foundIn_of_passes hPasses hSame fun _ => ?_
    have hKind :
        (TokenSource.current m).kind = .rightCurly ∨
          (TokenSource.current m).kind = .eof := by
      rcases closed_or_kind_of_end run hEnd with
        ⟨u, hLast, hSemicolon⟩ | hEof | hRight
      · exfalso
        rw [← hAll] at hLast
        rcases List.mem_cons.mp
            (List.mem_of_mem_getLast? hLast) with
          rfl | hMem
        · simp [hIdent (.inl hSemicolon)] at hProperty
        · have hInner := hBetween u hMem
          simp [beforeColon, hSemicolon] at hInner
      · exact .inr hEof
      · exact .inl hRight
    exact ⟨hIdent (.inr hKind), fun _ => .inr hKind⟩
  · refine
      foundIn_of_passes hBefore
        (congrArg Token.location hSame.symm)
        fun _ => ?_
    have hKind :
        (TokenSource.current n).kind = .semicolon ∨
          (TokenSource.current n).kind = .rightCurly ∨
          (TokenSource.current n).kind = .eof := by
      rw [hSame]
      rcases hPlace with hSemicolon | hEof
      · exact .inl hSemicolon
      · exact .inr (.inr (isEof_iff_kind.mp hEof))
    exact ⟨hIdent hKind, fun _ => hKind⟩

theorem found_of_fails_isolatedDeclaration
    (hGapless : Gapless s)
    (hPasses : Passes s (run ++ mark) m)
    (hEnd : Form.End mark (upcoming m))
    (h :
      (isolatedDeclaration (run ++ mark)).Fails m e) :
    e.FoundIn True s := by
  unfold isolatedDeclaration at h
  rw [Parser.fails_bind_location,
    Parser.fails_isolated] at h
  rcases cases_of_fails_declaration h with
    ⟨hIdent, rfl⟩ |
      ⟨between, place, hIdent, hFront, hBetween, hPlace,
        rfl⟩ |
      rfl
  · exact
      found_of_no_property hGapless hPasses hEnd rfl hIdent
  · exact
      found_of_no_colon hGapless hPasses hEnd hIdent hBetween
        hFront hPlace
  · refine
      foundIn_of_passes hPasses
        (hGapless.location_ending_slice hPasses fun _ => rfl)
        fun _ => ?_
    rcases closed_or_kind_of_end run hEnd with
      hLast | hEof | hRight
    · exact .inr (.inr (.inr hLast))
    · exact .inl hEof
    · exact .inr (.inr (.inl hRight))

end Declarations

theorem found_of_fails_ruleOrDeclaration
    (hGapless : Gapless s)
    (h : (ruleOrDeclaration : Parser σ Head).Fails s e) :
    e.FoundIn True s := by
  unfold ruleOrDeclaration at h
  rw [Parser.fails_bind_enter, Parser.fails_bind_location,
    Parser.fails_bind] at h
  rcases h with hSpan | ⟨⟨ts, ending⟩, m, hSpan, hAfter⟩
  · rcases exists_of_fails_ambiguousSpan hSpan with
      ⟨hRight, rfl⟩
    exact foundIn_current rfl fun _ => hRight
  cases ending with
  | declaration =>
      rcases form_of_yields_ambiguousSpan hSpan with
        ⟨run, mark, rfl, hPasses, _, hEnd⟩
      rcases Parser.fails_bind.mp hAfter with
        hContent | ⟨content, n, _, hPure⟩
      · exact
          found_of_fails_isolatedDeclaration hGapless hPasses
            hEnd hContent
      · exact absurd hPure Parser.fails_pure
  | block =>
      rcases yields_ambiguousSpan_block.mp hSpan with
        ⟨left, hPasses, _, hLeft⟩
      rcases Parser.fails_bind.mp hAfter with
        hOpening | ⟨opening, n, _, hPure⟩
      · exact
          found_of_fails_ruleOpening hGapless hPasses hLeft
            hOpening
      · exact absurd hPure Parser.fails_pure

end Grammar

end LosslessCss

------------------------------------------------------------
-- Items
------------------------------------------------------------

namespace LosslessCss

open TokenSource (Passes upcoming Gapless)

open SyntaxError (foundIn_current foundIn_of_passes)

namespace Grammar

variable {σ : Type} [TokenSource σ]
variable {s m : σ} {e : SyntaxError}

theorem found_of_fails_itemHead
    (hGapless : Gapless s)
    (h : (itemHead : Parser σ Head).Fails s e) :
    e.FoundIn True s := by
  unfold itemHead at h
  rw [Parser.fails_bind_current] at h
  split at h
  · rw [Parser.fails_bind_advance] at h
    exact absurd h Parser.fails_pure
  · rename_i hKind
    exact
      found_of_fails_atRule
        (isAtKeyword_iff_kind.mpr ⟨_, hKind⟩) h
  · exact found_of_fails_ruleOrDeclaration hGapless h

/- The items of a block without a right brace go to the end. -/
theorem found_of_fails_blockNode
    {opening : Opening}
    {start : Location}
    (hItems :
      (items true "").Fails s e → e.FoundIn True s)
    (h : (blockNode .full opening start).Fails s e) :
    e.FoundIn True s := by
  unfold blockNode at h
  rw [ruleList_eq, Parser.fails_bind] at h
  rcases h with hFirst | ⟨block, m, hFirst, hAfter⟩
  · exact hItems hFirst
  rcases yields_items.mp hFirst with
    ⟨ts, hPasses, _, hEnds⟩
  rw [Parser.fails_bind_current] at hAfter
  split at hAfter
  · rw [Parser.fails_bind_advance] at hAfter
    exact absurd hAfter Parser.fails_pure
  · rename_i hRight
    rw [Parser.fails_fail.mp hAfter]
    refine
      foundIn_of_passes hPasses rfl fun _ => .inl ?_
    rw [Bool.not_eq_true] at hRight
    exact
      isEof_iff_kind.mp
        (by simpa [endsItems, hRight] using hEnds)

/- An item that has been read consists of tokens. -/
theorem exists_passes_of_finishItem
    {head : Head}
    {start : Location}
    {node : Node}
    (h : (finishItem .full head start).Yields s node m) :
    ∃ ts, Passes s ts m := by
  have hMoves :=
    (follows_finishItem head start
      (TokenSource.follows_self s)).1
  rwa [h.2] at hMoves

theorem found_of_fails_items
    {nested : Bool}
    {before : String}
    (hGapless : Gapless s)
    (h : (items nested before).Fails s e) :
    e.FoundIn True s := by
  induction s using TokenSource.remaining_induction
    generalizing nested before with
  | step s ih =>
      rw [items_eq, Parser.fails_bind_current] at h
      split at h
      · exact absurd h Parser.fails_pure
      rename_i hGoesOn
      have hEof : (TokenSource.current s).isEof = false := by
        simp only [endsItems, Bool.or_eq_true, not_or]
          at hGoesOn
        simpa using hGoesOn.1
      split at h
      · rw [Parser.fails_bind_advance] at h
        have hOne := Passes.single hEof
        exact
          .of_passes hOne
            (ih _ (TokenSource.remaining_advance_lt s hEof)
              (hGapless.of_passes hOne) h)
      rcases Parser.fails_bind.mp h with
        hHead | ⟨head, m, hHead, hAfter⟩
      · exact found_of_fails_itemHead hGapless hHead
      have hLess :=
        (consumes_itemHead hEof).lt_of_yields hHead
      rcases (follows_itemHead
          (TokenSource.follows_self s)).1 with
        ⟨ts, hPasses⟩
      rw [hHead.2] at hPasses
      have hMiddle := hGapless.of_passes hPasses
      apply SyntaxError.FoundIn.of_passes hPasses
      rcases Parser.fails_bind.mp hAfter with
        hNode | ⟨node, n, hNode, hRest⟩
      · cases head with
        | leaf content => exact absurd hNode Parser.fails_pure
        | opening opening =>
            exact
              found_of_fails_blockNode (ih _ hLess hMiddle)
                hNode
      rcases exists_passes_of_finishItem hNode with
        ⟨us, hPassesNode⟩
      apply SyntaxError.FoundIn.of_passes hPassesNode
      rcases Parser.fails_bind.mp hRest with
        hTail | ⟨tail, k, _, hPure⟩
      · exact
          ih _
            (Nat.lt_of_le_of_lt hNode.remaining_le hLess)
            (hMiddle.of_passes hPassesNode) hTail
      · exact absurd hPure Parser.fails_pure

end Grammar

end LosslessCss

------------------------------------------------------------
-- Documents
------------------------------------------------------------

namespace LosslessCss

open TokenSource (Passes Gapless)

open SyntaxError (foundIn_current foundIn_of_passes)

namespace Grammar

variable {σ : Type} [TokenSource σ]
variable {s : σ} {e : SyntaxError}

theorem found_of_fails_singleRule
    (hGapless : Gapless s)
    (h : (singleRule .full : Parser σ Node).Fails s e) :
    e.FoundIn False s := by
  unfold singleRule at h
  rw [Parser.fails_bind_enter, Parser.fails_bind_current] at h
  split at h
  · rw [Parser.fails_fail.mp h]
    exact foundIn_current rfl nofun
  rw [Parser.fails_bind_location, Parser.fails_bind] at h
  rcases h with hSpan | ⟨⟨ts, ending⟩, m, hSpan, hAfter⟩
  · rcases exists_of_fails_ambiguousSpan hSpan with ⟨_, rfl⟩
    exact foundIn_current rfl nofun
  cases ending with
  | declaration =>
      rcases form_of_yields_ambiguousSpan hSpan with
        ⟨run, mark, rfl, hPasses, _⟩
      rw [Parser.fails_fail.mp hAfter]
      exact foundIn_of_passes hPasses rfl nofun
  | block =>
      rcases yields_ambiguousSpan_block.mp hSpan with
        ⟨left, hPasses, _, hLeft⟩
      rcases Parser.fails_bind.mp hAfter with
        hOpening | ⟨opening, n, hOpening, hBlock⟩
      · exact
          (found_of_fails_ruleOpening hGapless hPasses hLeft
            hOpening).weaken
      · have hEof : ∀ t ∈ ts, t.isEof = false :=
          fun t hMem => hPasses.isEof_of_mem (by simp [hMem])
        rcases (yields_ruleOpening hEof).mp hOpening with
          ⟨rfl, _⟩
        have hBody := hGapless.of_passes hPasses
        exact
          .of_passes hPasses
            (found_of_fails_blockNode
              (found_of_fails_items hBody) hBlock).weaken

theorem found_of_fails_singleAtRule
    (hGapless : Gapless s)
    (h : (singleAtRule .full : Parser σ Node).Fails s e) :
    e.FoundIn False s := by
  unfold singleAtRule at h
  rw [Parser.fails_bind_enter, Parser.fails_bind_current] at h
  split at h
  · rename_i hAt
    rcases Parser.fails_bind.mp h with
      hHead | ⟨head, m, hHead, hNode⟩
    · exact (found_of_fails_atRule hAt hHead).weaken
    rcases (follows_atRule (TokenSource.follows_self s)
        (isEof_of_test hAt fun _ _ => rfl)).1 with
      ⟨ts, hPasses⟩
    rw [hHead.2] at hPasses
    apply SyntaxError.FoundIn.of_passes hPasses
    have hBody := hGapless.of_passes hPasses
    cases head with
    | leaf content => exact absurd hNode Parser.fails_pure
    | opening opening =>
        exact
          (found_of_fails_blockNode
            (found_of_fails_items hBody) hNode).weaken
  · rw [Parser.fails_fail.mp h]
    exact foundIn_current rfl nofun

theorem found_of_fails_singleDeclaration
    (hGapless : Gapless s)
    (h : (singleDeclaration : Parser σ Node).Fails s e) :
    e.FoundIn False s := by
  unfold singleDeclaration at h
  rw [Parser.fails_bind_enter, Parser.fails_bind_location,
    Parser.fails_bind] at h
  rcases h with hSpan | ⟨⟨ts, ending⟩, m, hSpan, hAfter⟩
  · rcases exists_of_fails_ambiguousSpan hSpan with ⟨_, rfl⟩
    exact foundIn_current rfl nofun
  cases ending with
  | declaration =>
      rcases form_of_yields_ambiguousSpan hSpan with
        ⟨run, mark, rfl, hPasses, _, hEnd⟩
      rcases Parser.fails_bind.mp hAfter with
        hContent | ⟨content, n, _, hPure⟩
      · exact
          (found_of_fails_isolatedDeclaration hGapless hPasses
            hEnd hContent).weaken
      · exact absurd hPure Parser.fails_pure
  | block =>
      rcases yields_ambiguousSpan_block.mp hSpan with
        ⟨left, hPasses, _⟩
      rw [Parser.fails_fail.mp hAfter]
      exact foundIn_of_passes hPasses rfl nofun

/- What follows a single item is found where it starts. -/
theorem found_of_fails_single
    {item : Parser σ Node}
    {kind : ErrorKind}
    (hGapless : Gapless s)
    (hMoves :
      ∀ m : σ, ∃ ts, Passes m ts (item.run m).source)
    (hItem :
      ∀ m : σ, Gapless m → item.Fails m e →
        e.FoundIn False m)
    (h : (single item kind).Fails s e) :
    e.FoundIn False s := by
  unfold single at h
  rw [Parser.fails_bind_enter, Parser.fails_bind_location,
    Parser.fails_bind] at h
  rcases h with hBlank | ⟨before, m, hBlank, hAfter⟩
  · exact absurd hBlank not_fails_filler
  rcases yields_filler.mp hBlank with ⟨ts, hPasses, _⟩
  apply SyntaxError.FoundIn.of_passes hPasses
  rcases Parser.fails_bind.mp hAfter with
    hNode | ⟨node, n, hNode, hRest⟩
  · exact hItem m (hGapless.of_passes hPasses) hNode
  rcases hMoves m with ⟨us, hPassesItem⟩
  rw [hNode.2] at hPassesItem
  apply SyntaxError.FoundIn.of_passes hPassesItem
  rcases Parser.fails_bind.mp hRest with
    hTrail | ⟨after, k, hTrail, hEnd⟩
  · exact absurd hTrail not_fails_filler
  rcases yields_filler.mp hTrail with ⟨vs, hPassesTrail, _⟩
  rw [Parser.fails_bind_current] at hEnd
  split at hEnd
  · exact absurd hEnd Parser.fails_pure
  · rw [Parser.fails_fail.mp hEnd]
    exact foundIn_of_passes hPassesTrail rfl nofun

/- Every error of a document is found at one of its tokens. -/
theorem found_of_fails_document
    {context : Context}
    (hGapless : Gapless s)
    (h : (document .full context).Fails s e) :
    e.FoundIn (context = .styleSheet) s := by
  have hSelf (m : σ) := TokenSource.follows_self m
  cases context with
  | styleSheet =>
      unfold document styleSheet at h
      rw [Parser.fails_bind_enter,
        Parser.fails_bind_location, ruleList_eq,
        Parser.fails_bind] at h
      rcases h with hItems | ⟨block, m, _, hPure⟩
      · exact (found_of_fails_items hGapless hItems).weaken
      · exact absurd hPure Parser.fails_pure
  | rule =>
      have hFound :=
        found_of_fails_single hGapless
          (fun m => (follows_singleRule (hSelf m)).1)
          (fun m => found_of_fails_singleRule) h
      simpa using hFound
  | atRule =>
      have hFound :=
        found_of_fails_single hGapless
          (fun m => (follows_singleAtRule (hSelf m)).1)
          (fun m => found_of_fails_singleAtRule) h
      simpa using hFound
  | declaration =>
      have hFound :=
        found_of_fails_single hGapless
          (fun m => (follows_singleDeclaration (hSelf m)).1)
          (fun m => found_of_fails_singleDeclaration) h
      simpa using hFound

end Grammar

end LosslessCss

------------------------------------------------------------
-- Texts
------------------------------------------------------------

namespace LosslessCss

namespace PulledText

theorem shown_ofText
    (css : String)
    (here : Location) :
    TokenSource.shown (ofText css here) =
      Lexer.tokenize css here :=
  (tokenize_eq css here).symm

theorem location_ofText
    (css : String)
    (here : Location) :
    TokenSource.location (ofText css here) = here := by
  rcases TokenSource.shown_eq_cons (ofText css here) with
    ⟨rest, hShown⟩
  have hLocated := located_tokenize css here
  rw [← shown_ofText, hShown] at hLocated
  exact hLocated.1

theorem gapless_ofText
    (css : String)
    (here : Location) :
    TokenSource.Gapless (ofText css here) := by
  unfold TokenSource.Gapless
  rw [location_ofText, shown_ofText]
  exact located_tokenize css here

end PulledText

namespace Parse

/-
  The error of a text is found at a boundary between tokens,
  and in a style sheet it fits the token that follows there.
-/
theorem text_error_located
    {css : String}
    {settings : Settings}
    {e : SyntaxError}
    (h : text css settings = .error e) :
    ∃ left t right,
      Lexer.tokenize css settings.location =
        left ++ t :: right ∧
      (∃ rest, css = Token.rawText left ++ rest) ∧
      e.location =
        settings.location.advanceBy (Token.rawText left) ∧
      e.kind ≠ .unimplemented ∧
      (settings.context = .styleSheet → e.Fits left t) := by
  have hGapless :=
    PulledText.gapless_ofText css settings.location
  have hKind :=
    Grammar.available_document settings.context _ e h
  rcases Grammar.found_of_fails_document hGapless h with
    ⟨left, t, right, hShown, hPlace, hFits⟩
  rw [PulledText.shown_ofText] at hShown
  have hLocated :=
    PulledText.located_tokenize css settings.location
  refine ⟨left, t, right, hShown, ?_, ?_, hKind, hFits⟩
  · have hText :
        Token.rawText
            (Lexer.tokenize css settings.location) = css := by
      rw [PulledText.tokenize_eq, Token.rawText_append,
        PulledText.rawText_upcoming,
        PulledText.ending_ofText]
      simp [Token.rawText, Token.endOfInput]
    exact
      ⟨Token.rawText (t :: right),
        by rw [← Token.rawText_append, ← hShown, hText]⟩
  · rw [hShown] at hLocated
    rw [hPlace, hLocated.location_of_append]

/-
  A function that is open at the end of its declaration is
  found at the right brace after it, which another semicolon
  stands in front of.
-/
theorem text_error_located_slice :
    text "p\x7br:f(s;\x7d" ⟨.styleSheet, ⟨3, 7, 40⟩, none⟩ =
        .error
          ⟨.unclosedBlock, "expected a closing bracket",
            ⟨3, 15, 48⟩⟩ ∧
      ∃ left t right,
        Lexer.tokenize "p\x7br:f(s;\x7d" ⟨3, 7, 40⟩ =
          left ++ t :: right ∧
        (⟨3, 15, 48⟩ : Location) =
          Location.advanceBy ⟨3, 7, 40⟩
            (Token.rawText left) ∧
        (t.kind = .eof ∨ t.kind = .leftCurly ∨
          t.kind = .rightCurly ∨
          ∃ u ∈ left.getLast?, u.kind = .semicolon) := by
  have hParse :
      text "p\x7br:f(s;\x7d" ⟨.styleSheet, ⟨3, 7, 40⟩, none⟩ =
        .error
          ⟨.unclosedBlock, "expected a closing bracket",
            ⟨3, 15, 48⟩⟩ := by
    decide +kernel
  rcases text_error_located hParse with
    ⟨left, t, right, hTokens, _, hPlace, _, hFits⟩
  exact ⟨hParse, left, t, right, hTokens, hPlace, hFits rfl⟩

end Parse

end LosslessCss
