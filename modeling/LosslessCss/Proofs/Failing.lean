import LosslessCss.Proofs.Agreement

/-
  Failed parses.

  A parser fails with an error when that is its outcome.  As
  for results, where a sequence of parsers fails can be read
  off its text.  For every routine that reads from the source
  itself, the results say which errors it has, and at which
  tokens.

  Key definitions include:
    * `Parser.Fails`
    * `Grammar.spanError`

  Key theorems include:
    * `Parser.fails_bind`
    * `Grammar.eq_of_fails_chunksWhile`
    * `Grammar.cases_of_fails_address`
    * `Grammar.cases_of_fails_declaration`
-/

------------------------------------------------------------
-- Errors
------------------------------------------------------------

namespace LosslessCss

namespace Parser

variable {σ : Type} [TokenSource σ] {α β : Type}

/- The parser fails with the error. -/
def Fails
    (p : Parser σ α)
    (s : σ)
    (e : SyntaxError) : Prop :=
  (p.run s).outcome = .error e

@[simp] theorem fails_pure
    {s : σ}
    {value : α}
    {e : SyntaxError} :
    ¬ (pure value : Parser σ α).Fails s e := by
  intro h
  cases h

/- A sequence fails at one of its two steps. -/
theorem fails_bind
    {p : Parser σ α}
    {f : α → Parser σ β}
    {s : σ}
    {e : SyntaxError} :
    (p >>= f).Fails s e ↔
      p.Fails s e ∨
        ∃ a m, p.Yields s a m ∧ (f a).Fails m e := by
  unfold Fails
  cases hp : (p.run s).outcome with
  | error other =>
      rw [run_bind_of_error p f s hp]
      constructor
      · intro hFirst
        exact .inl (congrArg _ (Except.error.inj hFirst))
      · rintro (hFirst | ⟨a, m, hYields, _⟩)
        · exact congrArg _ (Except.error.inj hFirst)
        · rw [hYields.1] at hp
          cases hp
  | ok a =>
      rw [run_bind_of_ok p f s hp]
      constructor
      · intro hNext
        exact .inr ⟨a, _, yields_of_outcome hp, hNext⟩
      · rintro (hFirst | ⟨b, m, hYields, hNext⟩)
        · cases hFirst
        · rcases hYields with ⟨hValue, rfl⟩
          rw [hp] at hValue
          cases hValue
          exact hNext

@[simp] theorem fails_bind_current
    {f : Token → Parser σ β}
    {s : σ}
    {e : SyntaxError} :
    (current >>= f).Fails s e ↔
      (f (TokenSource.current s)).Fails s e :=
  Iff.rfl

@[simp] theorem fails_bind_location
    {f : Location → Parser σ β}
    {s : σ}
    {e : SyntaxError} :
    (location >>= f).Fails s e ↔
      (f (TokenSource.location s)).Fails s e :=
  Iff.rfl

@[simp] theorem fails_bind_advance
    {f : Unit → Parser σ β}
    {s : σ}
    {e : SyntaxError} :
    (advance >>= f).Fails s e ↔
      (f ()).Fails (TokenSource.advance s) e :=
  Iff.rfl

@[simp] theorem fails_bind_enter
    {routine : Routine}
    {f : Unit → Parser σ β}
    {s : σ}
    {e : SyntaxError} :
    (enter routine >>= f).Fails s e ↔ (f ()).Fails s e :=
  Iff.rfl

@[simp] theorem fails_fail
    {kind : ErrorKind}
    {detail : String}
    {s : σ}
    {e : SyntaxError} :
    (fail kind detail : Parser σ α).Fails s e ↔
      e = ⟨kind, detail, TokenSource.location s⟩ := by
  constructor
  · intro h
    cases h
    rfl
  · rintro rfl
    rfl

/- An isolated parse fails in its own run. -/
@[simp] theorem fails_isolated
    {tokens : List Token}
    {fallback : Location}
    {p : Scope → Parser TokenSlice α}
    {s : σ}
    {e : SyntaxError} :
    (isolated tokens fallback p : Parser σ α).Fails s e ↔
      (p .fragment).Fails
        (TokenSlice.ofTokens tokens fallback) e :=
  Iff.rfl

end Parser

end LosslessCss

------------------------------------------------------------
-- Places
------------------------------------------------------------

namespace LosslessCss

namespace TokenSource

variable {σ : Type} [TokenSource σ]

/- The end mark of a source marks the end. -/
theorem isEof_ending
    (s : σ) :
    (ending s).isEof = true := by
  induction s using remaining_induction with
  | step s ih =>
      cases hEof : (current s).isEof with
      | true => rw [ending_of_isEof hEof, hEof]
      | false =>
          rw [ending_of_not_isEof hEof]
          exact ih _ (remaining_advance_lt s hEof)

/- Passing tokens does not change the end. -/
theorem Passes.ending_eq
    {s s' : σ}
    {ts : List Token}
    (hPasses : Passes s ts s') :
    ending s = ending s' := by
  induction ts generalizing s with
  | nil => rw [passes_nil.mp hPasses]
  | cons t ts ih =>
      rcases hPasses with ⟨rfl, hEof, hTail⟩
      rw [ending_of_not_isEof hEof, ih hTail]

/- A source follows itself. -/
theorem follows_self
    (s : σ) :
    Follows false id s s :=
  follows_id_iff.mpr ⟨rfl, rfl⟩

/- The tokens of a source together with its end mark. -/
def shown (s : σ) : List Token :=
  upcoming s ++ [ending s]

theorem Passes.shown_eq
    {s s' : σ}
    {ts : List Token}
    (hPasses : Passes s ts s') :
    shown s = ts ++ shown s' := by
  rw [shown, hPasses.upcoming_eq, hPasses.ending_eq,
    List.append_assoc]
  rfl

/- The token at the cursor is shown first. -/
theorem shown_eq_cons
    (s : σ) :
    ∃ rest, shown s = current s :: rest := by
  unfold shown
  cases hEof : (current s).isEof with
  | true =>
      rw [upcoming_of_isEof hEof, ending_of_isEof hEof]
      exact ⟨[], rfl⟩
  | false =>
      rw [upcoming_of_not_isEof hEof]
      exact ⟨_, rfl⟩

end TokenSource

end LosslessCss

------------------------------------------------------------
-- Spans and Chunks
------------------------------------------------------------

namespace LosslessCss

open TokenSource (Passes upcoming ending)

namespace Grammar

variable {σ : Type} [TokenSource σ]

/- The error of a span that is not closed. -/
def spanError (s : σ) : SyntaxError :=
  ⟨.unclosedBlock, "expected a closing bracket",
    (ending s).location⟩

theorem spanError_of_passes
    {s s' : σ}
    {ts : List Token}
    (hPasses : Passes s ts s') :
    spanError s' = spanError s := by
  rw [spanError, spanError, hPasses.ending_eq]

theorem spanError_advance
    {s : σ}
    (hEof : (TokenSource.current s).isEof = false) :
    spanError (TokenSource.advance s) = spanError s :=
  spanError_of_passes (.single hEof)

theorem not_fails_tokensWhile
    {p : Token → Bool}
    {s : σ}
    {e : SyntaxError} :
    ¬ (tokensWhile p).Fails s e := by
  induction s using TokenSource.remaining_induction with
  | step s ih =>
      rw [tokensWhile_eq, Parser.fails_bind_current]
      split
      · rename_i hTest
        simp only [Bool.and_eq_true, Bool.not_eq_true']
          at hTest
        rw [Parser.fails_bind_advance, Parser.fails_bind]
        rintro (hTail | ⟨tail, m, _, hPure⟩)
        · exact ih _
            (TokenSource.remaining_advance_lt s hTest.1)
            hTail
        · exact Parser.fails_pure hPure
      · exact Parser.fails_pure

theorem not_fails_filler
    {s : σ}
    {e : SyntaxError} :
    ¬ (filler : Parser σ String).Fails s e := by
  unfold filler
  rw [Parser.fails_bind]
  rintro (hRun | ⟨tokens, m, _, hPure⟩)
  · exact not_fails_tokensWhile hRun
  · exact Parser.fails_pure hPure

/- A span only fails at the end of the input. -/
theorem eq_of_fails_span
    {closer : Closer}
    {s : σ}
    {e : SyntaxError}
    (h : (span closer).Fails s e) :
    e = spanError s := by
  induction s using TokenSource.remaining_induction
    generalizing closer with
  | step s ih =>
      rw [span_eq, Parser.fails_bind_current] at h
      split at h
      · rw [Parser.fails_bind_advance] at h
        exact absurd h Parser.fails_pure
      split at h
      · rename_i hEof
        rw [Parser.fails_fail] at h
        rw [h, spanError, TokenSource.ending_of_isEof hEof]
        rfl
      rename_i hEof
      rw [Bool.not_eq_true] at hEof
      have hNext := TokenSource.remaining_advance_lt s hEof
      rw [← spanError_advance hEof]
      split at h
      · rw [Parser.fails_bind_advance, Parser.fails_bind] at h
        rcases h with hTail | ⟨tail, m, _, hPure⟩
        · exact ih _ hNext hTail
        · exact absurd hPure Parser.fails_pure
      · rw [Parser.fails_bind_enter,
          Parser.fails_bind_advance, Parser.fails_bind] at h
        rcases h with hBody | ⟨body, m, hBody, hAfter⟩
        · exact ih _ hNext hBody
        rcases form_of_yields_span hBody with
          ⟨ts, hPasses, _⟩
        have hMiddle :=
          Nat.lt_of_le_of_lt hPasses.remaining_le hNext
        rw [← spanError_of_passes hPasses]
        rcases Parser.fails_bind.mp hAfter with
          hTail | ⟨tail, n, _, hPure⟩
        · exact ih _ hMiddle hTail
        · exact absurd hPure Parser.fails_pure

theorem eq_of_fails_chunk
    {opens : Token → Option Opener}
    {s : σ}
    {e : SyntaxError}
    (hEof : (TokenSource.current s).isEof = false)
    (h : (chunk opens).Fails s e) :
    e = spanError s := by
  unfold chunk at h
  rw [Parser.fails_bind_current] at h
  split at h
  · rw [Parser.fails_bind_advance] at h
    exact absurd h Parser.fails_pure
  · rw [Parser.fails_bind_enter, Parser.fails_bind_advance,
      Parser.fails_bind] at h
    rcases h with hSpan | ⟨body, m, _, hPure⟩
    · rw [eq_of_fails_span hSpan, spanError_advance hEof]
    · exact absurd hPure Parser.fails_pure

/- Chunks only fail at the end of the input. -/
theorem eq_of_fails_chunksWhile
    {opens : Token → Option Opener}
    {p : Token → Bool}
    {s : σ}
    {e : SyntaxError}
    (h : (chunksWhile opens p).Fails s e) :
    e = spanError s := by
  induction s using TokenSource.remaining_induction with
  | step s ih =>
      rw [chunksWhile_eq, Parser.fails_bind_current] at h
      split at h
      · rename_i hTest
        simp only [Bool.and_eq_true, Bool.not_eq_true']
          at hTest
        rcases Parser.fails_bind.mp h with
          hFirst | ⟨first, m, hFirst, hAfter⟩
        · exact eq_of_fails_chunk hTest.1 hFirst
        have hLess :=
          (consumes_chunk opens hTest.1).lt_of_yields hFirst
        have hSame : spanError m = spanError s := by
          rcases yields_chunk.mp hFirst with
            ⟨_, _, rfl⟩ | ⟨_, body, _, hPasses, _, _⟩
          · exact spanError_advance hTest.1
          · rw [spanError_of_passes hPasses,
              spanError_advance hTest.1]
        rw [← hSame]
        rcases Parser.fails_bind.mp hAfter with
          hTail | ⟨tail, n, _, hPure⟩
        · exact ih _ hLess hTail
        · exact absurd hPure Parser.fails_pure
      · exact absurd h Parser.fails_pure

theorem eq_of_fails_fragment
    {ends : Token → Bool}
    {s : σ}
    {e : SyntaxError}
    (h : (fragment ends).Fails s e) :
    e = spanError s := by
  unfold fragment at h
  rw [Parser.fails_bind_enter, Parser.fails_bind] at h
  rcases h with hBlank | ⟨leading, m, hBlank, hAfter⟩
  · exact absurd hBlank not_fails_filler
  rcases yields_filler.mp hBlank with ⟨ts, hPasses, _⟩
  rw [← spanError_of_passes hPasses]
  rcases Parser.fails_bind.mp hAfter with
    hChunks | ⟨chunks, n, _, hPure⟩
  · exact eq_of_fails_chunksWhile hChunks
  · exact absurd hPure Parser.fails_pure

end Grammar

end LosslessCss

------------------------------------------------------------
-- Statements
------------------------------------------------------------

namespace LosslessCss

open TokenSource (Passes upcoming)

namespace Grammar

variable {σ : Type} [TokenSource σ]

/- Where an address fails, there is none. -/
theorem cases_of_fails_address
    {kind : ErrorKind}
    {s : σ}
    {e : SyntaxError}
    (h : (address kind).Fails s e) :
    e = spanError s ∨
      (e =
          ⟨kind, "expected a string or url",
            TokenSource.location s⟩ ∧
        isPlainAddress (TokenSource.current s) = false ∧
        isUrlFunction (TokenSource.current s) = false) := by
  unfold address at h
  rw [Parser.fails_bind_current] at h
  split at h
  · rw [Parser.fails_bind_advance] at h
    exact absurd h Parser.fails_pure
  rename_i hPlain
  split at h
  · rename_i hUrl
    have hEof := isEof_of_test hUrl fun _ _ => rfl
    rcases Parser.fails_bind.mp h with
      hCall | ⟨call, m, _, hPure⟩
    · exact .inl (eq_of_fails_chunk hEof hCall)
    · exact absurd hPure Parser.fails_pure
  · rename_i hUrl
    exact
      .inr
        ⟨Parser.fails_fail.mp h, by simpa using hPlain,
          by simpa using hUrl⟩

/-
  Where the end of a statement fails, there is another token
  than those that end it.
-/
theorem exists_of_fails_statementEnd
    {pieces : List Piece}
    {kind : ErrorKind}
    {s : σ}
    {e : SyntaxError}
    (h : (statementEnd pieces kind).Fails s e) :
    ∃ inner m,
      Passes s inner m ∧ Form.Fillers inner ∧
        e =
          ⟨kind, "expected a semicolon",
            TokenSource.location m⟩ ∧
        (TokenSource.current m).kind ≠ .semicolon ∧
        (TokenSource.current m).kind ≠ .eof ∧
        (TokenSource.current m).kind ≠ .rightCurly := by
  unfold statementEnd at h
  rcases Parser.fails_bind.mp h with
    hBlank | ⟨blank, m, hBlank, hAfter⟩
  · exact absurd hBlank not_fails_filler
  rcases yields_filler.mp hBlank with
    ⟨inner, hPasses, hFillers, _⟩
  rw [Parser.fails_bind_current] at hAfter
  split at hAfter
  · rw [Parser.fails_bind_advance] at hAfter
    exact absurd hAfter Parser.fails_pure
  · exact absurd hAfter Parser.fails_pure
  · exact absurd hAfter Parser.fails_pure
  · rename_i hSemicolon hEof hRight
    exact
      ⟨inner, m, hPasses, hFillers,
        Parser.fails_fail.mp hAfter, hSemicolon, hEof,
        hRight⟩

end Grammar

end LosslessCss

------------------------------------------------------------
-- Declarations and Selectors
------------------------------------------------------------

namespace LosslessCss

open TokenSource (Passes upcoming)

namespace Grammar

variable {σ : Type} [TokenSource σ]

theorem eq_of_fails_selectorList
    {s : σ}
    {e : SyntaxError}
    (h : (selectorList : Parser σ (List Piece)).Fails s e) :
    e = spanError s := by
  unfold selectorList at h
  rw [Parser.fails_bind_enter, Parser.fails_bind] at h
  rcases h with hChunks | ⟨chunks, m, _, hPure⟩
  · exact eq_of_fails_chunksWhile hChunks
  · exact absurd hPure Parser.fails_pure

/-
  A declaration fails where its property should be, where its
  colon should be, or at an open function of its value.
-/
theorem cases_of_fails_declaration
    {s : σ}
    {e : SyntaxError}
    (h : (declaration : Parser σ Leaf).Fails s e) :
    ((TokenSource.current s).isIdent = false ∧
      e =
        ⟨.invalidDeclaration, "expected a property name",
          TokenSource.location s⟩) ∨
    (∃ between m,
      (TokenSource.current s).isIdent = true ∧
        Passes s (TokenSource.current s :: between) m ∧
        (∀ t ∈ between, beforeColon t = true) ∧
        ((TokenSource.current m).kind = .semicolon ∨
          (TokenSource.current m).isEof = true) ∧
        e =
          ⟨.invalidDeclaration, "expected a colon",
            TokenSource.location m⟩) ∨
    e = spanError s := by
  unfold declaration at h
  rw [Parser.fails_bind_enter, Parser.fails_bind_current] at h
  split at h
  · rename_i hIdent
    have hEof := isEof_of_test hIdent fun _ _ => rfl
    rw [Parser.fails_bind_advance, Parser.fails_bind] at h
    rcases h with hBetween | ⟨between, m, hBetween, hAfter⟩
    · exact absurd hBetween not_fails_tokensWhile
    rcases yields_tokensWhile.mp hBetween with
      ⟨hPasses, hAll, hStops⟩
    have hFront := Passes.cons hEof hPasses
    rw [Parser.fails_bind_current] at hAfter
    split at hAfter
    · rename_i hColon
      have hOther : (TokenSource.current m).isEof = false := by
        simp [Token.isEof, hColon]
      rw [Parser.fails_bind_advance,
        Parser.fails_bind] at hAfter
      rcases hAfter with hValue | ⟨chunks, n, _, hPure⟩
      · refine .inr (.inr ?_)
        rw [eq_of_fails_chunksWhile hValue,
          spanError_advance hOther,
          spanError_of_passes hFront]
      · exact absurd hPure Parser.fails_pure
    · rename_i hColon
      refine
        .inr (.inl
          ⟨between, m, hIdent, hFront, hAll, ?_,
            Parser.fails_fail.mp hAfter⟩)
      rw [stops_upcoming_iff] at hStops
      unfold beforeColon at hStops
      split at hStops
      · exact absurd ‹_› hColon
      · exact .inl ‹_›
      · exact .inr (by simpa using hStops)
  · rename_i hIdent
    exact
      .inl ⟨by simpa using hIdent, Parser.fails_fail.mp h⟩

/- A run of tokens only fails at a right brace. -/
theorem exists_of_fails_ambiguousSpan
    {s : σ}
    {e : SyntaxError}
    (h :
      (ambiguousSpan :
        Parser σ (List Token × SpanEnd)).Fails s e) :
    (TokenSource.current s).kind = .rightCurly ∧
      e =
        ⟨.unexpectedRightCurly,
          "expected a rule or declaration",
          TokenSource.location s⟩ := by
  unfold ambiguousSpan at h
  rw [Parser.fails_bind_enter, Parser.fails_bind] at h
  rcases h with hRun | ⟨run, m, hRun, hAfter⟩
  · exact absurd hRun not_fails_tokensWhile
  rw [Parser.fails_bind_current] at hAfter
  split at hAfter
  · rw [Parser.fails_bind_advance] at hAfter
    exact absurd hAfter Parser.fails_pure
  · rw [Parser.fails_bind_advance] at hAfter
    exact absurd hAfter Parser.fails_pure
  · rename_i hRight
    split at hAfter
    · rename_i hNone
      rw [List.isEmpty_iff] at hNone
      subst hNone
      rcases (yields_tokensWhile.mp hRun).1 with rfl
      exact ⟨hRight, Parser.fails_fail.mp hAfter⟩
    · exact absurd hAfter Parser.fails_pure
  · exact absurd hAfter Parser.fails_pure

end Grammar

end LosslessCss
