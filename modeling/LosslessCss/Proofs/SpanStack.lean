import LosslessCss.Proofs.Failing
import LosslessCss.Proofs.Nesting
import LosslessCss.Proofs.Pulling
import Mathlib.Logic.Function.Iterate

/-
  Reading a span is running a stack.

  A span is read by recursion, with one call for each span in
  it.  A single stack of closers does the same: the span ends
  with the token that empties the stack for the first time.
  If no token does, the span is open at the end of the input,
  and every call in progress fails there.

  Key definitions include:
    * `Nesting.ClosesAfter`
    * `Nesting.StaysOpen`
    * `Parser.FailsAtEnd`

  Key theorems include:
    * `Nesting.ClosesAfter.spanRest`
    * `Grammar.failsAtEnd_chunk`
    * `Grammar.chunk_by_stack`
-/

------------------------------------------------------------
-- Spans That Are Closed
------------------------------------------------------------

namespace LosslessCss

open Grammar

namespace Nesting

/-
  Inside of a span with the given closer, the stack gets empty
  for the first time after `n` tokens of a run.
-/
structure ClosesAfter
    (closer : Closer)
    (ts : List Token)
    (n : Nat) : Prop where
  le_length : n ≤ ts.length
  empty : after opens? [closer] (ts.take n) = []
  first :
    ∀ m, m < n → after opens? [closer] (ts.take m) ≠ []

/- However much of a run is read, the stack is not empty. -/
def StaysOpen
    (closer : Closer)
    (ts : List Token) : Prop :=
  ∀ n, after opens? [closer] (ts.take n) ≠ []

variable {closer : Closer} {ts : List Token} {n : Nat}

instance : Decidable (ClosesAfter closer ts n) :=
  decidable_of_iff
    (n ≤ ts.length ∧
      after opens? [closer] (ts.take n) = [] ∧
      ∀ m, m < n → after opens? [closer] (ts.take m) ≠ [])
    ⟨fun h => ⟨h.1, h.2.1, h.2.2⟩, fun h =>
      ⟨h.le_length, h.empty, h.first⟩⟩

/- What follows the last token does not matter. -/
theorem staysOpen_iff :
    StaysOpen closer ts ↔
      ∀ n, n ≤ ts.length →
        after opens? [closer] (ts.take n) ≠ [] := by
  constructor
  · exact fun hOpen n _ => hOpen n
  · intro hOpen n
    cases Nat.le_total n ts.length with
    | inl hInside => exact hOpen n hInside
    | inr hOutside =>
        rw [List.take_of_length_le hOutside,
          ← List.take_length (l := ts)]
        exact hOpen _ (Nat.le_refl _)

instance : Decidable (StaysOpen closer ts) :=
  decidable_of_iff _ staysOpen_iff.symm

/- The tokens that empty the stack are the rest of a span. -/
theorem ClosesAfter.spanRest
    (hCloses : ClosesAfter closer ts n) :
    Form.SpanRest closer (ts.take n) := by
  rcases unwinds_of_after hCloses.empty with
    ⟨body, rest, hSplit, hBody, _⟩
  have hTake : ts.take body.length = body := by
    have hFront : ts.take n <+: ts := List.take_prefix n ts
    rw [hSplit] at hFront
    exact
      (List.prefix_iff_eq_take.mp
        ((List.prefix_append body rest).trans hFront)).symm
  have hEmpty :
      after opens? [closer] (ts.take body.length) = [] := by
    rw [hTake]
    exact after_spanRest hBody []
  -- A shorter span would have emptied the stack before.
  have hLength : n ≤ body.length := by
    by_contra hShort
    exact hCloses.first _ (by omega) hEmpty
  have hRest : rest = [] := by
    have hSizes := congrArg List.length hSplit
    rw [List.length_take, List.length_append] at hSizes
    exact List.eq_nil_of_length_eq_zero (by omega)
  rw [hSplit, hRest, List.append_nil]
  exact hBody

/- A run that starts with the rest of a span closes it. -/
theorem not_staysOpen_of_spanRest
    {body rest : List Token}
    (hBody : Form.SpanRest closer body) :
    ¬ StaysOpen closer (body ++ rest) := by
  intro hOpen
  apply hOpen body.length
  rw [List.take_left]
  exact after_spanRest hBody []

end Nesting

end LosslessCss

------------------------------------------------------------
-- Failing at the End
------------------------------------------------------------

namespace LosslessCss

open TokenSource (Passes upcoming ending advance current)

namespace TokenSource

variable {σ : Type} [TokenSource σ]

/- Passing tokens moves forward once for each of them. -/
theorem Passes.eq_iterate
    {s s' : σ}
    {ts : List Token}
    (hPasses : Passes s ts s') :
    s' = advance^[ts.length] s := by
  induction ts generalizing s with
  | nil => exact hPasses.symm
  | cons t ts ih => exact ih hPasses.2.2

end TokenSource

namespace Parser

variable {σ : Type} [TokenSource σ] {α β : Type} {s : σ}

/- The parser only fails with its cursor on an end mark. -/
def FailsAtEnd
    (p : Parser σ α)
    (s : σ) : Prop :=
  ∀ e, p.Fails s e →
    (TokenSource.current (p.run s).source).isEof = true

theorem failsAtEnd_pure
    (value : α) :
    (pure value : Parser σ α).FailsAtEnd s :=
  fun _ h => absurd h fails_pure

/- A sequence fails at the end if both of its steps do. -/
theorem FailsAtEnd.bind
    {p : Parser σ α}
    {f : α → Parser σ β}
    (hFirst : p.FailsAtEnd s)
    (hNext :
      ∀ a m, p.Yields s a m → (f a).FailsAtEnd m) :
    (p >>= f).FailsAtEnd s := by
  intro e h
  cases hp : (p.run s).outcome with
  | error other =>
      rw [run_bind_of_error p f s hp]
      exact hFirst other hp
  | ok a =>
      have hYields := yields_of_outcome hp
      unfold Fails at h
      rw [run_bind_of_ok p f s hp] at h ⊢
      exact hNext a _ hYields e h

theorem failsAtEnd_bind_current
    {f : Token → Parser σ β}
    (hNext : (f (TokenSource.current s)).FailsAtEnd s) :
    (Parser.current >>= f).FailsAtEnd s :=
  hNext

theorem failsAtEnd_bind_advance
    {f : Unit → Parser σ β}
    (hNext :
      (f ()).FailsAtEnd (TokenSource.advance s)) :
    (Parser.advance >>= f).FailsAtEnd s :=
  hNext

theorem failsAtEnd_bind_enter
    {routine : Routine}
    {f : Unit → Parser σ β}
    (hNext : (f ()).FailsAtEnd s) :
    (enter routine >>= f).FailsAtEnd s :=
  hNext

end Parser

namespace Grammar

variable {σ : Type} [TokenSource σ] {s : σ}

/- Every span fails at the end, also one in another span. -/
theorem failsAtEnd_span
    (closer : Closer) :
    (span closer : Parser σ String).FailsAtEnd s := by
  induction s using TokenSource.remaining_induction
    generalizing closer with
  | step s ih =>
      rw [span_eq]
      apply Parser.failsAtEnd_bind_current
      split
      · exact Parser.failsAtEnd_bind_advance
          (Parser.failsAtEnd_pure _)
      split
      · rename_i hEof
        exact fun _ _ => hEof
      rename_i hEof
      rw [Bool.not_eq_true] at hEof
      have hNext := TokenSource.remaining_advance_lt s hEof
      split
      · apply Parser.failsAtEnd_bind_advance
        apply (ih _ hNext closer).bind
        intro _ _ _
        exact Parser.failsAtEnd_pure _
      · rename_i opener _
        apply Parser.failsAtEnd_bind_enter
        apply Parser.failsAtEnd_bind_advance
        apply (ih _ hNext opener.closer).bind
        intro _ m hBody
        have hMiddle :=
          Nat.lt_of_le_of_lt hBody.remaining_le hNext
        apply (ih _ hMiddle closer).bind
        intro _ _ _
        exact Parser.failsAtEnd_pure _

theorem failsAtEnd_chunk
    (opens : Token → Option Opener) :
    (chunk opens : Parser σ Chunk).FailsAtEnd s := by
  apply Parser.failsAtEnd_bind_current
  split
  · exact Parser.failsAtEnd_bind_advance
      (Parser.failsAtEnd_pure _)
  · apply Parser.failsAtEnd_bind_enter
    apply Parser.failsAtEnd_bind_advance
    apply (failsAtEnd_span _).bind
    intro _ _ _
    exact Parser.failsAtEnd_pure _

end Grammar

end LosslessCss

------------------------------------------------------------
-- Spans and Stacks
------------------------------------------------------------

namespace LosslessCss

open TokenSource (Passes upcoming ending)

namespace Grammar

variable {σ : Type} [TokenSource σ] {s : σ}
variable {opens : Token → Option Opener} {o : Token}
  {opener : Opener} {ts : List Token}

/- A span ends with the token that empties the stack. -/
theorem yields_chunk_of_closesAfter
    {n : Nat}
    (hOpens : opens o = some opener)
    (hUpcoming : upcoming s = o :: ts)
    (hCloses : Nesting.ClosesAfter opener.closer ts n) :
    ∃ s', Passes s (o :: ts.take n) s' ∧
      upcoming s' = ts.drop n ∧
      (chunk opens).Yields s
        ⟨o, Token.rawText (o :: ts.take n)⟩ s' := by
  have hSplit :
      upcoming s = (o :: ts.take n) ++ ts.drop n := by
    rw [hUpcoming, List.cons_append, List.take_append_drop]
  rcases TokenSource.exists_passes hSplit with
    ⟨s', hPasses, hRest⟩
  refine ⟨s', hPasses, hRest, yields_chunk.mpr (.inr ?_)⟩
  rcases hPasses with ⟨hCurrent, _, hBody⟩
  subst hCurrent
  exact
    ⟨opener, ts.take n, hOpens, hBody, hCloses.spanRest,
      rfl⟩

/- A span that stays open fails at the end of the input. -/
theorem fails_chunk_of_staysOpen
    (hOpens : opens o = some opener)
    (hUpcoming : upcoming s = o :: ts)
    (hOpen : Nesting.StaysOpen opener.closer ts) :
    (chunk opens).Fails s (spanError s) ∧
      Passes s (o :: ts) ((chunk opens).run s).source := by
  rcases TokenSource.exists_passes
      (hUpcoming.trans (List.append_nil _).symm) with
    ⟨last, ⟨hCurrent, hEof, hTail⟩, hLast⟩
  subst hCurrent
  cases hRun : ((chunk opens).run s).outcome with
  | ok c =>
      have hYields := Parser.yields_of_outcome hRun
      rcases yields_chunk.mp hYields with
        ⟨hNone, _⟩ | ⟨other, body, hSome, hBody, hForm, _⟩
      · rw [hOpens] at hNone
        cases hNone
      · rw [hOpens] at hSome
        cases hSome
        have hParts := hBody.upcoming_eq
        rw [hTail.upcoming_eq, hLast, List.append_nil]
          at hParts
        rw [hParts] at hOpen
        exact absurd hOpen
          (Nesting.not_staysOpen_of_spanRest hForm)
  | error e =>
      have hFails : (chunk opens).Fails s e := hRun
      have hEnd := failsAtEnd_chunk opens e hFails
      rcases pulls_chunk opens hEof with
        ⟨passed, _, hPasses, _⟩
      have hAll := hPasses.upcoming_eq
      rw [TokenSource.upcoming_eq_nil_iff.mpr hEnd,
        hUpcoming, List.append_nil] at hAll
      rw [← hAll] at hPasses
      refine ⟨?_, hPasses⟩
      rw [← eq_of_fails_chunk hEof hFails]
      exact hFails

/-
  A token that opens a span is read together with the tokens
  up to the one that empties the stack for the first time,
  and the cursor moves to the token after that.  If the stack
  never gets empty, the span is reported as open at the end
  of the input, with the cursor on the end mark.
-/
theorem chunk_by_stack
    (hOpens : opens o = some opener)
    (hUpcoming : upcoming s = o :: ts) :
    (∀ n, Nesting.ClosesAfter opener.closer ts n →
      ((chunk opens).run s).outcome =
          .ok ⟨o, Token.rawText (o :: ts.take n)⟩ ∧
        ((chunk opens).run s).source =
          TokenSource.advance^[n + 1] s ∧
        upcoming (TokenSource.advance^[n + 1] s) =
          ts.drop n) ∧
    (Nesting.StaysOpen opener.closer ts →
      ((chunk opens).run s).outcome =
          .error
            ⟨.unclosedBlock, "expected a closing bracket",
              (ending s).location⟩ ∧
        ((chunk opens).run s).source =
          TokenSource.advance^[ts.length + 1] s ∧
        TokenSource.current
            (TokenSource.advance^[ts.length + 1] s) =
          ending s) := by
  constructor
  · intro n hCloses
    rcases yields_chunk_of_closesAfter hOpens hUpcoming
        hCloses with
      ⟨s', hPasses, hRest, hValue, hSource⟩
    have hPlace := hPasses.eq_iterate
    rw [List.length_cons,
      List.length_take_of_le hCloses.le_length] at hPlace
    rw [← hPlace]
    exact ⟨hValue, hSource, hRest⟩
  · intro hOpen
    rcases fails_chunk_of_staysOpen hOpens hUpcoming
        hOpen with
      ⟨hFails, hPasses⟩
    have hPlace := hPasses.eq_iterate
    rw [List.length_cons] at hPlace
    refine ⟨hFails, hPlace, ?_⟩
    have hEnd :
        (TokenSource.current
          ((chunk opens).run s).source).isEof = true :=
      failsAtEnd_chunk opens _ hFails
    rw [← hPlace, hPasses.ending_eq,
      TokenSource.ending_of_isEof hEnd]

/-
  A right bracket inside of a function does not close the
  bracket around it, and a right parenthesis inside of a
  bracket does not close the parenthesis around that.
-/
theorem chunk_by_stack_mismatched :
    let bracket :=
      TokenSlice.ofTokens
        (Lexer.tokenize "[x(])]y" Location.start)
        Location.start
    let paren :=
      TokenSlice.ofTokens
        (Lexer.tokenize "(a[b)" Location.start)
        Location.start
    ((chunk opens?).run bracket).outcome =
        .ok
          ⟨⟨.leftBracket, "[", ⟨1, 1, 0⟩⟩, "[x(])]"⟩ ∧
      upcoming (TokenSource.advance^[5] bracket) =
        [⟨.ident "y", "y", ⟨1, 7, 6⟩⟩] ∧
      ((chunk opens?).run paren).outcome =
        .error
          ⟨.unclosedBlock, "expected a closing bracket",
            ⟨1, 6, 5⟩⟩ := by
  intro bracket paren
  have hBracket :
      upcoming bracket =
        ⟨.leftBracket, "[", ⟨1, 1, 0⟩⟩ ::
          [⟨.function "x", "x(", ⟨1, 2, 1⟩⟩,
            ⟨.rightBracket, "]", ⟨1, 4, 3⟩⟩,
            ⟨.rightParen, ")", ⟨1, 5, 4⟩⟩,
            ⟨.rightBracket, "]", ⟨1, 6, 5⟩⟩,
            ⟨.ident "y", "y", ⟨1, 7, 6⟩⟩] := by
    rw [TokenSlice.upcoming_ofTokens]
    decide +kernel
  have hParen :
      upcoming paren =
        ⟨.leftParen, "(", ⟨1, 1, 0⟩⟩ ::
          [⟨.ident "a", "a", ⟨1, 2, 1⟩⟩,
            ⟨.leftBracket, "[", ⟨1, 3, 2⟩⟩,
            ⟨.ident "b", "b", ⟨1, 4, 3⟩⟩,
            ⟨.rightParen, ")", ⟨1, 5, 4⟩⟩] := by
    rw [TokenSlice.upcoming_ofTokens]
    decide +kernel
  have hEnding :
      ending paren = Token.endOfInput ⟨1, 6, 5⟩ := by
    rw [TokenSlice.ending_ofTokens]
    decide +kernel
  have hOpensBracket :
      opens? ⟨.leftBracket, "[", ⟨1, 1, 0⟩⟩ =
        some ⟨.bracketSpan, .bracket⟩ :=
    rfl
  have hOpensParen :
      opens? ⟨.leftParen, "(", ⟨1, 1, 0⟩⟩ =
        some ⟨.bracketSpan, .paren⟩ :=
    rfl
  have hClosed :=
    (chunk_by_stack hOpensBracket hBracket).1 4 (by decide)
  have hOpen :=
    (chunk_by_stack hOpensParen hParen).2 (by decide)
  refine ⟨hClosed.1, hClosed.2.2, ?_⟩
  rw [hOpen.1, hEnding]
  rfl

end Grammar

end LosslessCss
