import LosslessCss.Proofs.Loops
import LosslessCss.Proofs.Passing

/-
  Successful parses.

  A parser yields a result when it succeeds with it, from one
  place of a source to another.  Sequences of parsers yield
  step by step, so what a routine yields can be read off its
  text.

  Key definitions include:
    * `Parser.Yields`

  Key theorems include:
    * `Parser.yields_bind`
    * `Grammar.yields_tokensWhile`
    * `Grammar.yields_filler`
-/

------------------------------------------------------------
-- Results
------------------------------------------------------------

namespace LosslessCss

namespace Parser

variable {σ : Type} [TokenSource σ] {α β : Type}

/- The parser succeeds and moves between the two places. -/
def Yields
    (p : Parser σ α)
    (s : σ)
    (value : α)
    (s' : σ) : Prop :=
  (p.run s).outcome = .ok value ∧ (p.run s).source = s'

theorem yields_of_outcome
    {p : Parser σ α}
    {s : σ}
    {value : α}
    (h : (p.run s).outcome = .ok value) :
    p.Yields s value (p.run s).source :=
  ⟨h, rfl⟩

/- A parser never has more left where it ends. -/
theorem Yields.remaining_le
    {p : Parser σ α}
    {s s' : σ}
    {value : α}
    (hYields : p.Yields s value s') :
    TokenSource.remaining s' ≤ TokenSource.remaining s := by
  rcases hYields with ⟨_, rfl⟩
  exact p.remaining_run_le s

/- A parser that consumes has less left where it ends. -/
theorem Consumes.lt_of_yields
    {p : Parser σ α}
    {s s' : σ}
    {value : α}
    (h : p.Consumes s)
    (hYields : p.Yields s value s') :
    TokenSource.remaining s' < TokenSource.remaining s := by
  rcases hYields with ⟨hValue, rfl⟩
  exact h value hValue

@[simp] theorem yields_pure
    {s s' : σ}
    {a value : α} :
    (pure a : Parser σ α).Yields s value s' ↔
      value = a ∧ s' = s := by
  constructor
  · intro h
    rcases h with ⟨hValue, hSource⟩
    cases hValue
    exact ⟨rfl, hSource.symm⟩
  · intro h
    rcases h with ⟨rfl, rfl⟩
    exact ⟨rfl, rfl⟩

/- A sequence yields through a place in the middle. -/
theorem yields_bind
    {p : Parser σ α}
    {f : α → Parser σ β}
    {s s' : σ}
    {value : β} :
    (p >>= f).Yields s value s' ↔
      ∃ a m, p.Yields s a m ∧ (f a).Yields m value s' := by
  constructor
  · intro h
    rcases h with ⟨hValue, hSource⟩
    cases hFirst : (p.run s).outcome with
    | error e =>
        rw [run_bind_of_error p f s hFirst] at hValue
        cases hValue
    | ok a =>
        rw [run_bind_of_ok p f s hFirst] at hValue hSource
        exact
          ⟨a, (p.run s).source, ⟨hFirst, rfl⟩,
            hValue, hSource⟩
  · intro h
    rcases h with ⟨a, m, ⟨hFirst, rfl⟩, hValue, hSource⟩
    unfold Yields
    rw [run_bind_of_ok p f s hFirst]
    exact ⟨hValue, hSource⟩

@[simp] theorem yields_bind_current
    {f : Token → Parser σ β}
    {s s' : σ}
    {value : β} :
    (current >>= f).Yields s value s' ↔
      (f (TokenSource.current s)).Yields s value s' :=
  Iff.rfl

@[simp] theorem yields_bind_location
    {f : Location → Parser σ β}
    {s s' : σ}
    {value : β} :
    (location >>= f).Yields s value s' ↔
      (f (TokenSource.location s)).Yields s value s' :=
  Iff.rfl

@[simp] theorem yields_bind_advance
    {f : Unit → Parser σ β}
    {s s' : σ}
    {value : β} :
    (advance >>= f).Yields s value s' ↔
      (f ()).Yields (TokenSource.advance s) value s' :=
  Iff.rfl

@[simp] theorem yields_bind_enter
    {routine : Routine}
    {f : Unit → Parser σ β}
    {s s' : σ}
    {value : β} :
    (enter routine >>= f).Yields s value s' ↔
      (f ()).Yields s value s' :=
  Iff.rfl

@[simp] theorem yields_fail
    {kind : ErrorKind}
    {detail : String}
    {s s' : σ}
    {value : α} :
    ¬ (fail kind detail : Parser σ α).Yields
      s value s' := by
  intro h
  rcases h with ⟨hValue, _⟩
  cases hValue

/- An isolated parse leaves the source where it is. -/
@[simp] theorem yields_isolated
    {tokens : List Token}
    {fallback : Location}
    {p : Scope → Parser TokenSlice α}
    {s s' : σ}
    {value : α} :
    (isolated tokens fallback p : Parser σ α).Yields
        s value s' ↔
      s' = s ∧
        ∃ m, (p .fragment).Yields
          (TokenSlice.ofTokens tokens fallback) value m := by
  constructor
  · intro h
    rcases h with ⟨hValue, hSource⟩
    exact ⟨hSource.symm, _, hValue, rfl⟩
  · intro h
    rcases h with ⟨rfl, m, hValue, _⟩
    exact ⟨hValue, rfl⟩

end Parser

end LosslessCss

------------------------------------------------------------
-- Runs of Tokens
------------------------------------------------------------

namespace LosslessCss

open TokenSource (Passes upcoming)

namespace Grammar

variable {σ : Type} [TokenSource σ]

/- A run stops where no token of its kind comes first. -/
theorem stops_upcoming_iff
    {p : Token → Bool}
    {s : σ} :
    Token.Stops p (upcoming s) ↔
      (!(TokenSource.current s).isEof &&
        p (TokenSource.current s)) = false := by
  unfold Token.Stops
  rw [TokenSource.head?_upcoming]
  cases (TokenSource.current s).isEof with
  | true => simp
  | false => simp

/- A run takes the tokens of its kind and all of them. -/
theorem yields_tokensWhile
    {p : Token → Bool}
    {s s' : σ}
    {ts : List Token} :
    (tokensWhile p).Yields s ts s' ↔
      Passes s ts s' ∧ (∀ t ∈ ts, p t = true) ∧
        Token.Stops p (upcoming s') := by
  induction ts generalizing s with
  | nil =>
      rw [tokensWhile_eq, Parser.yields_bind_current]
      split
      · rename_i hTest
        rw [Parser.yields_bind_advance, Parser.yields_bind]
        simp only [Parser.yields_pure]
        constructor
        · intro h
          rcases h with ⟨tail, m, _, hNil, _⟩
          cases hNil
        · intro h
          rcases h with ⟨rfl, _, hStops⟩
          rw [stops_upcoming_iff, hTest] at hStops
          cases hStops
      · rename_i hTest
        have hStops : Token.Stops p (upcoming s) :=
          stops_upcoming_iff.mpr (by simpa using hTest)
        rw [Parser.yields_pure, TokenSource.passes_nil]
        constructor
        · intro h
          rcases h with ⟨_, rfl⟩
          exact ⟨rfl, by simp, hStops⟩
        · intro h
          rcases h with ⟨rfl, _, _⟩
          exact ⟨rfl, rfl⟩
  | cons t ts ih =>
      rw [tokensWhile_eq, Parser.yields_bind_current]
      split
      · rename_i hTest
        simp only [Bool.and_eq_true, Bool.not_eq_true']
          at hTest
        rw [Parser.yields_bind_advance, Parser.yields_bind]
        simp only [Parser.yields_pure]
        constructor
        · intro h
          rcases h with ⟨tail, m, hTail, hCons, rfl⟩
          cases hCons
          rcases ih.mp hTail with ⟨hPasses, hAll, hStops⟩
          exact
            ⟨⟨rfl, hTest.1, hPasses⟩,
              List.forall_mem_cons.mpr ⟨hTest.2, hAll⟩,
              hStops⟩
        · intro h
          rcases h with ⟨⟨rfl, _, hPasses⟩, hAll, hStops⟩
          have hTail := (List.forall_mem_cons.mp hAll).2
          exact
            ⟨ts, s', ih.mpr ⟨hPasses, hTail, hStops⟩,
              rfl, rfl⟩
      · rename_i hTest
        simp only [Parser.yields_pure]
        constructor
        · intro h
          rcases h with ⟨hCons, _⟩
          cases hCons
        · intro h
          rcases h with ⟨⟨rfl, hEof, _⟩, hAll, _⟩
          have hHead := (List.forall_mem_cons.mp hAll).1
          simp [hEof, hHead] at hTest

/- Formatting is taken as a whole, and only its text kept. -/
theorem yields_filler
    {s s' : σ}
    {text : String} :
    (filler : Parser σ String).Yields s text s' ↔
      ∃ ts, Passes s ts s' ∧
        (∀ t ∈ ts, t.isFiller = true) ∧
        Token.Stops Token.isFiller (upcoming s') ∧
        text = Token.rawText ts := by
  unfold filler
  simp only [Parser.yields_bind, Parser.yields_pure,
    yields_tokensWhile]
  constructor
  · intro h
    rcases h with ⟨ts, m, ⟨hPasses, hAll, hStops⟩, rfl, rfl⟩
    exact ⟨ts, hPasses, hAll, hStops, rfl⟩
  · intro h
    rcases h with ⟨ts, hPasses, hAll, hStops, rfl⟩
    exact ⟨ts, s', ⟨hPasses, hAll, hStops⟩, rfl, rfl⟩

end Grammar

end LosslessCss
