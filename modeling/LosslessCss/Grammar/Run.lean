import LosslessCss.Grammar.Parser

/-
  Runs of tokens: as many tokens as satisfy a condition.

  Key definitions include:
    * `Within`
    * `Grammar.tokensWhile`
    * `Grammar.filler`
-/

------------------------------------------------------------
-- Runs
------------------------------------------------------------

namespace LosslessCss

open TokenSource (remaining)

/- A reply that leaves no more than the given source has. -/
abbrev Within
    {σ : Type}
    [TokenSource σ]
    (s : σ)
    (α : Type) : Type :=
  { r : Reply σ α // remaining r.source ≤ remaining s }

namespace Grammar

variable {σ : Type} [TokenSource σ]

/- Whether a run goes on at the cursor. -/
def goesOn
    (p : Token → Bool)
    (s : σ) : Bool :=
  !(TokenSource.current s).isEof &&
    p (TokenSource.current s)

/- A run that goes on is not at the end of the input. -/
theorem isEof_of_goesOn
    {p : Token → Bool}
    {s : σ}
    (h : goesOn p s = true) :
    (TokenSource.current s).isEof = false := by
  unfold goesOn at h
  simp only [Bool.and_eq_true, Bool.not_eq_true'] at h
  exact h.1

/- Take tokens from a source while they satisfy `p`. -/
def takeRun
    (p : Token → Bool)
    (s : σ) : Within s (List Token) :=
  if h : goesOn p s then
    let t := TokenSource.current s
    let next := TokenSource.advance s
    have hnext : remaining next < remaining s :=
      TokenSource.remaining_advance_lt s
        (isEof_of_goesOn h)
    let tail := takeRun p next
    ⟨(tail.val.map (t :: ·)).after
        (TokenSource.arrival next),
      Nat.le_trans tail.property (Nat.le_of_lt hnext)⟩
  else
    ⟨.ok [] s, Nat.le_refl _⟩
termination_by remaining s

/- Take tokens while they satisfy `p`, up to the end. -/
def tokensWhile
    (p : Token → Bool) : Parser σ (List Token) :=
  ⟨fun s => (takeRun p s).val,
    fun s => (takeRun p s).property⟩

/- Take blanks and comments, and keep their text. -/
def filler : Parser σ String := do
  let tokens ← tokensWhile Token.isFiller
  pure (Token.rawText tokens)

/- A run that goes on takes a token. -/
theorem consumes_tokensWhile
    {p : Token → Bool}
    {s : σ}
    (h : goesOn p s = true) :
    (tokensWhile p : Parser σ (List Token)).Consumes s := by
  intro value _
  simp only [tokensWhile]
  rw [takeRun]
  simp only [h]
  exact Nat.lt_of_le_of_lt
    (takeRun p (TokenSource.advance s)).property
    (TokenSource.remaining_advance_lt s
      (isEof_of_goesOn h))

/- A run that does not go on takes nothing. -/
theorem run_tokensWhile_of_not
    {p : Token → Bool}
    {s : σ}
    (h : goesOn p s = false) :
    (tokensWhile p).run s = .ok [] s := by
  simp only [tokensWhile]
  rw [takeRun]
  simp [h]

end Grammar

end LosslessCss
