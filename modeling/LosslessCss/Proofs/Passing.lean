import LosslessCss.Source.Basic

/-
  What a token source still has to show.

  A source may look different inside from another one, but a
  parser only sees the tokens up to the first end mark.  This
  file describes a source by these tokens, and its moves by
  the tokens that they pass.

  Key definitions include:
    * `TokenSource.Passes`
    * `TokenSource.upcoming`
    * `TokenSource.ending`
    * `Token.Stops`

  Key theorems include:
    * `TokenSource.Passes.upcoming_eq`
    * `TokenSource.exists_passes`
-/

------------------------------------------------------------
-- Runs of Tokens
------------------------------------------------------------

namespace LosslessCss

namespace Token

/- The text of two runs is the text of one after the other. -/
@[simp] theorem rawText_append
    (ts us : List Token) :
    rawText (ts ++ us) = rawText ts ++ rawText us := by
  induction ts with
  | nil => simp [rawText]
  | cons t ts ih =>
      simp [rawText, ih, String.append_assoc]

/- No token that satisfies `p` comes first. -/
def Stops
    (p : Token → Bool)
    (ts : List Token) : Prop :=
  ∀ t ∈ ts.head?, p t = false

@[simp] theorem stops_nil
    {p : Token → Bool} :
    Stops p [] := by
  simp [Stops]

@[simp] theorem stops_cons
    {p : Token → Bool}
    {t : Token}
    {ts : List Token} :
    Stops p (t :: ts) ↔ p t = false := by
  simp [Stops]

end Token

end LosslessCss

------------------------------------------------------------
-- Passing Tokens
------------------------------------------------------------

namespace LosslessCss

namespace TokenSource

variable {σ : Type} [TokenSource σ]

/-
  Induction on what is left: a property holds everywhere if
  it passes to a place from all places that have less left.
-/
theorem remaining_induction
    {motive : σ → Prop}
    (step :
      ∀ s, (∀ s', remaining s' < remaining s → motive s') →
        motive s)
    (s : σ) :
    motive s :=
  (measure remaining).wf.induction s step

/-
  Moving over the given tokens leads from the first place to
  the second one.  No end mark is passed.
-/
def Passes : σ → List Token → σ → Prop
| s, [], s' => s = s'
| s, t :: ts, s' =>
    current s = t ∧ t.isEof = false ∧
      Passes (advance s) ts s'

@[simp] theorem passes_nil
    {s s' : σ} :
    Passes s [] s' ↔ s = s' :=
  Iff.rfl

@[simp] theorem passes_cons
    {s s' : σ}
    {t : Token}
    {ts : List Token} :
    Passes s (t :: ts) s' ↔
      current s = t ∧ t.isEof = false ∧
        Passes (advance s) ts s' :=
  Iff.rfl

/- The token at the cursor is passed first. -/
theorem Passes.cons
    {s s' : σ}
    {ts : List Token}
    (hEof : (current s).isEof = false)
    (hTail : Passes (advance s) ts s') :
    Passes s (current s :: ts) s' :=
  ⟨rfl, hEof, hTail⟩

theorem Passes.single
    {s : σ}
    (hEof : (current s).isEof = false) :
    Passes s [current s] (advance s) :=
  ⟨rfl, hEof, rfl⟩

/- The first token that is passed is the one at the cursor. -/
theorem Passes.current_eq
    {s s' : σ}
    {t : Token}
    {ts : List Token}
    (hPasses : Passes s ts s')
    (hHead : ts.head? = some t) :
    current s = t := by
  cases ts with
  | nil => cases hHead
  | cons u ts =>
      cases hHead
      exact hPasses.1

/- A run starts as the token at the cursor allows. -/
theorem Passes.stops
    {p : Token → Bool}
    {s s' : σ}
    {ts us : List Token}
    (hPasses : Passes s (ts ++ us) s')
    (hCurrent : p (current s) = false) :
    Token.Stops p ts := by
  intro t hMem
  have hHead : (ts ++ us).head? = some t := by
    rw [List.head?_append, hMem]
    rfl
  rw [← hPasses.current_eq hHead]
  exact hCurrent

/- Two runs are passed one after the other. -/
theorem passes_append
    {s s' : σ}
    {ts us : List Token} :
    Passes s (ts ++ us) s' ↔
      ∃ m, Passes s ts m ∧ Passes m us s' := by
  induction ts generalizing s with
  | nil => simp
  | cons t ts ih =>
      simp only [List.cons_append, passes_cons, ih]
      constructor
      · intro h
        rcases h with ⟨hCurrent, hEof, m, hFirst, hSecond⟩
        exact ⟨m, ⟨hCurrent, hEof, hFirst⟩, hSecond⟩
      · intro h
        rcases h with ⟨m, ⟨hCurrent, hEof, hFirst⟩, hSecond⟩
        exact ⟨hCurrent, hEof, m, hFirst, hSecond⟩

theorem Passes.append
    {s m s' : σ}
    {ts us : List Token}
    (hFirst : Passes s ts m)
    (hSecond : Passes m us s') :
    Passes s (ts ++ us) s' :=
  passes_append.mpr ⟨m, hFirst, hSecond⟩

/- No token that is passed marks the end. -/
theorem Passes.isEof_of_mem
    {s s' : σ}
    {ts : List Token}
    (hPasses : Passes s ts s')
    {t : Token}
    (hMem : t ∈ ts) :
    t.isEof = false := by
  induction ts generalizing s with
  | nil => cases hMem
  | cons u ts ih =>
      rcases List.mem_cons.mp hMem with hHead | hTail
      · rw [hHead]
        exact hPasses.2.1
      · exact ih hPasses.2.2 hTail

/- Passing tokens never leaves more. -/
theorem Passes.remaining_le
    {s s' : σ}
    {ts : List Token}
    (hPasses : Passes s ts s') :
    remaining s' ≤ remaining s := by
  induction ts generalizing s with
  | nil => exact Nat.le_of_eq (by rw [passes_nil.mp hPasses])
  | cons t ts ih =>
      exact Nat.le_trans (ih hPasses.2.2)
        (remaining_advance_le s)

end TokenSource

end LosslessCss

------------------------------------------------------------
-- Upcoming Tokens
------------------------------------------------------------

namespace LosslessCss

namespace TokenSource

variable {σ : Type} [TokenSource σ]

/- The tokens from the cursor to the first end mark. -/
def upcoming (s : σ) : List Token :=
  if (current s).isEof then
    []
  else
    current s :: upcoming (advance s)
termination_by remaining s
decreasing_by
  rename_i h
  exact remaining_advance_lt s (by simpa using h)

/- The first end mark from the cursor on. -/
def ending (s : σ) : Token :=
  if (current s).isEof then
    current s
  else
    ending (advance s)
termination_by remaining s
decreasing_by
  rename_i h
  exact remaining_advance_lt s (by simpa using h)

theorem upcoming_of_isEof
    {s : σ}
    (h : (current s).isEof = true) :
    upcoming s = [] := by
  rw [upcoming]
  simp [h]

theorem upcoming_of_not_isEof
    {s : σ}
    (h : (current s).isEof = false) :
    upcoming s = current s :: upcoming (advance s) := by
  rw [upcoming]
  simp [h]

theorem ending_of_isEof
    {s : σ}
    (h : (current s).isEof = true) :
    ending s = current s := by
  rw [ending]
  simp [h]

theorem ending_of_not_isEof
    {s : σ}
    (h : (current s).isEof = false) :
    ending s = ending (advance s) := by
  rw [ending]
  simp [h]

/- The cursor is at the end when no token is upcoming. -/
theorem upcoming_eq_nil_iff
    {s : σ} :
    upcoming s = [] ↔ (current s).isEof = true := by
  cases h : (current s).isEof with
  | true => simp [upcoming_of_isEof h]
  | false => simp [upcoming_of_not_isEof h]

/- The first upcoming token is the one at the cursor. -/
theorem head?_upcoming
    (s : σ) :
    (upcoming s).head? =
      if (current s).isEof then none
      else some (current s) := by
  cases h : (current s).isEof with
  | true => simp [upcoming_of_isEof h]
  | false => simp [upcoming_of_not_isEof h]

/- What is passed is the first part of what is upcoming. -/
theorem Passes.upcoming_eq
    {s s' : σ}
    {ts : List Token}
    (hPasses : Passes s ts s') :
    upcoming s = ts ++ upcoming s' := by
  induction ts generalizing s with
  | nil =>
      rw [passes_nil.mp hPasses]
      rfl
  | cons t ts ih =>
      rcases hPasses with ⟨hCurrent, hEof, hTail⟩
      subst hCurrent
      rw [upcoming_of_not_isEof hEof, ih hTail]
      rfl

/- Every first part of what is upcoming can be passed. -/
theorem exists_passes
    {s : σ}
    {ts rest : List Token}
    (hUpcoming : upcoming s = ts ++ rest) :
    ∃ s', Passes s ts s' ∧ upcoming s' = rest := by
  induction ts generalizing s with
  | nil => exact ⟨s, rfl, hUpcoming⟩
  | cons t ts ih =>
      cases hEof : (current s).isEof with
      | true =>
          rw [upcoming_of_isEof hEof] at hUpcoming
          cases hUpcoming
      | false =>
          rw [upcoming_of_not_isEof hEof] at hUpcoming
          rcases List.cons.inj hUpcoming with
            ⟨hCurrent, hTail⟩
          rcases ih hTail with ⟨s', hPasses, hRest⟩
          subst hCurrent
          exact ⟨s', ⟨rfl, hEof, hPasses⟩, hRest⟩

/- All upcoming tokens together lead to the end. -/
theorem exists_passes_upcoming
    (s : σ) :
    ∃ s', Passes s (upcoming s) s' ∧ upcoming s' = [] :=
  exists_passes (List.append_nil _).symm

theorem isEof_of_mem_upcoming
    {s : σ}
    {t : Token}
    (hMem : t ∈ upcoming s) :
    t.isEof = false := by
  rcases exists_passes_upcoming s with ⟨s', hPasses, _⟩
  exact hPasses.isEof_of_mem hMem

end TokenSource

end LosslessCss
