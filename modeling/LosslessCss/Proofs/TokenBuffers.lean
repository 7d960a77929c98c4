import LosslessCss.Proofs.Views
import LosslessCss.Source.TokenBuffer
import Mathlib.Logic.Function.Iterate

/-
  The cursor of a buffer only ever shows its own tokens.

  Tokens that are taken leave vacant slots, and a vacant slot
  looks like an end mark.  But the slots from the cursor on
  are those of the list that the buffer was made of, and the
  cursor only moves forward, up to the first end mark.  So it
  never gets to a slot that is vacant or not there.

  Key definitions include:
    * `Token.endIndex`
    * `TokenBuffer.Intact`
    * `TokenBuffer.Step`
    * `TokenBuffer.run?`

  Key theorems include:
    * `TokenBuffer.Intact.step`
    * `TokenBuffer.Intact.run`
    * `TokenList.getElem?_withEnd`
    * `TokenBuffer.run_shows_tokens`
-/

------------------------------------------------------------
-- The First End Mark
------------------------------------------------------------

namespace LosslessCss

namespace Token

/- The index of the first end mark. -/
def endIndex (ts : List Token) : Nat :=
  ts.findIdx isEof

/- There is an end mark among tokens that end. -/
theorem endIndex_withEnd_lt
    (ts : List Token) :
    endIndex (withEnd ts) < (withEnd ts).length := by
  rw [endIndex, List.findIdx_lt_length]
  unfold withEnd
  split
  · rename_i hLast
    rcases (Option.any_eq_true _ _).mp hLast with
      ⟨t, hMem, hEof⟩
    exact ⟨t, List.mem_of_getLast? hMem, hEof⟩
  · exact ⟨_, List.mem_concat_self, isEof_endOfInput _⟩

/- Up to the first end mark, no other token is one. -/
theorem isEof_getElem?_iff
    {ts : List Token}
    {n : Nat}
    {t : Token}
    (hToken : ts[n]? = some t)
    (hFront : n ≤ endIndex ts) :
    t.isEof = true ↔ n = endIndex ts := by
  rcases List.getElem?_eq_some_iff.mp hToken with
    ⟨hLength, rfl⟩
  constructor
  · intro hEof
    by_contra hOther
    have hBefore : n < endIndex ts := by omega
    have hNot := List.not_of_lt_findIdx hBefore
    rw [hEof] at hNot
    cases hNot
  · rintro rfl
    exact List.findIdx_getElem

end Token

end LosslessCss

------------------------------------------------------------
-- Intact Buffers
------------------------------------------------------------

namespace LosslessCss

namespace TokenBuffer

/-
  The slots from the cursor on hold the tokens of a list, and
  the cursor has not passed the first end mark of the list.
-/
structure Intact
    (ts : List Token)
    (s : TokenBuffer) : Prop where
  drop_eq :
    s.slots.drop s.position = ts.drop s.position
  length_eq : s.slots.length = ts.length
  position_le : s.position ≤ Token.endIndex ts
  endIndex_lt : Token.endIndex ts < ts.length

theorem intact_ofTokens
    (ts : List Token) :
    Intact (Token.withEnd ts) (ofTokens ts) :=
  ⟨rfl, rfl, Nat.zero_le _, Token.endIndex_withEnd_lt ts⟩

variable {ts : List Token} {s : TokenBuffer}

/- The cursor shows the token at its index. -/
theorem Intact.current?_eq
    (h : Intact ts s) :
    s.current? = ts[s.position]? := by
  have hHead := congrArg List.head? h.drop_eq
  rwa [List.head?_drop, List.head?_drop] at hHead

theorem Intact.exists_current?
    (h : Intact ts s) :
    ∃ t, s.current? = some t := by
  have hLength : s.position < ts.length :=
    Nat.lt_of_le_of_lt h.position_le h.endIndex_lt
  exact
    ⟨ts[s.position],
      by rw [h.current?_eq, List.getElem?_eq_getElem]⟩

/- The end is reached with the first end mark. -/
theorem Intact.atEnd?_eq
    (h : Intact ts s) :
    s.atEnd? =
      some (decide (s.position = Token.endIndex ts)) := by
  have hFront := h.position_le
  have hLength := h.endIndex_lt
  unfold atEnd?
  rw [h.length_eq]
  split
  · have hLast : s.position = Token.endIndex ts := by
      omega
    rw [decide_eq_true hLast]
  · rcases h.exists_current? with ⟨t, hCurrent⟩
    rw [hCurrent, Option.map_some]
    rw [h.current?_eq] at hCurrent
    congr 1
    rw [Bool.eq_iff_iff, decide_eq_true_iff]
    exact Token.isEof_getElem?_iff hCurrent hFront

/-
  The cursor moves to the next slot, whatever is left in the
  slots behind it.
-/
theorem Intact.forward
    {slots : List Token}
    (h : Intact ts s)
    (hFront : s.position ≠ Token.endIndex ts)
    (hDrop :
      slots.drop (s.position + 1) =
        s.slots.drop (s.position + 1))
    (hLength : slots.length = s.slots.length) :
    Intact ts ⟨slots, s.position + 1⟩ := by
  have hTail := congrArg (List.drop 1) h.drop_eq
  rw [List.drop_drop, List.drop_drop] at hTail
  have hNext : s.position + 1 ≤ Token.endIndex ts :=
    Nat.lt_of_le_of_ne h.position_le hFront
  exact
    ⟨hDrop.trans hTail, hLength.trans h.length_eq, hNext,
      h.endIndex_lt⟩

/- Moving on goes to the next slot or stays at the end. -/
theorem Intact.advance
    (h : Intact ts s) :
    ∃ s', s.advance? = some s' ∧ Intact ts s' ∧
      s'.position =
        min (s.position + 1) (Token.endIndex ts) := by
  have hLe := h.position_le
  rw [advance?, h.atEnd?_eq, Option.bind_eq_bind,
    Option.bind_some]
  by_cases hEnd : s.position = Token.endIndex ts
  · rw [if_pos (decide_eq_true hEnd)]
    exact ⟨s, rfl, h, by omega⟩
  · rw [if_neg (by simpa using hEnd)]
    have hNext := h.forward hEnd rfl rfl
    exact ⟨_, rfl, hNext, by simp; omega⟩

/- Taking shows the token at the cursor and moves on. -/
theorem Intact.take
    (h : Intact ts s) :
    ∃ t s', s.current? = some t ∧ s.take? = some (t, s') ∧
      Intact ts s' ∧
      s'.position =
        min (s.position + 1) (Token.endIndex ts) := by
  have hLe := h.position_le
  rcases h.exists_current? with ⟨t, hCurrent⟩
  refine ⟨t, ?_⟩
  by_cases hEnd : s.position = Token.endIndex ts
  · have hTake : s.take? = some (t, s) := by
      simp [take?, hCurrent, h.atEnd?_eq, hEnd]
    exact ⟨s, hCurrent, hTake, h, by omega⟩
  · have hTake :
        s.take? =
          some
            (t,
              ⟨s.slots.set s.position Token.vacant,
                s.position + 1⟩) := by
      simp [take?, hCurrent, h.atEnd?_eq, hEnd]
    have hDrop :
        (s.slots.set s.position Token.vacant).drop
            (s.position + 1) =
          s.slots.drop (s.position + 1) :=
      List.drop_set_of_lt (Nat.lt_succ_self s.position)
    have hNext := h.forward hEnd hDrop List.length_set
    exact ⟨_, hCurrent, hTake, hNext, by simp; omega⟩

end TokenBuffer

end LosslessCss

------------------------------------------------------------
-- Runs
------------------------------------------------------------

namespace LosslessCss

namespace TokenBuffer

/- What can be done with a buffer. -/
inductive Step where
  | current
  | location
  | advance
  | take
deriving DecidableEq

/- Whether a step moves the cursor. -/
def Step.moves : Step → Bool
| .current => false
| .location => false
| .advance => true
| .take => true

/- The buffer after one step, unless the step fails. -/
def step?
    (s : TokenBuffer) : Step → Option TokenBuffer
| .current => s.current?.map fun _ => s
| .location => s.location?.map fun _ => s
| .advance => s.advance?
| .take => s.take?.map Prod.snd

/- The buffer after some steps, unless one of them fails. -/
def run?
    (s : TokenBuffer)
    (steps : List Step) : Option TokenBuffer :=
  steps.foldlM step? s

variable {ts : List Token} {s : TokenBuffer}

/- Every step works and leaves the buffer intact. -/
theorem Intact.step
    (h : Intact ts s)
    (step : Step) :
    ∃ s', s.step? step = some s' ∧ Intact ts s' ∧
      s'.position =
        min (s.position + step.moves.toNat)
          (Token.endIndex ts) := by
  have hStay :
      s.position = min s.position (Token.endIndex ts) :=
    (Nat.min_eq_left h.position_le).symm
  rcases h.exists_current? with ⟨t, hCurrent⟩
  cases step with
  | current =>
      exact ⟨s, by rw [step?, hCurrent]; rfl, h, hStay⟩
  | location =>
      exact
        ⟨s, by rw [step?, location?, hCurrent]; rfl, h,
          hStay⟩
  | advance => exact h.advance
  | take =>
      rcases h.take with ⟨u, s', _, hTake, hNext, hPlace⟩
      exact ⟨s', by rw [step?, hTake]; rfl, hNext, hPlace⟩

/- A run works, and its steps forward are counted. -/
theorem Intact.run
    (h : Intact ts s)
    (steps : List Step) :
    ∃ s', s.run? steps = some s' ∧ Intact ts s' ∧
      s'.position =
        min (s.position + steps.countP Step.moves)
          (Token.endIndex ts) := by
  induction steps generalizing s with
  | nil =>
      exact
        ⟨s, rfl, h, (Nat.min_eq_left h.position_le).symm⟩
  | cons step steps ih =>
      rcases h.step step with
        ⟨next, hStep, hNext, hFirst⟩
      rcases ih hNext with ⟨last, hRun, hLast, hRest⟩
      refine ⟨last, ?_, hLast, ?_⟩
      · rw [run?, List.foldlM_cons, hStep]
        exact hRun
      · rw [hRest, hFirst, List.countP_cons]
        cases step.moves with
        | false => simp; omega
        | true => simp; omega

end TokenBuffer

end LosslessCss

------------------------------------------------------------
-- The Tokens That Are Shown
------------------------------------------------------------

namespace LosslessCss

namespace Token

/- The end mark stands after the last token. -/
theorem withEnd_cons_cons
    (t u : Token)
    (ts : List Token) :
    withEnd (t :: u :: ts) = t :: withEnd (u :: ts) := by
  unfold withEnd
  rw [List.getLast?_cons_cons]
  split
  · rfl
  · rfl

theorem withEnd_of_not_isEof
    {t : Token}
    (hEof : t.isEof = false) :
    withEnd [t] = [t, endOfInput t.endLocation] := by
  simp [withEnd, hEof]

/- The first token stays the first one. -/
theorem exists_withEnd_cons
    (t : Token)
    (ts : List Token) :
    ∃ rest, withEnd (t :: ts) = t :: rest := by
  unfold withEnd
  split
  · exact ⟨ts, rfl⟩
  · exact ⟨_, rfl⟩

end Token

namespace TokenList

/- One move forward leaves out the first token. -/
theorem exists_advance
    {t : Token}
    (hEof : t.isEof = false)
    (ts : List Token) :
    ∃ u us, advance ⟨t, ts⟩ = ⟨u, us⟩ ∧
      Token.withEnd (t :: ts) =
        t :: Token.withEnd (u :: us) := by
  cases ts with
  | nil =>
      exact
        ⟨_, [], advance_last hEof,
          Token.withEnd_of_not_isEof hEof⟩
  | cons u us =>
      exact
        ⟨u, us, advance_cons hEof us,
          Token.withEnd_cons_cons t u us⟩

/- Moving on shows one token after the other. -/
theorem getElem?_withEnd_cons
    (n : Nat)
    (t : Token)
    (ts : List Token) :
    (Token.withEnd (t :: ts))[
        min n (Token.endIndex (Token.withEnd (t :: ts)))]? =
      some (advance^[n] ⟨t, ts⟩).current := by
  induction n generalizing t ts with
  | zero =>
      rcases Token.exists_withEnd_cons t ts with
        ⟨rest, hCons⟩
      rw [hCons, Nat.zero_min]
      rfl
  | succ n ih =>
      rw [Function.iterate_succ_apply]
      cases hEof : t.isEof with
      | true =>
          rcases Token.exists_withEnd_cons t ts with
            ⟨rest, hCons⟩
          have hStay : advance ⟨t, ts⟩ = ⟨t, ts⟩ := by
            simp [advance, hEof]
          have hIndex : Token.endIndex (t :: rest) = 0 := by
            simp [Token.endIndex, List.findIdx_cons, hEof]
          rw [hStay, ← ih t ts, hCons, hIndex,
            Nat.min_zero, Nat.min_zero]
      | false =>
          rcases exists_advance hEof ts with
            ⟨u, us, hNext, hTail⟩
          have hIndex :
              Token.endIndex
                  (t :: Token.withEnd (u :: us)) =
                Token.endIndex (Token.withEnd (u :: us)) +
                  1 := by
            simp [Token.endIndex, List.findIdx_cons, hEof]
          rw [hNext, ← ih u us, hTail, hIndex,
            Nat.succ_min_succ, List.getElem?_cons_succ]

theorem getElem?_withEnd
    (n : Nat)
    (ts : List Token) :
    (Token.withEnd ts)[
        min n (Token.endIndex (Token.withEnd ts))]? =
      some (advance^[n] (ofTokens ts)).current := by
  cases ts with
  | nil =>
      exact
        getElem?_withEnd_cons n
          (Token.endOfInput Location.start) []
  | cons t ts => exact getElem?_withEnd_cons n t ts

end TokenList

namespace TokenBuffer

/-
  Whatever is done with a buffer, the cursor shows the token
  to which the steps forward lead, but never one after the
  first end mark.  It is the token that is shown by a cursor
  over the list, and the one that is taken.
-/
theorem run_shows_tokens
    (ts : List Token)
    (steps : List Step) :
    ∃ s t s',
      (ofTokens ts).run? steps = some s ∧
      s.current? = some t ∧
      (Token.withEnd ts)[
          min (steps.countP Step.moves)
            (Token.endIndex (Token.withEnd ts))]? =
        some t ∧
      t = (TokenList.advance^[steps.countP Step.moves]
        (TokenList.ofTokens ts)).current ∧
      s.take? = some (t, s') := by
  rcases (intact_ofTokens ts).run steps with
    ⟨s, hRun, hIntact, hPlace⟩
  rcases hIntact.take with ⟨t, s', hCurrent, hTake, _⟩
  rw [ofTokens, Nat.zero_add] at hPlace
  have hShown := hIntact.current?_eq
  rw [hCurrent, hPlace] at hShown
  have hList :=
    TokenList.getElem?_withEnd (steps.countP Step.moves) ts
  rw [← hShown, Option.some.injEq] at hList
  exact ⟨s, t, s', hRun, hCurrent, hShown.symm, hList, hTake⟩

end TokenBuffer

end LosslessCss
