import LosslessCss.Proofs.Passing
import LosslessCss.Source.TokenList
import LosslessCss.Source.TokenSlice
import Mathlib.Data.List.TakeWhile

/-
  What the sources over lists of tokens show.

  A list and a slice show the tokens in front of the first
  end mark.  Where there is no end mark, both make one after
  the last token.

  Key definitions include:
    * `Token.untilEof`
    * `Token.eofAfter`

  Key theorems include:
    * `TokenSlice.upcoming_ofTokens`
    * `TokenSlice.ending_ofTokens`
    * `TokenList.upcoming_ofTokens`
    * `TokenList.ending_ofTokens`
-/

------------------------------------------------------------
-- Tokens Up to the End
------------------------------------------------------------

namespace LosslessCss

namespace Token

/- The tokens in front of the first end mark. -/
def untilEof (ts : List Token) : List Token :=
  ts.takeWhile fun t => !t.isEof

/-
  The first end mark, or the one that is made when there is
  none.  It stands after the last token, or at the given
  place when there is no token at all.
-/
def eofAfter
    (fallback : Location) : List Token → Token
| [] => endOfInput fallback
| t :: ts =>
    if t.isEof then t else eofAfter t.endLocation ts

/- Without an end mark all tokens come before it. -/
theorem untilEof_eq_self
    {ts : List Token}
    (h : ∀ t ∈ ts, t.isEof = false) :
    untilEof ts = ts := by
  unfold untilEof
  rw [List.takeWhile_eq_self_iff]
  intro t hMem
  simp [h t hMem]

/- Tokens in front of an end mark. -/
theorem untilEof_append_cons
    {ts rest : List Token}
    {e : Token}
    (h : ∀ t ∈ ts, t.isEof = false)
    (hEof : e.isEof = true) :
    untilEof (ts ++ e :: rest) = ts := by
  induction ts with
  | nil => simp [untilEof, hEof]
  | cons t ts ih =>
      have hHead := h t (by simp)
      have hTail := ih fun u hMem => h u (by simp [hMem])
      simp only [untilEof] at hTail
      simp [untilEof, hHead, hTail]

theorem eofAfter_append_cons
    {ts rest : List Token}
    {e : Token}
    (fallback : Location)
    (h : ∀ t ∈ ts, t.isEof = false)
    (hEof : e.isEof = true) :
    eofAfter fallback (ts ++ e :: rest) = e := by
  induction ts generalizing fallback with
  | nil => simp [eofAfter, hEof]
  | cons t ts ih =>
      have hHead := h t (by simp)
      have hTail :=
        ih t.endLocation fun u hMem => h u (by simp [hMem])
      simp [eofAfter, hHead, hTail]

/- The tokens up to and with the first end mark. -/
def throughEof : List Token → List Token
| [] => []
| t :: ts => if t.isEof then [t] else t :: throughEof ts

/- What is cut off after an end mark is never shown. -/
theorem untilEof_throughEof
    (ts : List Token) :
    untilEof (throughEof ts) = untilEof ts := by
  induction ts with
  | nil => rfl
  | cons t ts ih =>
      simp only [untilEof] at ih
      cases hEof : t.isEof with
      | true => simp [throughEof, untilEof, hEof]
      | false => simp [throughEof, untilEof, hEof, ih]

theorem eofAfter_throughEof
    (fallback : Location)
    (ts : List Token) :
    eofAfter fallback (throughEof ts) =
      eofAfter fallback ts := by
  induction ts generalizing fallback with
  | nil => rfl
  | cons t ts ih =>
      cases hEof : t.isEof with
      | true => simp [throughEof, eofAfter, hEof]
      | false => simp [throughEof, eofAfter, hEof, ih]

end Token

end LosslessCss

------------------------------------------------------------
-- Slices
------------------------------------------------------------

namespace LosslessCss

namespace TokenSlice

/- Moving over a token leaves the slice after it. -/
theorem advance_ofTokens_cons
    (t : Token)
    (ts : List Token)
    (fallback : Location) :
    TokenSource.advance (ofTokens (t :: ts) fallback) =
      ofTokens ts t.endLocation := by
  change TokenSlice.mk ts _ = TokenSlice.mk ts _
  congr 1
  cases ts with
  | nil => rfl
  | cons u ts => simp [ofTokens, List.getLast?_cons]

/- A slice shows its tokens in front of the first end mark. -/
theorem upcoming_ofTokens
    (ts : List Token)
    (fallback : Location) :
    TokenSource.upcoming (ofTokens ts fallback) =
      Token.untilEof ts := by
  induction ts generalizing fallback with
  | nil => exact TokenSource.upcoming_of_isEof rfl
  | cons t ts ih =>
      cases hEof : t.isEof with
      | true =>
          rw [TokenSource.upcoming_of_isEof hEof]
          simp [Token.untilEof, hEof]
      | false =>
          rw [TokenSource.upcoming_of_not_isEof hEof,
            advance_ofTokens_cons, ih]
          simp only [Token.untilEof, List.takeWhile_cons,
            hEof]
          rfl

/- A slice ends with an end mark of its own or a new one. -/
theorem ending_ofTokens
    (ts : List Token)
    (fallback : Location) :
    TokenSource.ending (ofTokens ts fallback) =
      Token.eofAfter fallback ts := by
  induction ts generalizing fallback with
  | nil => exact TokenSource.ending_of_isEof rfl
  | cons t ts ih =>
      cases hEof : t.isEof with
      | true =>
          rw [TokenSource.ending_of_isEof hEof]
          simp only [Token.eofAfter, hEof]
          rfl
      | false =>
          rw [TokenSource.ending_of_not_isEof hEof,
            advance_ofTokens_cons, ih]
          simp [Token.eofAfter, hEof]

end TokenSlice

end LosslessCss

------------------------------------------------------------
-- Lists
------------------------------------------------------------

namespace LosslessCss

namespace TokenList

/- Moving over the last token makes an end mark. -/
theorem advance_last
    {t : Token}
    (hEof : t.isEof = false) :
    TokenSource.advance (TokenList.mk t []) =
      TokenList.mk (Token.endOfInput t.endLocation) [] := by
  change advance _ = _
  simp [advance, hEof]

/- Moving over another token shows the one after it. -/
theorem advance_cons
    {t u : Token}
    (hEof : t.isEof = false)
    (ts : List Token) :
    TokenSource.advance (TokenList.mk t (u :: ts)) =
      TokenList.mk u ts := by
  change advance _ = _
  simp [advance, hEof]

/- A list shows its tokens in front of the first end mark. -/
theorem upcoming_mk
    (t : Token)
    (ts : List Token) :
    TokenSource.upcoming (TokenList.mk t ts) =
      Token.untilEof (t :: ts) := by
  cases hEof : t.isEof with
  | true =>
      rw [TokenSource.upcoming_of_isEof hEof]
      simp [Token.untilEof, hEof]
  | false =>
      rw [TokenSource.upcoming_of_not_isEof hEof]
      cases ts with
      | nil =>
          rw [advance_last hEof,
            TokenSource.upcoming_of_isEof rfl]
          simp only [Token.untilEof, List.takeWhile_cons,
            hEof]
          rfl
      | cons u ts =>
          rw [advance_cons hEof, upcoming_mk u ts]
          simp only [Token.untilEof,
            List.takeWhile_cons (a := t), hEof]
          rfl

/- A list ends with an end mark of its own or a new one. -/
theorem ending_mk
    (t : Token)
    (ts : List Token) :
    TokenSource.ending (TokenList.mk t ts) =
      Token.eofAfter Location.start (t :: ts) := by
  cases hEof : t.isEof with
  | true =>
      rw [TokenSource.ending_of_isEof hEof]
      simp only [Token.eofAfter, hEof]
      rfl
  | false =>
      rw [TokenSource.ending_of_not_isEof hEof]
      cases ts with
      | nil =>
          rw [advance_last hEof,
            TokenSource.ending_of_isEof rfl]
          simp only [Token.eofAfter, hEof]
          rfl
      | cons u ts =>
          rw [advance_cons hEof, ending_mk u ts]
          simp [Token.eofAfter, hEof]

theorem upcoming_ofTokens
    (ts : List Token) :
    TokenSource.upcoming (ofTokens ts) =
      Token.untilEof ts := by
  cases ts with
  | nil => exact TokenSource.upcoming_of_isEof rfl
  | cons t ts => exact upcoming_mk t ts

theorem ending_ofTokens
    (ts : List Token) :
    TokenSource.ending (ofTokens ts) =
      Token.eofAfter Location.start ts := by
  cases ts with
  | nil => exact TokenSource.ending_of_isEof rfl
  | cons t ts => exact ending_mk t ts

end TokenList

end LosslessCss
