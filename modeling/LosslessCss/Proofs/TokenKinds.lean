import LosslessCss.Grammar.Document

/-
  What the tests of tokens say about their kinds.

  Key theorems include:
    * `Grammar.isEof_of_test`
    * `Grammar.isAtKeyword_iff_kind`
    * `Grammar.isRightCurly_iff_kind`
-/

------------------------------------------------------------
-- Kinds
------------------------------------------------------------

namespace LosslessCss

namespace Grammar

theorem isEof_iff_kind
    {t : Token} :
    t.isEof = true ↔ t.kind = .eof := by
  unfold Token.isEof
  split <;> simp_all

theorem isComment_iff_kind
    {t : Token} :
    t.isComment = true ↔ ∃ text, t.kind = .comment text := by
  unfold Token.isComment
  split <;> simp_all

theorem isIdent_iff_kind
    {t : Token} :
    t.isIdent = true ↔ ∃ name, t.kind = .ident name := by
  unfold Token.isIdent
  split <;> simp_all

theorem isAtKeyword_iff_kind
    {t : Token} :
    isAtKeyword t = true ↔
      ∃ name, t.kind = .atKeyword name := by
  unfold isAtKeyword
  split <;> simp_all

theorem isLeftCurly_iff_kind
    {t : Token} :
    isLeftCurly t = true ↔ t.kind = .leftCurly := by
  unfold isLeftCurly
  split <;> simp_all

theorem isRightCurly_iff_kind
    {t : Token} :
    isRightCurly t = true ↔ t.kind = .rightCurly := by
  unfold isRightCurly
  split <;> simp_all

end Grammar

end LosslessCss

------------------------------------------------------------
-- Tests That Exclude Each Other
------------------------------------------------------------

namespace LosslessCss

namespace Grammar

/- What passes a test that no end mark passes is no end. -/
theorem isEof_of_test
    {p : Token → Bool}
    {t : Token}
    (hTest : p t = true)
    (hEnd : ∀ raw here, p ⟨.eof, raw, here⟩ = false) :
    t.isEof = false := by
  by_cases hEof : t.isEof = true
  · rw [isEof_iff_kind] at hEof
    rcases t with ⟨kind, raw, here⟩
    subst hEof
    rw [hEnd] at hTest
    cases hTest
  · simpa using hEof

theorem isEof_of_closes
    {t : Token}
    {closer : Closer}
    (h : closer.closes t = true) :
    t.isEof = false := by
  apply isEof_of_test h
  intro raw here
  cases closer with
  | paren => rfl
  | bracket => rfl

/- No token both opens and closes a span. -/
theorem closes_of_opens?
    {t : Token}
    {opener : Opener}
    (h : opens? t = some opener)
    (closer : Closer) :
    closer.closes t = false := by
  unfold opens? at h
  unfold Closer.closes
  split at h <;> simp_all

theorem isFiller_of_closes
    {t : Token}
    {closer : Closer}
    (h : closer.closes t = true) :
    t.isFiller = false := by
  unfold Closer.closes at h
  unfold Token.isFiller Token.isWhitespace Token.isComment
  split at h <;> simp_all

theorem kind_ne_comma_of_opens?
    {t : Token}
    {opener : Opener}
    (h : opens? t = some opener) :
    t.kind ≠ .comma := by
  unfold opens? at h
  split at h <;> simp_all

theorem isFiller_of_isIdent
    {t : Token}
    (h : t.isIdent = true) :
    t.isFiller = false := by
  unfold Token.isIdent at h
  unfold Token.isFiller Token.isWhitespace Token.isComment
  split at h <;> simp_all

theorem isFiller_of_isDoubleQuoted
    {t : Token}
    (h : isDoubleQuoted t = true) :
    t.isFiller = false := by
  unfold isDoubleQuoted at h
  unfold Token.isFiller Token.isWhitespace Token.isComment
  split at h <;> simp_all

theorem opensFunction?_of_isUrlFunction
    {t : Token}
    (h : isUrlFunction t = true) :
    opensFunction? t = some ⟨.functionSpan, .paren⟩ := by
  unfold isUrlFunction at h
  unfold opensFunction?
  split at h <;> simp_all

theorem isPlainAddress_of_isUrlFunction
    {t : Token}
    (h : isUrlFunction t = true) :
    isPlainAddress t = false := by
  unfold isUrlFunction at h
  unfold isPlainAddress
  split at h <;> simp_all

theorem isRightCurly_of_isSeparator
    {t : Token}
    (h : isSeparator t = true) :
    isRightCurly t = false := by
  unfold isSeparator at h
  unfold isRightCurly
  split at h <;> simp_all

end Grammar

end LosslessCss
