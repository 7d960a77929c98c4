import LosslessCss.Parse
import LosslessCss.Proofs.Agreement

/-
  Errors in front of the end of the input are final.

  A parse depends on the tokens up to its cursor and on no
  other ones, also where an isolated run of tokens is parsed
  on the way.  So a parse that stops in front of the end has
  the same outcome whatever tokens are added at the end.

  Key theorems include:
    * `TokenList.follows_append`
    * `Grammar.document_of_follows`
    * `Parse.tokens_error_final`
-/

------------------------------------------------------------
-- Lists with More Tokens
------------------------------------------------------------

namespace LosslessCss

/- Tokens without an end mark are shown before any others. -/
theorem Token.untilEof_append
    {ts : List Token}
    (hEof : ∀ t ∈ ts, t.isEof = false)
    (more : List Token) :
    untilEof (ts ++ more) = ts ++ untilEof more := by
  unfold untilEof
  apply List.takeWhile_append_of_pos
  intro t hMem
  simp [hEof t hMem]

/- A list is followed by the list with more at its end. -/
theorem TokenList.follows_append
    {list : List Token}
    (hEof : ∀ t ∈ list, t.isEof = false)
    (more : List Token) :
    TokenSource.Follows true id (ofTokens list)
      (ofTokens (list ++ more)) where
  shown := by
    rw [upcoming_ofTokens, upcoming_ofTokens,
      Token.untilEof_eq_self hEof, Token.map_moved_id,
      Token.untilEof_append hEof]
    exact ⟨Token.untilEof more, rfl, by simp⟩
  ended := by simp
  carried := fun _ _ => rfl

end LosslessCss

------------------------------------------------------------
-- Parses That Stop Before the End
------------------------------------------------------------

namespace LosslessCss

namespace Grammar

variable {σ τ : Type} [TokenSource σ] [TokenSource τ]
variable {s : σ} {t : τ}

/-
  A parse that stops in front of the end of its source does
  the same on a source that may have more to show.
-/
theorem document_of_follows
    (context : Context)
    (hFollows : TokenSource.Follows true id s t)
    (hInside :
      (TokenSource.current
        ((document .full context).run s).source).isEof =
          false) :
    ((document .full context).run t).outcome =
        ((document .full context).run s).outcome ∧
      TokenSource.current
          ((document .full context).run t).source =
        TokenSource.current
          ((document .full context).run s).source := by
  rcases (follows_document context hFollows).2 with
    ⟨_, hEnd⟩ | ⟨hOutcome, hSource⟩
  · rw [hInside] at hEnd
    cases hEnd
  · rw [Parser.movedOutcome_id] at hOutcome
    exact ⟨hOutcome, hSource.current_of_not_isEof hInside⟩

end Grammar

namespace Parse

/-
  A parse of tokens fails, and its cursor is left in front of
  the end.  Then it fails with the same error at the same
  token, whatever tokens come after these.
-/
theorem tokens_error_final
    {list : List Token}
    {settings : Settings}
    {e : SyntaxError}
    (hEof : ∀ t ∈ list, t.isEof = false)
    (hError : tokens list settings = .error e)
    (hInside :
      (TokenSource.current
        (readTokens list settings).source).isEof = false)
    (more : List Token) :
    tokens (list ++ more) settings = .error e ∧
      TokenSource.current
          (readTokens (list ++ more) settings).source =
        TokenSource.current
          (readTokens list settings).source := by
  have hFollows := TokenList.follows_append hEof more
  rcases Grammar.document_of_follows settings.context
      hFollows hInside with
    ⟨hOutcome, hCursor⟩
  exact ⟨hOutcome.trans hError, hCursor⟩

/-
  The error is found at the end of an isolated run, in front
  of a brace.  The colon that was expected comes too late,
  after an end mark.
-/
theorem tokens_error_final_isolated :
    ∃ list more : List Token,
      (∀ t ∈ list, t.isEof = false) ∧
      tokens list Settings.default =
        .error
          ⟨.invalidDeclaration, "expected a colon",
            ⟨1, 6, 5⟩⟩ ∧
      (TokenSource.current
        (readTokens list Settings.default).source).kind =
        .rightCurly ∧
      tokens (list ++ more) Settings.default =
        .error
          ⟨.invalidDeclaration, "expected a colon",
            ⟨1, 6, 5⟩⟩ := by
  let list :=
    (Lexer.tokenize "p\x7bq r\x7d" Location.start).dropLast
  let more := Lexer.tokenize "" Location.start ++
    Lexer.tokenize ":s\x7d" Location.start
  have hEof : ∀ t ∈ list, t.isEof = false := by
    decide +kernel
  have hError :
      tokens list Settings.default =
        .error
          ⟨.invalidDeclaration, "expected a colon",
            ⟨1, 6, 5⟩⟩ := by
    decide +kernel
  have hBrace :
      (TokenSource.current
        (readTokens list Settings.default).source).kind =
        .rightCurly := by
    decide +kernel
  have hInside :
      (TokenSource.current
        (readTokens list Settings.default).source).isEof =
        false := by
    simp [Token.isEof, hBrace]
  exact
    ⟨list, more, hEof, hError, hBrace,
      (tokens_error_final hEof hError hInside more).1⟩

end Parse

end LosslessCss
