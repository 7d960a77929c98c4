import LosslessCss.Proofs.FormText
import LosslessCss.Source.PulledText

/-
  The tokens that a lexer reads from a text.

  They follow each other without gaps, and together they are
  the text.  The kind of a token fixes its spelling where a
  tree does not keep it.

  Key definitions include:
    * `TokenKind.spelling?`
    * `TokenKind.isPunctuation`
    * `Token.Located`

  Key theorems include:
    * `Scan.isPunctuation_token_cases`
    * `Scan.raw_token_of_spelling`
    * `Lexer.isEof_token_iff`
    * `Lexer.tokens_eq`
    * `Lexer.rawText_upcoming`
    * `Lexer.located_upcoming`
-/

------------------------------------------------------------
-- Kinds with One Spelling
------------------------------------------------------------

namespace LosslessCss

namespace TokenKind

/- The only spelling that the lexer has for a kind. -/
def spelling? : TokenKind → Option (List Char)
| .leftCurly => some ['{']
| .rightCurly => some ['}']
| .colon => some [':']
| .eof => some []
| _ => none

/-
  Marks of one character, comments and the end mark.  No
  scanner of names, numbers, quotations or addresses makes
  them.
-/
def isPunctuation : TokenKind → Bool
| .leftCurly | .rightCurly => true
| .leftParen | .rightParen => true
| .leftBracket | .rightBracket => true
| .comma | .colon | .semicolon => true
| .comment _ | .eof => true
| _ => false

theorem isPunctuation_of_spelling
    {kind : TokenKind}
    {cs : List Char}
    (hSpelling : kind.spelling? = some cs) :
    kind.isPunctuation = true := by
  unfold spelling? at hSpelling
  split at hSpelling
  · rfl
  · rfl
  · rfl
  · rfl
  · cases hSpelling

end TokenKind

theorem Url.isPunctuation_scan
    (input : List Char) :
    (Url.scan input).value.isPunctuation = false := by
  simp only [Url.scan, Lexeme.extend, Lexeme.map,
    Url.Body.kind]
  split
  · rfl
  · rfl

theorem Quotation.isPunctuation_scan
    (quote : Char)
    (input : List Char) :
    (Quotation.scan quote input).value.isPunctuation =
      false := by
  simp only [Quotation.scan, Lexeme.extend, Lexeme.map,
    Quotation.Body.kind]
  split
  · rfl
  · rfl

theorem Numeral.isPunctuation_scan
    (input : List Char) :
    (Numeral.scan input).value.isPunctuation = false := by
  unfold Numeral.scan
  simp only
  split
  · rfl
  · split
    · rfl
    · rfl

namespace Scan

theorem isPunctuation_identLike
    (input : List Char) :
    (identLike input).value.isPunctuation = false := by
  unfold identLike
  simp only
  split
  · split
    · exact Url.isPunctuation_scan _
    · rfl
  · rfl

theorem isPunctuation_hash
    (cs : List Char) :
    (hash cs).value.isPunctuation = false := by
  unfold hash
  split
  · rfl
  · rfl

theorem isPunctuation_atSign
    (cs : List Char) :
    (atSign cs).value.isPunctuation = false := by
  unfold atSign
  split
  · rfl
  · rfl

theorem isPunctuation_minus
    (cs : List Char) :
    (minus cs).value.isPunctuation = false := by
  unfold minus
  split
  · exact Numeral.isPunctuation_scan _
  · split
    · rfl
    · split
      · exact isPunctuation_identLike _
      · rfl

theorem isPunctuation_lessThan
    (cs : List Char) :
    (lessThan cs).value.isPunctuation = false := by
  unfold lessThan
  split
  · rfl
  · rfl

/- A token that its first character decides. -/
theorem mark?_of_isPunctuation_plain
    {c : Char}
    {cs : List Char}
    (hKind : (plain c cs).value.isPunctuation = true) :
    ∃ kind, mark? c = some kind := by
  unfold plain at hKind
  split at hKind
  · simp [isPunctuation_hash] at hKind
  split at hKind
  · simp [isPunctuation_atSign] at hKind
  split at hKind
  · simp [isPunctuation_minus] at hKind
  split at hKind
  · simp [isPunctuation_lessThan] at hKind
  split at hKind
  · simp [Numeral.isPunctuation_scan] at hKind
  split at hKind
  · simp [isPunctuation_identLike] at hKind
  split at hKind
  · rename_i kind hMark
    exact ⟨kind, hMark⟩
  · simp [single, TokenKind.isPunctuation] at hKind

/- Where punctuation is read. -/
theorem isPunctuation_token_cases
    {input : List Char}
    (hKind : (token input).value.isPunctuation = true) :
    input = [] ∨ startsComment input = true ∨
      ∃ c cs kind,
        input = c :: cs ∧ mark? c = some kind := by
  cases input with
  | nil => exact .inl rfl
  | cons c cs =>
      rw [token] at hKind
      split at hKind
      · rename_i hComment
        exact .inr (.inl hComment)
      split at hKind
      · simp [TokenKind.isPunctuation] at hKind
      split at hKind
      · simp [Quotation.isPunctuation_scan] at hKind
      · rcases mark?_of_isPunctuation_plain hKind with
          ⟨kind, hMark⟩
        exact .inr (.inr ⟨c, cs, kind, rfl, hMark⟩)

/- A mark is a token, whatever follows it. -/
theorem token_of_mark
    {c : Char}
    {kind : TokenKind}
    (hMark : mark? c = some kind)
    (cs : List Char) :
    token (c :: cs) = single kind c cs := by
  unfold mark? at hMark
  split at hMark <;> cases hMark <;> rfl

theorem exists_comment_of_startsComment
    {input : List Char}
    (hStarts : startsComment input = true) :
    ∃ text, (token input).value = .comment text := by
  cases input with
  | nil => cases hStarts
  | cons c cs =>
      rw [token, if_pos hStarts]
      exact ⟨_, rfl⟩

/- A mark is spelled as its character. -/
theorem spelling?_mark
    {c : Char}
    {kind : TokenKind}
    {cs : List Char}
    (hMark : mark? c = some kind)
    (hSpelling : kind.spelling? = some cs) :
    [c] = cs := by
  unfold mark? at hMark
  split at hMark <;> cases hMark <;>
    simp_all [TokenKind.spelling?]

/- A token of a kind with one spelling is spelled so. -/
theorem raw_token_of_spelling
    {input cs : List Char}
    (hSpelling :
      (token input).value.spelling? = some cs) :
    (token input).raw = cs := by
  rcases isPunctuation_token_cases
      (TokenKind.isPunctuation_of_spelling hSpelling) with
    rfl | hComment | ⟨c, rest, kind, rfl, hMark⟩
  · simpa [token, Lexeme.stop, TokenKind.spelling?]
      using hSpelling
  · rcases exists_comment_of_startsComment hComment with
      ⟨text, hKind⟩
    rw [hKind] at hSpelling
    cases hSpelling
  · rw [token_of_mark hMark] at hSpelling ⊢
    exact spelling?_mark hMark hSpelling

end Scan

end LosslessCss

------------------------------------------------------------
-- The Next Token
------------------------------------------------------------

namespace LosslessCss

namespace Lexer

/- Only at the end of its text a lexer reads the end mark. -/
theorem isEof_token_iff
    (l : Lexer) :
    l.token.isEof = true ↔ l.stream.ahead = [] := by
  constructor
  · intro hEof
    cases hAhead : l.stream.ahead with
    | nil => rfl
    | cons c cs =>
        have hKind : l.lexeme.value = .eof :=
          Grammar.isEof_iff_kind.mp hEof
        rw [lexeme, hAhead] at hKind
        have hSpelling :
            (Scan.token (c :: cs)).value.spelling? =
              some [] := by
          rw [hKind]
          rfl
        have hRaw := Scan.raw_token_of_spelling hSpelling
        exact absurd hRaw (Scan.raw_token_ne_nil c cs)
  · intro hAhead
    rw [token_eq_endOfInput l hAhead, Token.isEof_endOfInput]

/- Braces and colons are spelled the usual way. -/
theorem spelled_token
    (l : Lexer) :
    l.token.Spelled := by
  have hRaw :
      ∀ {kind : TokenKind} {cs : List Char},
        kind.spelling? = some cs → l.token.kind = kind →
          l.token.raw = String.ofList cs := by
    intro kind cs hSpelling hKind
    subst hKind
    exact congrArg String.ofList
      (Scan.raw_token_of_spelling hSpelling)
  refine ⟨?_, ?_, ?_⟩
  · exact hRaw rfl
  · exact hRaw rfl
  · exact hRaw rfl

/- A lexeme and what is left are the text that was ahead. -/
theorem token_append_skip
    (l : Lexer) :
    l.token.raw ++ String.ofList l.skip.stream.ahead =
      String.ofList l.stream.ahead := by
  have hSplits := Scan.token_splits l.stream.ahead
  rw [← show l.lexeme.raw ++ l.lexeme.rest = _ from hSplits,
    String.ofList_append]
  rfl

/- The next token starts where this one ends. -/
theorem here_skip_eq_endLocation
    (l : Lexer) :
    l.skip.here = l.token.endLocation := by
  simp [here_skip, token, Token.endLocation,
    Location.advanceBy]

end Lexer

end LosslessCss

------------------------------------------------------------
-- All Tokens of a Text
------------------------------------------------------------

namespace LosslessCss

namespace Token

/- Tokens that follow each other without gaps. -/
def Located : Location → List Token → Prop
| _, [] => True
| here, t :: ts =>
    t.location = here ∧ Located t.endLocation ts

/- The second of two runs starts where the first one ends. -/
theorem located_append
    {here : Location}
    {ts us : List Token} :
    Located here (ts ++ us) ↔
      Located here ts ∧
        Located (here.advanceBy (rawText ts)) us := by
  induction ts generalizing here with
  | nil => simp [Located, rawText, Location.advanceBy]
  | cons t ts ih =>
      simp only [List.cons_append, Located, ih, rawText,
        Location.advanceBy_append, endLocation, and_assoc]
      constructor
      · intro h
        rcases h with ⟨rfl, hFirst, hSecond⟩
        exact ⟨rfl, hFirst, hSecond⟩
      · intro h
        rcases h with ⟨rfl, hFirst, hSecond⟩
        exact ⟨rfl, hFirst, hSecond⟩

end Token

namespace Lexer

open TokenSource

/-
  A property of all lexers, by the tokens that they read: it
  holds at the end of the text, and it holds in front of a
  token when it holds after it.
-/
theorem token_induction
    {P : Lexer → Prop}
    (hDone : ∀ l, l.stream.ahead = [] → P l)
    (hToken :
      ∀ l, l.token.isEof = false → P l.skip → P l)
    (l : Lexer) :
    P l := by
  fun_induction tokens l with
  | case1 l hEof => exact hDone l (l.isEof_token_iff.mp hEof)
  | case2 l hEof _ ih =>
      exact hToken l (by simpa using hEof) ih

/- At the end of a text there are no more tokens. -/
theorem upcoming_of_ahead_eq_nil
    (l : Lexer)
    (hAhead : l.stream.ahead = []) :
    upcoming (PulledText.ofLexer l) = [] :=
  upcoming_of_isEof (l.isEof_token_iff.mpr hAhead)

theorem upcoming_of_token
    (l : Lexer)
    (hEof : l.token.isEof = false) :
    upcoming (PulledText.ofLexer l) =
      l.token :: upcoming (PulledText.ofLexer l.skip) :=
  upcoming_of_not_isEof hEof

theorem ending_of_ahead_eq_nil
    (l : Lexer)
    (hAhead : l.stream.ahead = []) :
    ending (PulledText.ofLexer l) =
      Token.endOfInput l.here :=
  (ending_of_isEof (l.isEof_token_iff.mpr hAhead)).trans
    (token_eq_endOfInput l hAhead)

theorem ending_of_token
    (l : Lexer)
    (hEof : l.token.isEof = false) :
    ending (PulledText.ofLexer l) =
      ending (PulledText.ofLexer l.skip) :=
  ending_of_not_isEof hEof

/- The tokens of a text are the text. -/
theorem rawText_upcoming
    (l : Lexer) :
    Token.rawText (upcoming (PulledText.ofLexer l)) =
      String.ofList l.stream.ahead := by
  induction l using token_induction with
  | hDone l hAhead =>
      simp [upcoming_of_ahead_eq_nil l hAhead, hAhead,
        Token.rawText]
  | hToken l hEof ih =>
      rw [upcoming_of_token l hEof, Token.rawText, ih,
        token_append_skip]

theorem located_upcoming
    (l : Lexer) :
    Token.Located l.here
      (upcoming (PulledText.ofLexer l)) := by
  induction l using token_induction with
  | hDone l hAhead =>
      simp [upcoming_of_ahead_eq_nil l hAhead, Token.Located]
  | hToken l hEof ih =>
      rw [upcoming_of_token l hEof, Token.Located,
        ← here_skip_eq_endLocation]
      exact ⟨rfl, ih⟩

theorem spelled_of_mem_upcoming
    (l : Lexer) :
    ∀ t ∈ upcoming (PulledText.ofLexer l), t.Spelled := by
  induction l using token_induction with
  | hDone l hAhead =>
      simp [upcoming_of_ahead_eq_nil l hAhead]
  | hToken l hEof ih =>
      rw [upcoming_of_token l hEof]
      simpa using ⟨l.spelled_token, ih⟩

/- The end mark stands where the tokens of a text end. -/
theorem ending_ofLexer
    (l : Lexer) :
    ending (PulledText.ofLexer l) =
      Token.endOfInput
        (l.here.advanceOver l.stream.ahead) := by
  induction l using token_induction with
  | hDone l hAhead =>
      rw [ending_of_ahead_eq_nil l hAhead, hAhead,
        Location.advanceOver_nil]
  | hToken l hEof ih =>
      rw [ending_of_token l hEof, ih, here_skip]
      have hSplits := Scan.token_splits l.stream.ahead
      rw [← show l.lexeme.raw ++ l.lexeme.rest = _
          from hSplits, Location.advanceOver_append]
      rfl

/- All tokens are read as they come, end included. -/
theorem tokens_eq
    (l : Lexer) :
    l.tokens.1 =
      upcoming (PulledText.ofLexer l) ++
        [ending (PulledText.ofLexer l)] := by
  induction l using token_induction with
  | hDone l hAhead =>
      rw [tokens, upcoming_of_ahead_eq_nil l hAhead,
        ending_of_ahead_eq_nil l hAhead,
        token_eq_endOfInput l hAhead]
      simp
  | hToken l hEof ih =>
      rw [tokens, upcoming_of_token l hEof,
        ending_of_token l hEof]
      simpa [hEof] using ih

end Lexer

end LosslessCss

------------------------------------------------------------
-- Whole Texts
------------------------------------------------------------

namespace LosslessCss

open TokenSource (upcoming ending)

namespace PulledText

variable (css : String) (here : Location)

theorem rawText_upcoming :
    Token.rawText (upcoming (ofText css here)) = css := by
  rw [ofText, Lexer.rawText_upcoming]
  exact String.ofList_toList

theorem located_upcoming :
    Token.Located here (upcoming (ofText css here)) := by
  have hLocated :=
    Lexer.located_upcoming (Lexer.ofText css here)
  rwa [Lexer.here_ofText] at hLocated

theorem spelled_of_mem_upcoming :
    ∀ t ∈ upcoming (ofText css here), t.Spelled :=
  Lexer.spelled_of_mem_upcoming (Lexer.ofText css here)

theorem ending_ofText :
    ending (ofText css here) =
      Token.endOfInput (here.advanceBy css) := by
  have hEnding := Lexer.ending_ofLexer (Lexer.ofText css here)
  rwa [Lexer.here_ofText] at hEnding

/- Tokens that are read in advance end with the end mark. -/
theorem tokenize_eq :
    Lexer.tokenize css here =
      upcoming (ofText css here) ++
        [ending (ofText css here)] :=
  Lexer.tokens_eq (Lexer.ofText css here)

theorem dropLast_tokenize :
    (Lexer.tokenize css here).dropLast =
      upcoming (ofText css here) := by
  rw [tokenize_eq, List.dropLast_concat]

/- All tokens together are the text, as the end is empty. -/
theorem rawText_tokenize :
    Token.rawText (Lexer.tokenize css here) = css := by
  rw [tokenize_eq, Token.rawText_append, rawText_upcoming,
    ending_ofText]
  simp [Token.rawText, Token.endOfInput]

end PulledText

end LosslessCss
