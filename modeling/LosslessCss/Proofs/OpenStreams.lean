import LosslessCss.Proofs.StreamReading

/-
  Tokens of a stream that is still open.

  More text may arrive on an open stream, and a token that
  would have gone on cannot be told yet.  This is the case
  for quotations and addresses without the mark that closes
  them, and for no other token: all others end with the text
  as it is.

  Key definitions include:
    * `Text.shows`
    * `Token.isUnclosed`
    * `Lexer.ofOpenText`
    * `Lexeme.EndsIf`

  Key theorems include:
    * `Quotation.endsIf_scanBody`
    * `Url.endsIf_scanAddress`
    * `Scan.settled_token`
    * `Lexer.tokenize_open`
-/

------------------------------------------------------------
-- Marks outside of Escapes
------------------------------------------------------------

namespace LosslessCss

namespace Text

/-
  Whether a mark stands in a text, outside of all escapes.  A
  backslash takes the character after it.
-/
def shows (mark : Char) : List Char → Bool
| [] => false
| '\\' :: _ :: cs => shows mark cs
| c :: cs => c == mark || shows mark cs

end Text

namespace TokenKind

/-
  Whether a token of a kind does not have the mark that
  closes it.  A quotation is closed by the quote that it
  opens with, and an address by a parenthesis.
-/
def lacksEnd
    (kind : TokenKind)
    (raw : List Char) : Bool :=
  match kind, raw with
  | .quotation _, quote :: body => !Text.shows quote body
  | .url _, _ => !Text.shows ')' raw
  | .badUrl _, _ => !Text.shows ')' raw
  | _, _ => false

end TokenKind

/- Whether a token does not have the mark that closes it. -/
def Token.isUnclosed (t : Token) : Bool :=
  t.kind.lacksEnd t.raw.toList

/- A lexer over a text on a stream that is still open. -/
def Lexer.ofOpenText
    (text : String)
    (here : Location) : Lexer :=
  Lexer.ofStream (CharStream.empty.load text) here

/-
  A lexeme is complete if and only if it has ended.  If it
  has not, there is nothing after it.
-/
structure Lexeme.EndsIf
    {α : Type}
    (ended : Bool)
    (lexeme : Lexeme α) : Prop where
  complete_eq : lexeme.complete = ended
  rest_eq_nil : ended = false → lexeme.rest = []

end LosslessCss

------------------------------------------------------------
-- Marks in Parts of a Text
------------------------------------------------------------

namespace LosslessCss

namespace Text

variable {mark c : Char} {cs ds : List Char}

/- The marks that close quotations and addresses. -/
def closers : List Char :=
  ['"', '\'', ')']

@[simp] theorem shows_nil :
    shows mark [] = false :=
  rfl

@[simp] theorem shows_escape :
    shows mark ('\\' :: c :: cs) = shows mark cs :=
  rfl

theorem shows_cons_of_ne
    (hSlash : c ≠ '\\') :
    shows mark (c :: cs) = (c == mark || shows mark cs) := by
  rw [shows]
  simp [hSlash]

/- Other characters in front do not matter. -/
theorem shows_append
    (hPlain : ∀ c ∈ cs, c ≠ '\\' ∧ c ≠ mark) :
    shows mark (cs ++ ds) = shows mark ds := by
  induction cs with
  | nil => rfl
  | cons c cs ih =>
      rcases List.forall_mem_cons.mp hPlain with
        ⟨⟨hSlash, hMark⟩, hOthers⟩
      rw [List.cons_append, shows_cons_of_ne hSlash,
        ih hOthers]
      simp [hMark]

/- A closer is none of the characters that a test allows. -/
theorem ne_of_closers
    {p : Char → Bool}
    (hReject :
      (('\\' :: closers).all fun d => !p d) = true)
    (hMark : mark ∈ closers)
    (hTest : p c = true) :
    c ≠ '\\' ∧ c ≠ mark := by
  rw [List.all_eq_true] at hReject
  have hNone : ∀ d ∈ '\\' :: closers, c ≠ d := by
    intro d hMem
    exact ne_of_test hTest (by simpa using hReject d hMem)
  rcases List.forall_mem_cons.mp hNone with ⟨hSlash, hOther⟩
  exact ⟨hSlash, hOther mark hMark⟩

end Text

namespace Escape

/- An escape is one character, or digits and a blank. -/
theorem raw_scan_cases
    {cs : List Char}
    (hSome : cs ≠ []) :
    ∃ d ds,
      (scan cs).raw = d :: ds ∧
        ∀ c ∈ ds,
          (isHexDigit c || Text.isBlank c) = true := by
  unfold scan
  simp only
  split
  · cases cs with
    | nil => exact absurd rfl hSome
    | cons c cs => exact ⟨c, [], rfl, by simp⟩
  · rename_i hDigits
    have hHex :
        ∀ c ∈ (cs.takeWhile isHexDigit).take 6,
          (isHexDigit c || Text.isBlank c) = true := by
      intro c hMem
      have hTest :=
        List.mem_takeWhile_imp (List.mem_of_mem_take hMem)
      simp [hTest]
    have hBlank :
        ∀ input : List Char, ∀ c ∈ (takeBlank input).1,
          (isHexDigit c || Text.isBlank c) = true := by
      intro input c hMem
      rw [Spelling.takeBlank_eq, List.mem_filter] at hMem
      rw [hMem.2, Bool.or_true]
    cases hFront : (cs.takeWhile isHexDigit).take 6 with
    | nil => simp [hFront] at hDigits
    | cons d digits =>
        refine ⟨d, _, List.cons_append, ?_⟩
        rw [hFront] at hHex
        exact
          List.forall_mem_append.mpr
            ⟨(List.forall_mem_cons.mp hHex).2, hBlank _⟩

/- No mark is shown by an escape. -/
theorem shows_append
    {mark c : Char}
    {cs : List Char}
    (hMark : mark ∈ Text.closers)
    (hEscape : startsEscape (c :: cs) = true)
    (ds : List Char) :
    Text.shows mark (c :: ((scan cs).raw ++ ds)) =
      Text.shows mark ds := by
  obtain ⟨rfl, hSome⟩ : c = '\\' ∧ cs ≠ [] := by
    unfold startsEscape at hEscape
    split at hEscape
    · rename_i hCons
      rcases List.cons.inj hCons with ⟨rfl, rfl⟩
      exact ⟨rfl, by simp⟩
    · cases hEscape
  rcases raw_scan_cases hSome with ⟨d, others, hRaw, hAll⟩
  rw [hRaw, List.cons_append, Text.shows_escape]
  apply Text.shows_append
  intro e hMem
  exact
    Text.ne_of_closers
      (p := fun c => isHexDigit c || Text.isBlank c)
      (by decide) hMark (hAll e hMem)

end Escape

end LosslessCss

------------------------------------------------------------
-- Scanners and Their Ends
------------------------------------------------------------

namespace LosslessCss

open Text (shows closers)

namespace Lexeme

variable {α β : Type} {lexeme : Lexeme α} {ended : Bool}

theorem EndsIf.map
    (hEnds : lexeme.EndsIf ended)
    (f : α → β) :
    (lexeme.map f).EndsIf ended :=
  ⟨hEnds.complete_eq, hEnds.rest_eq_nil⟩

theorem EndsIf.extend
    (hEnds : lexeme.EndsIf ended)
    (taken : List Char) :
    (lexeme.extend taken).EndsIf ended :=
  ⟨hEnds.complete_eq, hEnds.rest_eq_nil⟩

/- What is complete has ended, whatever comes after it. -/
theorem endsIf_complete
    {value : α}
    {raw rest : List Char}
    (hEnded : ended = true) :
    EndsIf ended ⟨value, raw, rest, true⟩ :=
  ⟨hEnded.symm, fun hNot => by simp [hEnded] at hNot⟩

/- A lexeme that is cut off has not ended. -/
theorem endsIf_cutOff
    {value : α}
    (hEnded : ended = false) :
    EndsIf ended (cutOff value) :=
  ⟨hEnded.symm, fun _ => rfl⟩

end Lexeme

namespace Text

variable {mark c : Char} {cs ds : List Char}

theorem ne_slash_of_closers
    (hMark : mark ∈ closers) :
    mark ≠ '\\' := by
  rintro rfl
  simp [closers] at hMark

/- A backslash that escapes nothing does not matter. -/
theorem shows_lone
    (hMark : mark ∈ closers)
    (hNone : cs = [] ∨ ∃ rest, cs = '\n' :: rest) :
    shows mark ('\\' :: cs) = shows mark cs := by
  have hSlash := ne_slash_of_closers hMark
  rcases hNone with rfl | ⟨rest, rfl⟩
  · simp [shows, hSlash.symm]
  · have hFeed : '\n' ≠ mark := by
      rintro rfl
      simp [closers] at hMark
    rw [shows_escape, shows_cons_of_ne (by decide)]
    simp [hFeed]

theorem shows_of_ne
    (hSlash : c ≠ '\\')
    (hOther : c ≠ mark) :
    shows mark (c :: cs) = shows mark cs := by
  rw [shows_cons_of_ne hSlash]
  simp [hOther]

end Text

namespace Quotation

/- A quotation ends with its quote, or it is spoiled. -/
theorem endsIf_scanBody
    {quote : Char}
    (hQuote : quote ∈ closers)
    (input : List Char) :
    (scanBody quote input).EndsIf
      ((scanBody quote input).value.spoiled ||
        shows quote (scanBody quote input).raw) := by
  fun_induction scanBody quote input with
  | case1 => exact Lexeme.endsIf_cutOff rfl
  | case2 cs =>
      apply Lexeme.endsIf_complete
      simp [Text.shows_cons_of_ne
        (Text.ne_slash_of_closers hQuote)]
  | case3 => exact Lexeme.endsIf_complete rfl
  | case4 c cs hEnd hFeed hFold ih =>
      obtain ⟨rest, rfl, rfl⟩ :
          ∃ rest, c = '\\' ∧ cs = '\n' :: rest := by
        unfold startsFold at hFold
        split at hFold
        · rename_i hCons
          rcases List.cons.inj hCons with ⟨rfl, rfl⟩
          exact ⟨_, rfl, rfl⟩
        · cases hFold
      exact ih.extend ['\\', '\n']
  | case5 c cs hEnd hFeed hFold hEscape escape tail ih =>
      have hTail :=
        (ih.map (Body.cons escape.value)).extend
          (c :: escape.raw)
      have hShows :
          shows quote (c :: escape.raw ++ tail.raw) =
            shows quote tail.raw :=
        Escape.shows_append hQuote hEscape tail.raw
      rw [← hShows] at hTail
      exact hTail
  | case6 c cs hEnd hFeed hFold hEscape ih =>
      have hTail := (ih.map (Body.cons c)).extend [c]
      have hShows :
          shows quote (c :: (scanBody quote cs).raw) =
            shows quote (scanBody quote cs).raw := by
        by_cases hSlash : c = '\\'
        · have hNone : cs = [] := by
            by_contra hSome
            exact ne_slash hSome hFold hEscape hSlash
          subst hSlash hNone
          apply Text.shows_lone hQuote
          exact .inl (by rw [scanBody]; rfl)
        · exact Text.shows_of_ne hSlash hEnd
      rw [← hShows] at hTail
      exact hTail

theorem endsIf_scan
    {quote : Char}
    (hQuote : isQuote quote = true)
    (input : List Char) :
    (scan quote input).EndsIf
      !(scan quote input).value.lacksEnd
        (scan quote input).raw := by
  have hMark : quote ∈ closers := by
    have hCase : quote = '"' ∨ quote = '\'' := by
      simpa [isQuote] using hQuote
    rcases hCase with rfl | rfl
    · decide
    · decide
  have hEnds :=
    ((endsIf_scanBody hMark input).map Body.kind).extend
      [quote]
  have hSame :
      ((scanBody quote input).value.spoiled ||
          shows quote (scanBody quote input).raw) =
        !(scan quote input).value.lacksEnd
          (scan quote input).raw := by
    cases hSpoiled : (scanBody quote input).value.spoiled with
    | true =>
        simp [scan, Lexeme.map, Lexeme.extend, Body.kind,
          hSpoiled, TokenKind.lacksEnd]
    | false =>
        simp [scan, Lexeme.map, Lexeme.extend, Body.kind,
          hSpoiled, TokenKind.lacksEnd]
  rw [← hSame]
  exact hEnds

end Quotation

namespace Url

/-
  Where a run of characters starts with a line feed, so does
  each run that is split off from its front.
-/
theorem feed_of_splits
    {α : Type}
    {lexeme : Lexeme α}
    {cs : List Char}
    (hSplits : lexeme.Splits cs)
    (hFeed : cs = [] ∨ ∃ rest, cs = '\n' :: rest) :
    lexeme.raw = [] ∨ ∃ rest, lexeme.raw = '\n' :: rest := by
  cases hRaw : lexeme.raw with
  | nil => exact .inl rfl
  | cons c raw =>
      rw [Lexeme.Splits, hRaw, List.cons_append] at hSplits
      rcases hFeed with rfl | ⟨rest, rfl⟩
      · cases hSplits
      · rw [(List.cons.inj hSplits).1]
        exact .inr ⟨raw, rfl⟩

/- A backslash escapes what follows, but for a line feed. -/
theorem feed_of_not_startsEscape
    {cs : List Char}
    (hEscape : ¬ Escape.startsEscape ('\\' :: cs) = true) :
    cs = [] ∨ ∃ rest, cs = '\n' :: rest := by
  cases cs with
  | nil => exact .inl rfl
  | cons d ds =>
      right
      have hFeed : d = '\n' := by
        simpa [Escape.startsEscape] using hEscape
      exact ⟨ds, by rw [hFeed]⟩

/- A spoiled address ends with a parenthesis. -/
theorem endsIf_scanRemnants
    (input : List Char) :
    (scanRemnants input).EndsIf
      (shows ')' (scanRemnants input).raw) := by
  have hMark : ')' ∈ closers := by decide
  fun_induction scanRemnants input with
  | case1 => exact Lexeme.endsIf_cutOff rfl
  | case2 cs => exact Lexeme.endsIf_complete rfl
  | case3 c cs hEnd hEscape escape ih =>
      have hTail := ih.extend (c :: escape.raw)
      have hShows :
          shows ')'
              (c :: escape.raw ++
                (scanRemnants escape.rest).raw) =
            shows ')' (scanRemnants escape.rest).raw :=
        Escape.shows_append hMark hEscape _
      rw [← hShows] at hTail
      exact hTail
  | case4 c cs hEnd hEscape ih =>
      have hTail := ih.extend [c]
      have hShows :
          shows ')' (c :: (scanRemnants cs).raw) =
            shows ')' (scanRemnants cs).raw := by
        by_cases hSlash : c = '\\'
        · subst hSlash
          apply Text.shows_lone hMark
          exact
            feed_of_splits (scanRemnants_splits cs)
              (feed_of_not_startsEscape hEscape)
        · exact Text.shows_of_ne hSlash hEnd
      rw [← hShows] at hTail
      exact hTail

theorem endsIf_scanEnd
    (input : List Char) :
    (scanEnd input).EndsIf
      (shows ')' (scanEnd input).raw) := by
  cases input with
  | nil => exact Lexeme.endsIf_cutOff rfl
  | cons c cs =>
      rw [scanEnd]
      split
      · rename_i hEnd
        subst hEnd
        exact Lexeme.endsIf_complete rfl
      · exact endsIf_scanRemnants (c :: cs)

/- Blanks neither close an address nor escape anything. -/
theorem shows_blanks
    (cs ds : List Char) :
    shows ')' (cs.takeWhile Text.isBlank ++ ds) =
      shows ')' ds := by
  apply Text.shows_append
  intro c hMem
  exact
    Text.ne_of_closers (by decide) (by decide)
      (List.mem_takeWhile_imp hMem)

theorem endsIf_scanAddress
    (input : List Char) :
    (scanAddress input).EndsIf
      (shows ')' (scanAddress input).raw) := by
  have hMark : ')' ∈ closers := by decide
  fun_induction scanAddress input with
  | case1 => exact Lexeme.endsIf_cutOff rfl
  | case2 => exact Lexeme.endsIf_complete rfl
  | case3 c cs hEnd hBlank =>
      have hTail :=
        (endsIf_scanEnd
          ((c :: cs).dropWhile Text.isBlank)).extend
          ((c :: cs).takeWhile Text.isBlank)
      rw [← shows_blanks (c :: cs)] at hTail
      exact hTail
  | case4 c cs _ _ _ => exact endsIf_scanRemnants (c :: cs)
  | case5 c cs hEnd hBlank hSpoils hEscape escape tail ih =>
      have hTail :=
        (ih.map (Body.cons escape.value)).extend
          (c :: escape.raw)
      have hShows :
          shows ')' (c :: escape.raw ++ tail.raw) =
            shows ')' tail.raw :=
        Escape.shows_append hMark hEscape tail.raw
      rw [← hShows] at hTail
      exact hTail
  | case6 cs _ _ _ _ => exact endsIf_scanRemnants ('\\' :: cs)
  | case7 c cs hEnd hBlank hSpoils hEscape hSlash ih =>
      have hTail := (ih.map (Body.cons c)).extend [c]
      have hShows :
          shows ')' (c :: (scanAddress cs).raw) =
            shows ')' (scanAddress cs).raw :=
        Text.shows_of_ne hSlash hEnd
      rw [← hShows] at hTail
      exact hTail

/- What is in front of the address has no parenthesis. -/
theorem endsIf_scan
    (input : List Char) :
    (scan input).EndsIf (shows ')' (scan input).raw) := by
  have hTail :=
    ((endsIf_scanAddress
      (input.dropWhile Text.isBlank)).map Body.kind).extend
      (input.takeWhile Text.isBlank)
  rw [← shows_blanks input] at hTail
  exact hTail

end Url

end LosslessCss

------------------------------------------------------------
-- Tokens and Their Ends
------------------------------------------------------------

namespace LosslessCss

open Text (shows closers)

/- A token is complete unless it lacks its end. -/
def Lexeme.Settled (lexeme : Lexeme TokenKind) : Prop :=
  lexeme.EndsIf !lexeme.value.lacksEnd lexeme.raw

namespace Name

/- There is no parenthesis in a name. -/
theorem shows_scan
    (input ds : List Char) :
    shows ')' ((scan input).raw ++ ds) = shows ')' ds := by
  fun_induction scan input with
  | case1 => rfl
  | case2 c cs hEscape escape tail ih =>
      have hShows :
          shows ')' (c :: (escape.raw ++ (tail.raw ++ ds))) =
            shows ')' (tail.raw ++ ds) :=
        Escape.shows_append (by decide) hEscape _
      rw [← ih, ← hShows]
      simp [Lexeme.extend, Lexeme.map]
  | case3 c cs _ hPart ih =>
      have hOther : c ≠ '\\' ∧ c ≠ ')' :=
        Text.ne_of_closers (p := isPart) (by decide)
          (by decide) hPart
      rw [← ih]
      exact Text.shows_of_ne hOther.1 hOther.2
  | case4 => rfl

end Name

namespace Scan

/- Most kinds of tokens have no mark that closes them. -/
theorem settled_complete
    {lexeme : Lexeme TokenKind}
    (hComplete : lexeme.complete = true)
    (hKind :
      lexeme.value.lacksEnd lexeme.raw = false) :
    lexeme.Settled := by
  refine ⟨by rw [hComplete, hKind]; rfl, ?_⟩
  intro hNot
  rw [hKind] at hNot
  cases hNot

theorem complete_comment
    (input : List Char) :
    (comment input).complete = true := by
  fun_induction comment input with
  | case1 => rfl
  | case2 => rfl
  | case3 _ _ _ ih => exact ih

theorem settled_numeral
    (input : List Char) :
    (Numeral.scan input).Settled := by
  unfold Numeral.scan
  simp only
  split
  · exact settled_complete (Name.complete_scan _) rfl
  · split
    · exact settled_complete rfl rfl
    · exact settled_complete rfl rfl

theorem settled_single
    {kind : TokenKind}
    {c : Char}
    {cs : List Char}
    (hKind : kind.lacksEnd [c] = false) :
    (single kind c cs).Settled :=
  settled_complete rfl hKind

/- What comes in front of an address shows no parenthesis. -/
theorem settled_url
    {input name rest : List Char}
    (hName : (Name.scan input).raw = name) :
    ((Url.scan rest).extend (name ++ ['('])).Settled := by
  have hEnds :=
    (Url.endsIf_scan rest).extend (name ++ ['('])
  have hShows :
      shows ')' (name ++ ['('] ++ (Url.scan rest).raw) =
        shows ')' (Url.scan rest).raw := by
    rw [List.append_assoc, ← hName, Name.shows_scan]
    exact Text.shows_of_ne (by decide) (by decide)
  rw [← hShows] at hEnds
  rcases Url.kind_scan rest with
    ⟨address, hKind⟩ | ⟨address, hKind⟩
  · simpa [Lexeme.Settled, Lexeme.extend, hKind,
      TokenKind.lacksEnd] using hEnds
  · simpa [Lexeme.Settled, Lexeme.extend, hKind,
      TokenKind.lacksEnd] using hEnds

theorem settled_identLike
    (input : List Char) :
    (identLike input).Settled := by
  unfold identLike
  simp only
  split
  · split
    · exact settled_url rfl
    · exact settled_complete rfl rfl
  · exact settled_complete rfl rfl

theorem settled_plain
    (c : Char)
    (cs : List Char) :
    (plain c cs).Settled := by
  unfold plain
  split
  · unfold hash
    split
    · exact settled_complete (Name.complete_scan cs) rfl
    · exact settled_single rfl
  split
  · unfold atSign
    split
    · exact settled_complete (Name.complete_scan cs) rfl
    · exact settled_single rfl
  split
  · unfold minus
    split
    · exact settled_numeral _
    split
    · exact settled_complete rfl rfl
    split
    · exact settled_identLike _
    · exact settled_single rfl
  split
  · unfold lessThan
    split
    · exact settled_complete rfl rfl
    · exact settled_single rfl
  split
  · exact settled_numeral _
  split
  · exact settled_identLike _
  split
  · rename_i kind hMark
    apply settled_single
    exact
      of_mark (P := fun other => other.lacksEnd [c] = false)
        hMark (by simp [markKinds, TokenKind.lacksEnd])
  · exact settled_single rfl

/- Every token is complete unless it lacks its end. -/
theorem settled_token
    (input : List Char) :
    (token input).Settled := by
  cases input with
  | nil => exact settled_complete rfl rfl
  | cons c cs =>
      rw [token]
      split
      · exact settled_complete (complete_comment _) rfl
      split
      · exact settled_complete rfl rfl
      split
      · rename_i hQuote
        exact Quotation.endsIf_scan hQuote cs
      · exact settled_plain c cs

end Scan

end LosslessCss

------------------------------------------------------------
-- Tokens of Open Streams
------------------------------------------------------------

namespace LosslessCss

open TokenSource (upcoming)

namespace Lexer

variable {l : Lexer}

theorem complete_lexeme
    (l : Lexer) :
    l.lexeme.complete = !l.token.isUnclosed := by
  have hSettled := Scan.settled_token l.stream.ahead
  rw [Token.isUnclosed, token, String.toList_ofList]
  exact hSettled.complete_eq

/- Nothing follows a token that lacks its end. -/
theorem ahead_skip_of_isUnclosed
    (hUnclosed : l.token.isUnclosed = true) :
    l.skip.stream.ahead = [] := by
  have hSettled := Scan.settled_token l.stream.ahead
  apply hSettled.rest_eq_nil
  rw [Token.isUnclosed, token, String.toList_ofList]
    at hUnclosed
  exact congrArg not hUnclosed

/- On an open stream only the last token can be a problem. -/
theorem tokens?_of_open
    (l : Lexer)
    (hOpen : l.stream.closed = false) :
    l.tokens? =
      if (upcoming (PulledText.ofLexer l)).getLast?.any
          Token.isUnclosed then
        none
      else
        some l.tokens := by
  induction l using token_induction with
  | hDone l hAhead =>
      have hEof := l.isEof_token_iff.mpr hAhead
      have hComplete : l.lexeme.complete = true := by
        rw [lexeme, hAhead]
        rfl
      rw [tokens?, tokens, upcoming_of_ahead_eq_nil l hAhead]
      simp [hComplete, hEof]
  | hToken l hEof ih =>
      rw [tokens?, tokens, hOpen, complete_lexeme,
        upcoming_of_token l hEof, List.getLast?_cons, hEof,
        ih hOpen]
      cases hUnclosed : l.token.isUnclosed with
      | true =>
          rw [upcoming_of_ahead_eq_nil l.skip
            (ahead_skip_of_isUnclosed hUnclosed)]
          simp [hUnclosed]
      | false =>
          cases
            (upcoming (PulledText.ofLexer l.skip)).getLast?
          with
          | none => simp [hUnclosed]
          | some t =>
              cases hLast : t.isUnclosed with
              | true => simp [hLast]
              | false => simp [hLast]

/- A lexer reads what is ahead, from where it is. -/
theorem tokens_congr
    (l : Lexer)
    {other : Lexer}
    (hAhead : other.stream.ahead = l.stream.ahead)
    (hHere : other.here = l.here) :
    other.tokens.1 = l.tokens.1 := by
  induction l using token_induction generalizing other with
  | hDone l hNone =>
      rw [hNone] at hAhead
      rw [tokens_eq, tokens_eq,
        upcoming_of_ahead_eq_nil l hNone,
        upcoming_of_ahead_eq_nil other hAhead,
        ending_of_ahead_eq_nil l hNone,
        ending_of_ahead_eq_nil other hAhead, hHere]
  | hToken l hEof ih =>
      have hLexeme : other.lexeme = l.lexeme := by
        rw [lexeme, lexeme, hAhead]
      have hToken : other.token = l.token := by
        rw [token, token, hLexeme, hHere]
      have hTail : other.skip.tokens.1 = l.skip.tokens.1 := by
        apply ih
        · exact congrArg Lexeme.rest hLexeme
        · rw [here_skip_eq_endLocation,
            here_skip_eq_endLocation, hToken]
      have hOther : other.token.isEof = false := by
        rw [hToken, hEof]
      rw [tokens_eq, tokens_eq] at hTail ⊢
      rw [upcoming_of_token l hEof,
        upcoming_of_token other hOther,
        ending_of_token l hEof,
        ending_of_token other hOther, hToken,
        List.cons_append, List.cons_append, hTail]

/-
  From an open stream the tokens of a text are read as from
  a closed one, as long as the last of them does not lack
  the mark that closes it.  If it does, its end is waited
  for, and the reader does not return.
-/
theorem tokenize_open
    (css : String)
    (here : Location) :
    (ofText css here).readTokens.map Prod.fst =
        some (tokenize css here) ∧
      (ofOpenText css here).readTokens.map Prod.fst =
        if (tokenize css here).dropLast.getLast?.any
            Token.isUnclosed then
          none
        else
          some (tokenize css here) := by
  have hSame :
      (ofOpenText css here).tokens.1 = tokenize css here :=
    tokens_congr (ofText css here) rfl
      (by rw [here_ofText, ofOpenText, here_ofStream])
  have hUpcoming :
      (tokenize css here).dropLast =
        upcoming
          (PulledText.ofLexer (ofOpenText css here)) := by
    rw [← hSame, tokens_eq, List.dropLast_concat]
  rw [readTokens_eq, readTokens_eq]
  constructor
  · rw [tokens?_eq_tokens _ rfl]
    rfl
  · rw [tokens?_of_open _ rfl, ← hUpcoming, ← hSame]
    split
    · rfl
    · rfl

end Lexer

end LosslessCss
