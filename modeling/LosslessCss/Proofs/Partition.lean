import LosslessCss.Proofs.Placement
import Mathlib.Data.List.Induction
import Mathlib.Logic.Function.Iterate

/-
  The lexer cuts a text into tokens.

  On a closed stream every token can be read, and no token
  but the end mark is empty.  The tokens are the text, each
  of them is located by what is in front of it, and the end
  mark is read again and again.

  Key definitions include:
    * `Text.lastLine`

  Key theorems include:
    * `Location.column_advanceOver`
    * `Lexer.tokens?_eq_tokens`
    * `Lexer.tokens_partition`
-/

------------------------------------------------------------
-- Lines, Columns and Bytes
------------------------------------------------------------

namespace LosslessCss

namespace Text

/- The characters after the last line feed. -/
def lastLine (cs : List Char) : List Char :=
  (cs.reverse.takeWhile fun c => c != '\n').reverse

@[simp] theorem lastLine_concat
    (cs : List Char)
    (c : Char) :
    lastLine (cs ++ [c]) =
      if c = '\n' then [] else lastLine cs ++ [c] := by
  by_cases hFeed : c = '\n'
  · simp [lastLine, hFeed]
  · simp [lastLine, hFeed]

/- Bytes are counted as in the encoding of the text. -/
theorem byteLength_toList
    (text : String) :
    byteLength text.toList = text.utf8ByteSize := by
  have hList :
      ∀ cs : List Char,
        byteLength cs = (String.ofList cs).utf8ByteSize := by
    intro cs
    induction cs with
    | nil => simp [byteLength]
    | cons c cs ih =>
        rw [byteLength, ih, String.ofList_cons,
          String.utf8ByteSize_append,
          String.utf8ByteSize_singleton]
  rw [hList, String.ofList_toList]

end Text

namespace Location

@[simp] theorem advanceOver_concat
    (here : Location)
    (cs : List Char)
    (c : Char) :
    here.advanceOver (cs ++ [c]) =
      (here.advanceOver cs).advance c := by
  simp [advanceOver_append]

/- Every line feed starts one more line. -/
theorem line_advanceOver
    (here : Location)
    (cs : List Char) :
    (here.advanceOver cs).line =
      here.line + cs.count '\n' := by
  induction cs using List.reverseRecOn with
  | nil => simp
  | append_singleton cs c ih =>
      by_cases hFeed : c = '\n'
      · simp [advance, hFeed, ih, Nat.add_assoc]
      · simp [advance, hFeed, ih]

/-
  A column counts the characters of its line, and those of
  the first line are counted from the given place on.
-/
theorem column_advanceOver
    (here : Location)
    (cs : List Char) :
    (here.advanceOver cs).column =
      if '\n' ∈ cs then
        1 + (Text.lastLine cs).length
      else
        here.column + cs.length := by
  induction cs using List.reverseRecOn with
  | nil => simp
  | append_singleton cs c ih =>
      by_cases hFeed : c = '\n'
      · simp [advance, hFeed]
      · have hMem :
            '\n' ∈ cs ++ [c] ↔ '\n' ∈ cs := by
          simp [eq_comm, hFeed]
        simp only [advanceOver_concat, advance, hFeed,
          if_false, ih, hMem, Text.lastLine_concat,
          List.length_append, List.length_singleton]
        split
        · omega
        · omega

end Location

end LosslessCss

------------------------------------------------------------
-- Closed Streams
------------------------------------------------------------

namespace LosslessCss

namespace Lexer

open TokenSource (upcoming ending)

/- Before the end of the text no token is empty. -/
theorem raw_token_ne_empty
    (l : Lexer)
    (hEof : l.token.isEof = false) :
    l.token.raw ≠ "" := by
  cases hAhead : l.stream.ahead with
  | nil => exact absurd hAhead (l.ahead_ne_nil_of_token hEof)
  | cons c cs =>
      have hRaw := Scan.raw_token_ne_nil c cs
      rw [← hAhead] at hRaw
      intro hEmpty
      exact hRaw (String.ofList_eq_empty_iff.mp hEmpty)

theorem raw_ne_empty_of_mem_upcoming
    (l : Lexer) :
    ∀ t ∈ upcoming (PulledText.ofLexer l), t.raw ≠ "" := by
  induction l using token_induction with
  | hDone l hAhead =>
      simp [upcoming_of_ahead_eq_nil l hAhead]
  | hToken l hEof ih =>
      rw [upcoming_of_token l hEof]
      simpa using ⟨l.raw_token_ne_empty hEof, ih⟩

/- A closed stream can be read to its end. -/
theorem tokens?_eq_tokens
    (l : Lexer)
    (hClosed : l.stream.closed = true) :
    l.tokens? = some l.tokens := by
  induction l using token_induction with
  | hDone l hAhead =>
      have hEof := l.isEof_token_iff.mpr hAhead
      rw [tokens?, tokens]
      simp [hClosed, hEof]
  | hToken l hEof ih =>
      rw [tokens?, tokens, ih hClosed]
      simp [hClosed, hEof]

/- At the end of the text the lexer stays where it is. -/
theorem skip_of_ahead_eq_nil
    (l : Lexer)
    (hAhead : l.stream.ahead = []) :
    l.skip = l := by
  rcases l with ⟨⟨passed, ahead, closed⟩, _, _, _⟩
  cases hAhead
  rfl

/- All tokens together lead to the end of the text. -/
theorem ahead_tokens
    (l : Lexer) :
    l.tokens.2.stream.ahead = [] := by
  induction l using token_induction with
  | hDone l hAhead =>
      have hEof := l.isEof_token_iff.mpr hAhead
      rw [tokens, if_pos hEof, skip_of_ahead_eq_nil l hAhead]
      exact hAhead
  | hToken l hEof ih =>
      rw [tokens, if_neg (by simp [hEof])]
      exact ih

theorem token_tokens
    (l : Lexer) :
    l.tokens.2.token = ending (PulledText.ofLexer l) := by
  induction l using token_induction with
  | hDone l hAhead =>
      have hEof := l.isEof_token_iff.mpr hAhead
      rw [tokens, if_pos hEof, skip_of_ahead_eq_nil l hAhead,
        TokenSource.ending_of_isEof hEof]
      rfl
  | hToken l hEof ih =>
      rw [tokens, if_neg (by simp [hEof]),
        ending_of_token l hEof]
      exact ih

theorem closed_tokens
    (l : Lexer) :
    l.tokens.2.stream.closed = l.stream.closed := by
  induction l using token_induction with
  | hDone l hAhead =>
      rw [tokens, if_pos (l.isEof_token_iff.mpr hAhead)]
      rfl
  | hToken l hEof ih =>
      rw [tokens, if_neg (by simp [hEof])]
      exact ih

/- After all tokens the end mark is read for ever. -/
theorem next?_iterate_tokens
    (l : Lexer)
    (hClosed : l.stream.closed = true)
    (n : Nat) :
    (skip^[n] l.tokens.2).next? =
      some (ending (PulledText.ofLexer l), l.tokens.2) := by
  have hStays := skip_of_ahead_eq_nil _ l.ahead_tokens
  rw [Function.iterate_fixed hStays, next?,
    l.closed_tokens, hClosed, next, hStays, token_tokens]
  rfl

end Lexer

end LosslessCss

------------------------------------------------------------
-- Whole Texts
------------------------------------------------------------

namespace LosslessCss

open TokenSource (upcoming ending)

namespace Token

/- A token is located by what is in front of it. -/
theorem Located.location_of_append
    {here : Location}
    {left right : List Token}
    {t : Token}
    (hLocated : Located here (left ++ t :: right)) :
    t.location = here.advanceBy (rawText left) :=
  (located_append.mp hLocated).2.1

end Token

namespace PulledText

/- The end mark is located like a token. -/
theorem located_tokenize
    (css : String)
    (here : Location) :
    Token.Located here (Lexer.tokenize css here) := by
  rw [tokenize_eq, Token.located_append, rawText_upcoming,
    ending_ofText]
  exact ⟨located_upcoming css here, rfl, trivial⟩

end PulledText

namespace Lexer

/-
  A whole text can be read.  Its tokens are not empty and
  are followed by one end mark, together they are the text,
  and each of them is located by its bytes, its line and its
  column.  After that the same end mark is read for ever.
-/
theorem tokens_partition
    (css : String)
    (here : Location) :
    ∃ ts last l,
      (ofText css here).tokens? = some (ts ++ [last], l) ∧
      tokenize css here = ts ++ [last] ∧
      (∀ t ∈ ts, t.isEof = false ∧ t.raw ≠ "") ∧
      (last.isEof = true ∧ last.raw = "") ∧
      Token.rawText (ts ++ [last]) = css ∧
      (∀ {left t right},
        ts ++ [last] = left ++ t :: right →
          t.location =
              here.advanceBy (Token.rawText left) ∧
            t.location.offset =
              here.offset +
                (Token.rawText left).utf8ByteSize ∧
            t.location.line =
              here.line +
                (Token.rawText left).toList.count '\n' ∧
            t.location.column =
              if '\n' ∈ (Token.rawText left).toList then
                1 +
                  (Text.lastLine
                    (Token.rawText left).toList).length
              else
                here.column + (Token.rawText left).length) ∧
      ∀ n, (skip^[n] l).next? = some (last, l) := by
  let start := ofText css here
  have hTokens : start.tokens.1 = tokenize css here := rfl
  have hParts := PulledText.tokenize_eq css here
  have hEnd := PulledText.ending_ofText css here
  refine
    ⟨upcoming (PulledText.ofText css here),
      ending (PulledText.ofText css here),
      start.tokens.2, ?_, hParts, ?_, ?_, ?_, ?_, ?_⟩
  · rw [← hParts, ← hTokens]
    exact start.tokens?_eq_tokens rfl
  · intro t hMem
    exact
      ⟨TokenSource.isEof_of_mem_upcoming hMem,
        start.raw_ne_empty_of_mem_upcoming t hMem⟩
  · rw [hEnd]
    exact ⟨rfl, rfl⟩
  · rw [Token.rawText_append, PulledText.rawText_upcoming,
      hEnd]
    simp [Token.rawText, Token.endOfInput]
  · intro left t right hSplit
    have hLocated := PulledText.located_tokenize css here
    rw [hParts, hSplit] at hLocated
    have hPlace := hLocated.location_of_append
    refine ⟨hPlace, ?_, ?_, ?_⟩
    · rw [hPlace, Location.advanceBy,
        Location.offset_advanceOver, Text.byteLength_toList]
    · rw [hPlace, Location.advanceBy,
        Location.line_advanceOver]
    · rw [hPlace, Location.advanceBy,
        Location.column_advanceOver, String.length_toList]
  · exact start.next?_iterate_tokens rfl

/-
  A character of two bytes and a line feed, in front of a
  quotation that the end of the text cuts off.
-/
theorem tokens_partition_lines :
    ∃ left t right,
      tokenize "é:\n\"q" ⟨3, 7, 40⟩ = left ++ t :: right ∧
      t.raw = "\"q" ∧
      t.location.offset =
        40 + (Token.rawText left).utf8ByteSize ∧
      t.location = ⟨4, 1, 44⟩ := by
  let css := "é:\n\"q"
  let left := (tokenize css ⟨3, 7, 40⟩).take 3
  let t : Token := ⟨.quotation "q", "\"q", ⟨4, 1, 44⟩⟩
  have hSplit :
      tokenize css ⟨3, 7, 40⟩ =
        left ++ t :: [Token.endOfInput ⟨4, 3, 46⟩] := by
    decide +kernel
  rcases tokens_partition css ⟨3, 7, 40⟩ with
    ⟨ts, last, l, -, hTokens, -, -, -, hPlaces, -⟩
  have hPlace := hPlaces (hTokens.symm.trans hSplit)
  exact ⟨left, t, _, hSplit, rfl, hPlace.2.1, rfl⟩

end Lexer

end LosslessCss
