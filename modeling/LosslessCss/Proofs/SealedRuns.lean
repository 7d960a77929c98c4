import LosslessCss.Proofs.ItemLists
import LosslessCss.Proofs.LexedTokens
import LosslessCss.Proofs.Locality
import LosslessCss.Proofs.Partition

/-
  Runs of tokens that can be cut out of a text.

  The tokens in front of a run can be cut off, because the
  lexer keeps nothing but its place.  The tokens after it can
  be cut off when the run is sealed: then it ends with a
  semicolon, a right brace or a comment, or a right brace
  follows, and none of the tokens looks past these.

  Key theorems include:
    * `PulledText.upcoming_eq_cons_iff`
    * `PulledText.upcoming_of_append`
    * `PulledText.upcoming_replace`
    * `PulledText.upcoming_of_sealed`
-/

------------------------------------------------------------
-- The First Token of a Text
------------------------------------------------------------

namespace LosslessCss

open TokenSource (upcoming)

namespace Lexer

/- The tokens only depend on the text and on the place. -/
theorem upcoming_congr
    {l l' : Lexer}
    (hAhead : l'.stream.ahead = l.stream.ahead)
    (hHere : l'.here = l.here) :
    upcoming (PulledText.ofLexer l') =
      upcoming (PulledText.ofLexer l) := by
  induction l using token_induction generalizing l' with
  | hDone l hNone =>
      rw [upcoming_of_ahead_eq_nil l hNone,
        upcoming_of_ahead_eq_nil l' (hAhead.trans hNone)]
  | hToken l hEof ih =>
      have hToken : l'.token = l.token := by
        simp [token, lexeme, hAhead, hHere]
      have hSkip :
          l'.skip.stream.ahead = l.skip.stream.ahead := by
        simp [skip, lexeme, CharStream.pass, hAhead]
      have hNext : l'.skip.here = l.skip.here := by
        rw [here_skip_eq_endLocation,
          here_skip_eq_endLocation, hToken]
      rw [upcoming_of_token l hEof,
        upcoming_of_token l' (by rw [hToken, hEof]), hToken,
        ih hSkip hNext]

end Lexer

namespace PulledText

theorem upcoming_empty
    (here : Location) :
    upcoming (ofText "" here) = [] :=
  Lexer.upcoming_of_ahead_eq_nil (Lexer.ofText "" here) rfl

/-
  The first token is what is scanned first, and the others
  are the tokens of what is left.
-/
theorem upcoming_eq_cons_iff
    {css : String}
    {here : Location}
    {t : Token}
    {ts : List Token} :
    upcoming (ofText css here) = t :: ts ↔
      ∃ rest complete,
        t.raw ≠ "" ∧
          Scan.token css.toList =
            ⟨t.kind, t.raw.toList, String.toList rest,
              complete⟩ ∧
          t.location = here ∧
          upcoming (ofText rest t.endLocation) = ts := by
  let l := Lexer.ofText css here
  by_cases hEmpty : css = ""
  · subst hEmpty
    simp +contextual [upcoming_empty, Scan.token, Lexeme.stop]
  have hAhead : l.stream.ahead ≠ [] := by
    simpa [l, Lexer.ofText, Lexer.ofStream,
      CharStream.ofText] using hEmpty
  have hEof : l.token.isEof = false := by
    simpa using mt l.isEof_token_iff.mp hAhead
  have hRest :
      ∀ rest, l.lexeme.rest = String.toList rest →
        upcoming (ofLexer l.skip) =
          upcoming (ofText rest l.token.endLocation) :=
    fun rest hRest =>
      Lexer.upcoming_congr hRest
        (by rw [l.here_skip_eq_endLocation,
          Lexer.here_ofText])
  rw [show ofText css here = ofLexer l from rfl,
    Lexer.upcoming_of_token l hEof]
  constructor
  · intro hTokens
    rcases List.cons.inj hTokens with ⟨rfl, hTail⟩
    refine
      ⟨String.ofList l.lexeme.rest, l.lexeme.complete,
        l.raw_token_ne_empty hEof, ?_, rfl, ?_⟩
    · simp only [Lexer.token, String.toList_ofList]
      rfl
    · rw [← hRest _ String.toList_ofList.symm, hTail]
  · rintro ⟨rest, complete, -, hScan, rfl, rfl⟩
    have hLexeme :
        l.lexeme =
          ⟨t.kind, t.raw.toList, rest.toList, complete⟩ :=
      hScan
    have hToken : l.token = t := by
      rw [Lexer.token, hLexeme, String.ofList_toList]
      rfl
    rw [hRest rest (by rw [hLexeme]), hToken]

/- The tokens in front of a run can be cut off. -/
theorem upcoming_of_append
    {css : String}
    {here : Location}
    {us ts : List Token}
    (hTokens : upcoming (ofText css here) = us ++ ts) :
    upcoming
        (ofText (Token.rawText ts)
          (here.advanceBy (Token.rawText us))) =
      ts := by
  induction us generalizing css here with
  | nil =>
      have hText := rawText_upcoming css here
      rw [hTokens, List.nil_append] at hText
      rw [hText]
      exact hTokens
  | cons u us ih =>
      rcases upcoming_eq_cons_iff.mp hTokens with
        ⟨rest, complete, -, -, rfl, hTail⟩
      have hPlace :
          u.location.advanceBy (Token.rawText (u :: us)) =
            u.endLocation.advanceBy (Token.rawText us) :=
        Location.advanceBy_append _ _ _
      rw [hPlace]
      exact ih hTail

end PulledText

end LosslessCss

------------------------------------------------------------
-- Replacing What Follows
------------------------------------------------------------

namespace LosslessCss

open TokenSource (upcoming)

namespace PulledText

/-
  The text from a fence on can be replaced.  The tokens in
  front of the fence stay the same, and those after it are
  read from the new text.
-/
theorem upcoming_replace
    {old new : String}
    {here : Location}
    {ts ws : List Token}
    (hFence : Text.Fence old.toList new.toList)
    (hTokens :
      upcoming (ofText (Token.rawText ts ++ old) here) =
        ts ++ ws) :
    upcoming (ofText (Token.rawText ts ++ new) here) =
      ts ++
        upcoming
          (ofText new
            (here.advanceBy (Token.rawText ts))) := by
  induction ts generalizing here with
  | nil => simp [Token.rawText, Location.advanceBy]
  | cons t ts ih =>
      rcases upcoming_eq_cons_iff.mp hTokens with
        ⟨rest, complete, hRaw, hScan, rfl, hTail⟩
      have hRest : rest = Token.rawText ts ++ old := by
        have hSplits :=
          Scan.token_splits
            (Token.rawText (t :: ts) ++ old).toList
        rw [hScan] at hSplits
        apply String.toList_injective
        simpa [Lexeme.Splits, Token.rawText] using hSplits
      subst hRest
      have hKept :
          (Scan.token
              (Token.rawText (t :: ts) ++ old).toList).rest =
            (Token.rawText ts).toList ++ old.toList := by
        rw [hScan, String.toList_append]
      have hNew := Scan.token_local hFence hKept
      have hPlace :
          t.location.advanceBy (Token.rawText (t :: ts)) =
            t.endLocation.advanceBy (Token.rawText ts) :=
        Location.advanceBy_append _ _ _
      refine
        upcoming_eq_cons_iff.mpr
          ⟨Token.rawText ts ++ new, complete, hRaw, ?_, rfl,
            ?_⟩
      · rw [hScan] at hNew
        simpa [Token.rawText, Lexeme.withRest] using hNew
      · rw [hPlace]
        exact ih hTail

end PulledText

end LosslessCss

------------------------------------------------------------
-- Seals
------------------------------------------------------------

namespace LosslessCss

open TokenSource (upcoming)

namespace Scan

/- A comment is read again when nothing follows it. -/
theorem token_of_comment
    {input : List Char}
    (hStarts : startsComment input = true) :
    token (token input).raw = (token input).withRest [] := by
  -- A comment that runs to the end of the text is not
  -- closed, and then nothing follows it.
  by_cases hRest : (token input).rest = []
  · have hRaw : (token input).raw = input := by
      have hSplits := token_splits input
      rwa [Lexeme.Splits, hRest, List.append_nil] at hSplits
    rw [hRaw, ← hRest]
    rfl
  cases input with
  | nil => cases hStarts
  | cons c cs =>
      let f (text : List Char) : TokenKind :=
        .comment (String.ofList text)
      have hFirst :
          ∀ {ds : List Char},
            startsComment (c :: ds) = true →
              token (c :: ds) =
                ((comment (ds.drop 1)).map f).extend
                  (c :: ds.take 1) := by
        intro ds hOpens
        rw [token, if_pos hOpens]
      rw [hFirst hStarts] at hRest ⊢
      rcases comment_localWhere hRest [] c f hStarts
        (List.nil_append _).symm with
        ⟨taken, hTaken, -, hAgain, hScan⟩
      simp only [List.append_nil] at hAgain hScan
      rw [hTaken, hFirst hAgain]
      exact hScan

theorem eq_of_mark
    {c : Char}
    {t : Token}
    (hMark : mark? c = some t.kind)
    (hSeal : Form.isSeal t = true) :
    c = ';' ∨ c = '}' := by
  rcases t with ⟨kind, raw, location⟩
  unfold mark? at hMark
  split at hMark <;> cases hMark <;>
    simp [Form.isSeal] at hSeal ⊢

/- A seal is a fence, and it is read again when it is alone. -/
theorem token_of_isSeal
    {input rest : List Char}
    {complete : Bool}
    {t : Token}
    (hScan :
      token input =
        ⟨t.kind, t.raw.toList, rest, complete⟩)
    (hSeal : Form.isSeal t = true) :
    (∀ tail, Text.Fenced (t.raw.toList ++ tail)) ∧
      token t.raw.toList =
        ⟨t.kind, t.raw.toList, [], complete⟩ := by
  have hKind : t.kind.isPunctuation = true := by
    unfold Form.isSeal at hSeal
    split at hSeal <;> simp_all [TokenKind.isPunctuation]
  have hCases :=
    isPunctuation_token_cases (by rw [hScan]; exact hKind)
  rcases hCases with
    rfl | hComment | ⟨c, cs, kind, rfl, hMark⟩
  · have hEof : t.kind = .eof :=
      (congrArg Lexeme.value hScan).symm
    simp [Form.isSeal, hEof] at hSeal
  · have hAgain := token_of_comment hComment
    rcases eq_of_startsComment hComment with ⟨cs, rfl⟩
    rcases (token_splits _).exists_cons
      (raw_token_ne_nil '/' ('*' :: cs)) with
      ⟨taken, hTaken, -⟩
    rw [hScan] at hAgain hTaken
    refine ⟨fun tail => ?_, hAgain⟩
    rw [show t.raw.toList = _ from hTaken]
    exact .slash _
  · rw [token_of_mark hMark] at hScan
    simp only [single, Lexeme.mk.injEq] at hScan
    rcases hScan with ⟨rfl, hRaw, -, rfl⟩
    rw [← hRaw]
    refine ⟨fun tail => ?_, token_of_mark hMark []⟩
    rcases eq_of_mark hMark hSeal with rfl | rfl
    · exact .semicolon tail
    · exact .rightCurly tail

end Scan

namespace PulledText

/- A sealed run can be cut off from what follows it. -/
theorem upcoming_of_sealed
    {css : String}
    {here : Location}
    {ts ws : List Token}
    (hTokens : upcoming (ofText css here) = ts ++ ws)
    (hSealed : Form.Sealed ts ws) :
    upcoming (ofText (Token.rawText ts) here) = ts := by
  have hText := rawText_upcoming css here
  rw [hTokens, Token.rawText_append] at hText
  cases hSealed with
  | brace hRest =>
      cases ws with
      | nil =>
          rw [Token.rawText, String.append_empty] at hText
          rw [hText, hTokens, List.append_nil]
      | cons w ws =>
          have hSpelled :=
            spelled_of_mem_upcoming css here w
              (by simp [hTokens])
          have hRaw :=
            hSpelled.raw_rightCurly (hRest w rfl)
          have hFence :
              Text.Fence (Token.rawText (w :: ws)).toList
                "".toList := by
            rw [Token.rawText, hRaw]
            exact
              ⟨by simp, by simpa using .rightCurly _, .nil⟩
          rw [← hText] at hTokens
          have hCut := upcoming_replace hFence hTokens
          rwa [String.append_empty, upcoming_empty,
            List.append_nil] at hCut
  | @token ts _ t hSeal =>
      -- The seal itself is the fence.  It is kept, and only
      -- what follows it goes.
      have hParts :
          upcoming
              (ofText
                (Token.rawText ts ++ Token.rawText (t :: ws))
                here) =
            ts ++ t :: ws := by
        rw [← hText] at hTokens
        simpa [Token.rawText, String.append_assoc]
          using hTokens
      rcases upcoming_eq_cons_iff.mp
          (upcoming_of_append hParts) with
        ⟨rest, complete, hRaw, hScan, hPlace, -⟩
      rcases Scan.token_of_isSeal hScan hSeal with
        ⟨hFenced, hAlone⟩
      have hLast :
          upcoming
              (ofText t.raw
                (here.advanceBy (Token.rawText ts))) =
            [t] :=
        upcoming_eq_cons_iff.mpr
          ⟨"", complete, hRaw, hAlone, hPlace,
            upcoming_empty _⟩
      have hFence :
          Text.Fence (Token.rawText (t :: ws)).toList
            t.raw.toList := by
        refine ⟨?_, ?_, by simpa using hFenced []⟩
        · simp [Token.rawText, hRaw]
        · rw [Token.rawText, String.toList_append]
          exact hFenced _
      have hCut := upcoming_replace hFence hParts
      rw [hLast] at hCut
      simpa [Token.rawText] using hCut

end PulledText

end LosslessCss
