import LosslessCss.Proofs.PartReading
import LosslessCss.Proofs.Partition
import LosslessCss.Proofs.TokenShapes

/-
  The cursor reads the tokens that the scanner finds.

  Each token is read if the stream is closed or if its
  lexeme is complete.  Otherwise it is waited for, and with
  it the list of all tokens.

  Key theorems include:
    * `Lexer.readIdentLike_eq`
    * `Lexer.readPlain_eq`
    * `Lexer.readKind_eq`
    * `Lexer.readToken_eq`
    * `Lexer.readTokens_eq`
-/

------------------------------------------------------------
-- Identifiers and Comments
------------------------------------------------------------

namespace LosslessCss

namespace Name

/- Names end where the text ends. -/
theorem complete_scan
    (input : List Char) :
    (scan input).complete = true := by
  fun_induction scan input with
  | case1 => rfl
  | case2 _ _ _ _ _ ih => exact ih
  | case3 _ _ _ _ ih => exact ih
  | case4 => rfl

end Name

namespace Lexer

variable {l : Lexer} {c : Char} {cs : List Char}

/- What is seen past the blanks is what follows them. -/
theorem char?_peek_pastBlanks
    (l : Lexer)
    (place : Nat) :
    (l.peek (l.pastBlanks place)).char? =
      ((l.stream.ahead.drop place).dropWhile
        Text.isBlank).head? := by
  fun_induction pastBlanks l place with
  | case1 place hBlank ih =>
      have hLess := lt_of_isBlank_peek hBlank
      rw [isBlank_peek, List.getElem?_eq_getElem hLess,
        Option.any_some] at hBlank
      rw [ih, List.drop_eq_getElem_cons hLess,
        List.dropWhile_cons_of_pos hBlank]
  | case2 place hBlank =>
      rw [isBlank_peek] at hBlank
      rw [char?_peek, ← List.head?_drop]
      rw [← List.head?_drop] at hBlank
      cases hDrop : l.stream.ahead.drop place with
      | nil => rfl
      | cons c cs =>
          rw [hDrop, List.head?_cons, Option.any_some]
            at hBlank
          rw [List.dropWhile_cons_of_neg hBlank]

theorem readFunction_eq
    (name : List Char)
    (hAhead : l.stream.ahead = '(' :: cs) :
    l.readFunction (String.ofList name) =
      l.await
        (if Scan.opensUrl name cs then
          (Url.scan cs).extend ['(']
        else
          ⟨.function (String.ofList name), ['('], cs,
            true⟩) := by
  have hFollows :
      Scan.quoteFollows cs =
        ((l.peek (l.pastBlanks 1)).char?.any
          Quotation.isQuote) := by
    rw [char?_peek_pastBlanks, hAhead]
    unfold Scan.quoteFollows
    split
    · rename_i hDrop
      rw [List.drop_one, List.tail_cons, hDrop]
      rfl
    · rename_i hDrop
      rw [List.drop_one, List.tail_cons, hDrop]
      rfl
  rw [readFunction, Scan.opensUrl, hFollows, step_eq hAhead,
    readUrl_eq, await_beyond, ahead_beyond]
  split
  · rename_i hUrl
    rw [hUrl]
    simp only
    split
    · rename_i hQuote
      rw [hQuote, await_of_complete (by rfl)]
      rfl
    · rename_i hQuote
      rw [Bool.eq_false_iff.mpr hQuote]
      rfl
  · rename_i hUrl
    rw [Bool.eq_false_iff.mpr hUrl,
      await_of_complete (by rfl)]
    rfl

theorem readIdentLike_eq
    (l : Lexer) :
    l.readIdentLike =
      l.await (Scan.identLike l.stream.ahead) := by
  rw [readIdentLike, readName_eq,
    await_of_complete (Name.complete_scan _),
    Option.bind_eq_bind, Option.bind_some]
  simp only
  rcases
    Text.stops_or_eq_cons '('
      (Name.scan l.stream.ahead).rest with
    hStops | ⟨rest, hRest⟩
  · have hOther :
        ¬ (l.beyond (Name.scan l.stream.ahead).raw
            (Name.scan l.stream.ahead).rest).peek 0 =
          .char '(' := by
      rw [peek_eq_char_iff, ← List.head?_eq_getElem?]
      intro hOpen
      cases hStops _ hOpen
    rw [if_neg hOther, Scan.identLike_of_stops hStops,
      await_of_complete rfl]
    rfl
  · rw [if_pos (peek_zero hRest), readFunction_eq _ hRest,
      await_beyond]
    cases hUrl :
        Scan.opensUrl (Name.scan l.stream.ahead).value rest with
    | true =>
        rw [Scan.identLike_of_url hRest hUrl]
        simp [Lexeme.extend]
    | false =>
        rw [Scan.identLike_of_function hRest hUrl]
        rfl

theorem eq_of_take_two
    {c d : Char}
    (hTake : cs.take 2 = [c, d]) :
    ∃ ds, cs = c :: d :: ds := by
  have hParts := List.take_append_drop 2 cs
  rw [hTake] at hParts
  exact ⟨cs.drop 2, hParts.symm⟩

theorem readComment_eq
    (l : Lexer) :
    l.readComment =
      l.await (Scan.comment l.stream.ahead) := by
  generalize hAhead : l.stream.ahead = input
  fun_induction Scan.comment input generalizing l with
  | case1 =>
      have hPass :
          commentPass l = some (.done () (l.beyond [] [])) := by
        have hAt : l.stream.ahead[0]? = none := by
          rw [hAhead]
          rfl
        rw [commentPass, preview_eq, hAhead, step_eq_self hAhead,
          beyond_nil hAhead]
        rcases peek_of_none hAt with hPeek | hPeek
        · rw [hPeek]
          rfl
        · rw [hPeek]
          rfl
      exact loop_returns hPass rfl rfl
  | case2 cs =>
      have hPass :
          commentPass l =
            some (.done () (l.beyond ['*', '/'] cs)) := by
        rw [commentPass, preview_eq, take_eq, hAhead]
        rfl
      exact loop_returns hPass rfl rfl
  | case3 c cs hNone ih =>
      have hPass :
          commentPass l = some (.more [c] (l.beyond [c] cs)) := by
        have hMark : (c :: cs).take 2 ≠ ['*', '/'] := by
          intro hTake
          rcases eq_of_take_two hTake with ⟨ds, hCons⟩
          rcases List.cons.inj hCons with ⟨hStar, hTail⟩
          exact hNone ds hStar hTail
        rw [commentPass, preview_eq, hAhead, List.drop_zero,
          if_neg hMark, peek_zero hAhead, step_eq hAhead]
      exact
        loop_beyond Prod.fst (c :: ·) hAhead (by simp) hPass
          (fun _ => rfl) (ih _ rfl)

end Lexer

end LosslessCss

------------------------------------------------------------
-- Tokens by Their First Characters
------------------------------------------------------------

namespace LosslessCss

namespace Lexer

variable {l : Lexer} {c : Char} {cs : List Char}

theorem continues_eq
    (l : Lexer) :
    (Name.isPart (l.peek 0).toChar || l.startsEscape 0) =
      Name.continues l.stream.ahead := by
  rw [toChar_peek, startsEscape_eq, List.drop_zero]
  cases l.stream.ahead with
  | nil => rfl
  | cons c cs => rfl

theorem readSingle_eq
    (kind : TokenKind)
    (hAhead : l.stream.ahead = c :: cs) :
    l.readSingle kind = l.await (Scan.single kind c cs) := by
  rw [readSingle, step_eq hAhead, await_of_complete rfl]
  rfl

theorem readHash_eq
    (hAhead : l.stream.ahead = '#' :: cs) :
    l.readHash = l.await (Scan.hash cs) := by
  rw [readHash, step_eq hAhead, continues_eq, ahead_beyond,
    Scan.hash]
  split
  · rw [readName_eq, ahead_beyond, Option.bind_eq_bind,
      ← await_beyond _ _ _ cs, ← bind_await]
  · exact readSingle_eq _ hAhead

theorem readAtSign_eq
    (hAhead : l.stream.ahead = '@' :: cs) :
    l.readAtSign = l.await (Scan.atSign cs) := by
  rw [readAtSign, step_eq hAhead, startsName_eq, ahead_beyond,
    Scan.atSign]
  split
  · rw [readName_eq, ahead_beyond, Option.bind_eq_bind,
      ← await_beyond _ _ _ cs, ← bind_await]
  · exact readSingle_eq _ hAhead

theorem readMinus_eq
    (hAhead : l.stream.ahead = '-' :: cs) :
    l.readMinus = l.await (Scan.minus cs) := by
  rw [readMinus, startsSigned_eq, startsName_eq, preview_eq,
    take_eq, readNumeric_eq, readIdentLike_eq, hAhead,
    Scan.minus]
  split
  · rfl
  · simp only [List.drop_zero, List.take_succ_cons,
      List.drop_succ_cons, List.cons.injEq, true_and]
    split
    · rw [await_of_complete (by rfl)]
    · split
      · rfl
      · exact readSingle_eq _ hAhead

theorem readLessThan_eq
    (hAhead : l.stream.ahead = '<' :: cs) :
    l.readLessThan = l.await (Scan.lessThan cs) := by
  rw [readLessThan, preview_eq, take_eq, hAhead,
    Scan.lessThan]
  simp only [List.drop_zero, List.take_succ_cons,
    List.drop_succ_cons, List.cons.injEq, true_and]
  split
  · rw [await_of_complete (by rfl)]
  · exact readSingle_eq _ hAhead

/- A character that no reader of its own is chosen for. -/
theorem readPlain_of_not_mem
    (hAhead : l.stream.ahead = c :: cs)
    (hFirst : c ∉ ['#', '@', '-', '<']) :
    l.readPlain c =
      if NumberPattern.starts (c :: cs) then
        l.readNumeric
      else if Name.startsName (c :: cs) then
        l.readIdentLike
      else
        l.readSingle (.delim c) := by
  simp only [List.mem_cons, List.not_mem_nil, or_false,
    not_or] at hFirst
  rcases hFirst with ⟨hHash, hAt, hMinus, hLess⟩
  rw [NumberPattern.starts_eq, readPlain, if_neg hHash]
  by_cases hPlus : c = '+'
  · subst hPlus
    rw [if_pos rfl, startsSigned_eq, hAhead]
    have hUnsigned :
        Numeral.startsUnsigned ('+' :: cs) = false :=
      rfl
    have hName : Name.startsName ('+' :: cs) = false := rfl
    rw [hUnsigned, hName, Bool.or_false]
    rfl
  by_cases hPoint : c = '.'
  · subst hPoint
    rw [if_neg hPlus, if_pos rfl, isDigit_peek, hAhead]
    have hUnsigned :
        (Numeral.startsSigned ('.' :: cs) ||
            Numeral.startsUnsigned ('.' :: cs)) =
          cs[0]?.any Char.isDigit := by
      cases cs with
      | nil => rfl
      | cons d ds => rfl
    have hName : Name.startsName ('.' :: cs) = false := rfl
    rw [hUnsigned, hName]
    rfl
  rw [if_neg hPlus, if_neg hPoint, if_neg hMinus,
    if_neg hLess, if_neg hAt]
  have hUnsigned :
      (Numeral.startsSigned (c :: cs) ||
          Numeral.startsUnsigned (c :: cs)) = c.isDigit := by
    simp [Numeral.startsSigned, Numeral.startsUnsigned,
      Numeral.startsDigit, hPlus, hMinus, hPoint]
  rw [hUnsigned]
  by_cases hSlash : c = '\\'
  · subst hSlash
    rw [if_pos rfl, startsEscape_eq, hAhead]
    rfl
  · rw [if_neg hSlash,
      Name.startsName_of_ne hMinus hSlash]

theorem readPlain_eq
    (hAhead : l.stream.ahead = c :: cs)
    (hMark : Scan.mark? c = none) :
    l.readPlain c = l.await (Scan.plain c cs) := by
  by_cases hFirst : c ∈ ['#', '@', '-', '<']
  · simp only [List.mem_cons, List.not_mem_nil, or_false]
      at hFirst
    rcases hFirst with rfl | rfl | rfl | rfl
    · exact readHash_eq hAhead
    · exact readAtSign_eq hAhead
    · exact readMinus_eq hAhead
    · exact readLessThan_eq hAhead
  · rw [readPlain_of_not_mem hAhead hFirst,
      Scan.plain_of_not_mem hFirst, hMark, readNumeric_eq,
      readIdentLike_eq, readSingle_eq _ hAhead, hAhead]
    split
    · rfl
    · split
      · rfl
      · rfl

theorem readKind_eq
    (l : Lexer) :
    l.readKind = l.await (Scan.token l.stream.ahead) := by
  rw [readKind, preview_eq, List.drop_zero]
  cases hAhead : l.stream.ahead with
  | nil =>
      have hAt : l.stream.ahead[0]? = none := by
        rw [hAhead]
        rfl
      have hEof : l.await (Scan.token []) = some (.eof, l) :=
        await_stop _ hAhead
      rw [hEof]
      rcases peek_of_none hAt with hPeek | hPeek
      · rw [hPeek]
        rfl
      · rw [hPeek]
        rfl
  | cons c cs =>
      cases hComment : Scan.startsComment (c :: cs) with
      | true =>
          rcases Scan.eq_of_startsComment hComment with
            ⟨ds, hCons⟩
          rw [hCons] at hAhead ⊢
          rw [take_eq, hAhead, readComment_eq]
          have hToken :
              Scan.token ('/' :: '*' :: ds) =
                ((Scan.comment ds).map fun text =>
                    TokenKind.comment
                      (String.ofList text)).extend
                  ['/', '*'] :=
            rfl
          rw [hToken, ← await_beyond _ _ _ ds, ← bind_await]
          rfl
      | false =>
          have hMarks : (c :: cs).take 2 ≠ ['/', '*'] := by
            intro hTake
            rcases eq_of_take_two hTake with ⟨ds, hCons⟩
            rw [hCons] at hComment
            cases hComment
          rw [if_neg hMarks, peek_zero hAhead]
          simp only
          split
          · rename_i hBlank
            rw [readBlanks_eq, hAhead,
              Scan.token_of_blank hBlank,
              await_of_complete rfl]
            rfl
          split
          · rename_i hQuote
            rw [step_eq hAhead, readQuoted_eq,
              Scan.token_of_quote hQuote, Quotation.scan,
              ← await_beyond _ _ _ cs, ← bind_await]
            rfl
          · rename_i hBlank hQuote
            cases hMark : Scan.mark? c with
            | some kind =>
                rw [Scan.token_of_mark hMark]
                exact readSingle_eq kind hAhead
            | none =>
                rw [Scan.token_of_plain hComment
                  (Bool.eq_false_iff.mpr hBlank)
                  (Bool.eq_false_iff.mpr hQuote)]
                exact readPlain_eq hAhead hMark

end Lexer

end LosslessCss

------------------------------------------------------------
-- Cutting Out the Text of a Token
------------------------------------------------------------

namespace LosslessCss

namespace Text

theorem byteLength_append
    (cs ds : List Char) :
    byteLength (cs ++ ds) = byteLength cs + byteLength ds := by
  induction cs with
  | nil => simp [byteLength]
  | cons c cs ih => simp [byteLength, ih, Nat.add_assoc]

theorem byteLength_reverse
    (cs : List Char) :
    byteLength cs.reverse = byteLength cs := by
  induction cs with
  | nil => rfl
  | cons c cs ih =>
      rw [List.reverse_cons, byteLength_append, ih]
      simp [byteLength, Nat.add_comm]

end Text

namespace CharStream

/- What the cursor has moved over is cut out again. -/
theorem slice_pass
    (s : CharStream)
    (taken rest : List Char) :
    (s.pass taken rest).slice s.position
        (s.pass taken rest).position =
      String.ofList taken := by
  have hPosition :
      (s.pass taken rest).position =
        s.position + Text.byteLength taken := by
    simp [position, pass, Text.byteLength_append,
      Text.byteLength_reverse, Nat.add_comm]
  have hContent :
      (s.pass taken rest).content =
        s.passed.reverse ++ (taken ++ rest) := by
    simp [content, pass]
  have hFirst :
      Text.splitAtByte s.position
          (s.passed.reverse ++ (taken ++ rest)) =
        some (s.passed.reverse, taken ++ rest) := by
    rw [position, ← Text.byteLength_reverse]
    exact Text.splitAtByte_append _ _
  rw [slice, hPosition, hContent, hFirst,
    if_pos (Nat.le_add_right _ _)]
  simp only
  rw [Nat.add_sub_cancel_left, Text.splitAtByte_append]

end CharStream

end LosslessCss

------------------------------------------------------------
-- All Tokens
------------------------------------------------------------

namespace LosslessCss

namespace Lexer

theorem readToken_eq
    (l : Lexer) :
    l.readToken = l.next? := by
  have hRaw :
      l.skip.stream.slice l.stream.position
          l.skip.stream.position =
        String.ofList l.lexeme.raw :=
    l.stream.slice_pass l.lexeme.raw l.lexeme.rest
  rw [readToken, readKind_eq, await, next?, lexeme]
  split
  · change
      some
        (Token.mk l.lexeme.value
          (l.skip.stream.slice l.stream.position
            l.skip.stream.position) l.here, l.skip) = _
    rw [hRaw]
    rfl
  · rfl

theorem advances_tokenPass :
    Advances tokenPass := by
  intro l items rest hPass
  rw [tokenPass, readToken_eq, next?] at hPass
  split at hPass
  · change
      (if l.token.isEof = true then
        some (Pass.done l.token l.skip)
      else
        some (.more [l.token] l.skip)) = _ at hPass
    split at hPass
    · cases hPass
    · cases hPass
      exact follows_beyond (Scan.token_splits _).symm
  · cases hPass

/-
  The loop over the tokens returns all of them, or one of
  them is waited for.
-/
theorem readTokens_eq
    (l : Lexer) :
    l.readTokens = l.tokens? := by
  fun_induction tokens? l with
  | case1 l hReady hEof =>
      have hPass :
          tokenPass l = some (.done l.token l.skip) := by
        rw [tokenPass, readToken_eq, next?, if_pos hReady]
        exact if_pos hEof
      rw [readTokens, loop_done hPass]
      rfl
  | case2 l hReady hEof ih =>
      have hPass :
          tokenPass l = some (.more [l.token] l.skip) := by
        rw [tokenPass, readToken_eq, next?, if_pos hReady]
        exact if_neg hEof
      have hLess :=
        length_ahead_skip_lt l
          (ahead_ne_nil_of_token l (by simpa using hEof))
      rw [← ih, readTokens, readTokens, loop_more hPass hLess,
        Option.map_map, Option.map_map]
      rfl
  | case3 l hReady =>
      have hPass : tokenPass l = none := by
        rw [tokenPass, readToken_eq, next?, if_neg hReady]
        rfl
      rw [readTokens, loop_never hPass]
      rfl

/- All tokens are read, or one of them has no end. -/
theorem exists_returns_tokenPass_iff
    (l : Lexer) :
    (∃ r, Returns tokenPass l r) ↔
      l.tokens?.isSome = true := by
  rw [← readTokens_eq, readTokens, Option.isSome_map,
    Option.isSome_iff_exists]
  exact
    exists_congr fun r =>
      (loop_eq_some_iff advances_tokenPass l r).symm

end Lexer

end LosslessCss
