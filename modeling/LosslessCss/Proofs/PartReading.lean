import LosslessCss.Proofs.CursorLoops

/-
  Reading the parts of tokens.

  The reader finds escapes, names, numerals, quotations and
  addresses where their scanners find them.  The ends of
  quotations and addresses are waited for: on an open stream
  that has run dry their passes stay where they are.

  Key theorems include:
    * `Lexer.readEscape_eq`
    * `Lexer.readName_eq`
    * `Lexer.readNumeric_eq`
    * `Lexer.readQuoted_eq`
    * `Lexer.readAddress_eq`
-/

------------------------------------------------------------
-- Escapes and Names
------------------------------------------------------------

namespace LosslessCss

namespace Lexer

variable {l : Lexer} {c : Char} {cs : List Char}

@[simp]
theorem startsEscape_eq
    (l : Lexer)
    (n : Nat) :
    l.startsEscape n =
      Escape.startsEscape (l.stream.ahead.drop n) := by
  have hFirst :
      l.stream.ahead[n]? = (l.stream.ahead.drop n)[0]? := by
    simp
  have hSecond :
      l.stream.ahead[n + 1]? =
        (l.stream.ahead.drop n)[1]? := by
    simp
  simp only [startsEscape, peek_eq_char_iff, char?_peek]
  rw [hFirst, hSecond]
  cases l.stream.ahead.drop n with
  | nil => rfl
  | cons c cs =>
      by_cases hSlash : c = '\\'
      · subst hSlash
        cases cs with
        | nil => rfl
        | cons d ds => rfl
      · simp [Escape.startsEscape_of_ne hSlash, hSlash]

theorem startsName_eq
    (l : Lexer) :
    l.startsName = Name.startsName l.stream.ahead := by
  simp only [startsName, startsEscape_eq, peek_eq_char_iff,
    toChar_peek]
  cases l.stream.ahead with
  | nil => rfl
  | cons c cs =>
      by_cases hMinus : c = '-'
      · subst hMinus
        cases cs with
        | nil => rfl
        | cons d ds =>
            simp [Name.startsName, Bool.beq_eq_decide_eq]
      by_cases hSlash : c = '\\'
      · subst hSlash
        rfl
      · simp [Name.startsName_of_ne hMinus hSlash, hMinus,
          hSlash]

theorem takeHexDigits_eq
    (l : Lexer)
    (n : Nat) :
    l.takeHexDigits n =
      (((l.stream.ahead.takeWhile
          Escape.isHexDigit).take n),
        l.beyond
          ((l.stream.ahead.takeWhile
            Escape.isHexDigit).take n)
          (l.stream.ahead.drop
            ((l.stream.ahead.takeWhile
              Escape.isHexDigit).take n).length)) := by
  induction n generalizing l with
  | zero => exact congrArg _ (beyond_nil rfl).symm
  | succ n ih =>
      rw [takeHexDigits, char?_peek]
      cases hAhead : l.stream.ahead with
      | nil => simp [beyond_nil hAhead]
      | cons c cs =>
          by_cases hDigit : Escape.isHexDigit c = true
          · rw [step_eq hAhead, toChar_peek, hAhead]
            simp [hDigit, ih]
          · simp [hDigit, beyond_nil hAhead]

/- One blank after an escape is moved over. -/
theorem blankStep_eq
    (l : Lexer) :
    (if (l.peek 0).isBlank then l.step else l) =
      l.beyond (Escape.takeBlank l.stream.ahead).1
        (Escape.takeBlank l.stream.ahead).2 := by
  rw [isBlank_peek]
  cases hAhead : l.stream.ahead with
  | nil => exact (beyond_nil hAhead).symm
  | cons c cs =>
      by_cases hBlank : Text.isBlank c = true
      · simp [Escape.takeBlank, hBlank, step_eq hAhead]
      · simp [Escape.takeBlank, hBlank, beyond_nil hAhead]

/- Where an escape starts, it is read as it is scanned. -/
theorem readEscape_eq
    (hAhead : l.stream.ahead = c :: cs)
    (hEscape : Escape.startsEscape (c :: cs) = true) :
    l.readEscape =
      ((Escape.scan cs).value,
        l.beyond (c :: (Escape.scan cs).raw)
          (Escape.scan cs).rest) := by
  cases cs with
  | nil =>
      unfold Escape.startsEscape at hEscape
      split at hEscape
      · rename_i hCons
        cases (List.cons.inj hCons).2
      · cases hEscape
  | cons d ds =>
      rw [readEscape, step_eq hAhead, finished_eq,
        takeHexDigits_eq]
      simp only [ahead_beyond, beyond_beyond, List.isEmpty_cons,
        Bool.and_false, Bool.false_eq_true, if_false]
      unfold Escape.scan
      simp only
      split
      · rename_i hNone
        have hDigits := List.isEmpty_iff.mp hNone
        simp only [hDigits]
        rw [toChar_peek, step_eq rfl, beyond_beyond]
        rfl
      · rw [blankStep_eq]
        simp

/- An escape is behind the place where it starts. -/
theorem escape_append
    (c : Char)
    (cs : List Char) :
    c :: cs =
      c :: (Escape.scan cs).raw ++ (Escape.scan cs).rest :=
  congrArg (c :: ·) (Escape.scan_splits cs).symm

theorem follows_readEscape
    (hEscape : l.startsEscape 0 = true) :
    l.Follows l.readEscape.2 := by
  rw [startsEscape_eq, List.drop_zero] at hEscape
  cases hAhead : l.stream.ahead with
  | nil =>
      rw [hAhead] at hEscape
      cases hEscape
  | cons c cs =>
      rw [hAhead] at hEscape
      rw [readEscape_eq hAhead hEscape]
      exact follows_beyond (hAhead.trans (escape_append c cs))

theorem readName_eq
    (l : Lexer) :
    l.readName = l.await (Name.scan l.stream.ahead) := by
  generalize hAhead : l.stream.ahead = input
  fun_induction Name.scan input generalizing l with
  | case1 =>
      have hPass :
          namePass l = some (.done () (l.beyond [] [])) := by
        rw [namePass, startsEscape_eq, toChar_peek, hAhead,
          beyond_nil hAhead]
        rfl
      exact loop_returns hPass rfl rfl
  | case2 c cs hEscape escape tail ih =>
      have hPass :
          namePass l =
            some
              (.more [escape.value]
                (l.beyond (c :: escape.raw) escape.rest)) := by
        rw [namePass, startsEscape_eq, hAhead,
          List.drop_zero, if_pos hEscape,
          readEscape_eq hAhead hEscape]
      have hSplit := hAhead.trans (escape_append c cs)
      exact
        loop_beyond Prod.fst (escape.value :: ·) hSplit
          (by simp) hPass (fun _ => rfl) (ih _ rfl)
  | case3 c cs hEscape hPart ih =>
      have hPass :
          namePass l = some (.more [c] (l.beyond [c] cs)) := by
        rw [namePass, startsEscape_eq, toChar_peek, hAhead,
          List.drop_zero, if_neg hEscape, step_eq hAhead]
        exact if_pos hPart
      exact
        loop_beyond Prod.fst (c :: ·) hAhead (by simp) hPass
          (fun _ => rfl) (ih _ rfl)
  | case4 c cs hEscape hPart =>
      have hPass :
          namePass l =
            some (.done () (l.beyond [] (c :: cs))) := by
        rw [namePass, startsEscape_eq, toChar_peek, hAhead,
          List.drop_zero, if_neg hEscape, beyond_nil hAhead]
        exact if_neg hPart
      exact loop_returns hPass rfl rfl

end Lexer

end LosslessCss

------------------------------------------------------------
-- Numerals
------------------------------------------------------------

namespace LosslessCss

open Numeral (takeSign takeDigits takeFraction takeExponent
  takeNumeral)

namespace Lexer

variable {l : Lexer} {c : Char} {cs : List Char}

theorem showsSign_zero
    (l : Lexer) :
    (if l.showsSign 0 then 1 else 0) =
      (takeSign l.stream.ahead).1.length := by
  simp only [showsSign, peek_eq_char_iff]
  cases l.stream.ahead with
  | nil => rfl
  | cons c cs =>
      by_cases hPlus : c = '+'
      · subst hPlus
        rfl
      by_cases hMinus : c = '-'
      · subst hMinus
        rfl
      · simp [takeSign, hPlus, hMinus]

theorem startsSigned_eq
    (l : Lexer) :
    l.startsSigned =
      Numeral.startsSigned l.stream.ahead := by
  simp only [startsSigned, showsSign, peek_eq_char_iff,
    isDigit_peek]
  cases l.stream.ahead with
  | nil => rfl
  | cons c cs =>
      have hUnsigned :
          (decide (cs[0]? = some '.') &&
              cs[1]?.any Char.isDigit ||
            cs[0]?.any Char.isDigit) =
            Numeral.startsUnsigned cs := by
        cases cs with
        | nil => rfl
        | cons d ds =>
            by_cases hPoint : d = '.'
            · subst hPoint
              cases ds with
              | nil => rfl
              | cons e es =>
                  simp [Numeral.startsUnsigned,
                    Numeral.startsDigit]
            · simp [Numeral.startsUnsigned,
                Numeral.startsDigit, hPoint]
      by_cases hPlus : c = '+'
      · subst hPlus
        simpa [Numeral.startsSigned] using hUnsigned
      by_cases hMinus : c = '-'
      · subst hMinus
        simpa [Numeral.startsSigned] using hUnsigned
      · simp [Numeral.startsSigned, hPlus, hMinus]

theorem readDigits_eq
    (mark : List Char)
    {tail : List Char}
    (hAhead : l.stream.ahead = mark ++ tail) :
    l.readDigits mark.length =
      some
        (mark ++ (takeDigits tail).1,
          l.beyond (mark ++ (takeDigits tail).1)
            (takeDigits tail).2) := by
  rw [readDigits, take_eq, readRun_eq, beyond_beyond, hAhead,
    List.take_left, List.drop_left]
  rfl

theorem readFraction_eq
    (l : Lexer) :
    l.readFraction =
      some
        ((takeFraction l.stream.ahead).1,
          l.beyond (takeFraction l.stream.ahead).1
            (takeFraction l.stream.ahead).2) := by
  simp only [readFraction, startsFraction, peek_eq_char_iff,
    isDigit_peek]
  cases hAhead : l.stream.ahead with
  | nil => simp [takeFraction, beyond_nil hAhead]
  | cons c cs =>
      by_cases hPoint : c = '.'
      · subst hPoint
        cases cs with
        | nil =>
            simp [takeFraction, Numeral.startsDigit,
              beyond_nil hAhead]
        | cons d ds =>
            by_cases hDigit : d.isDigit = true
            · have hRead :=
                readDigits_eq ['.', d] hAhead
              simpa [takeFraction, Numeral.startsDigit,
                takeDigits, hDigit] using hRead
            · simp [takeFraction, Numeral.startsDigit,
                hDigit, beyond_nil hAhead]
      · simp [takeFraction, hPoint, beyond_nil hAhead]

theorem startsExponent_eq
    (hAhead : l.stream.ahead = c :: cs) :
    l.startsExponent =
      (Numeral.isExponentMark c &&
        Numeral.startsDigit (takeSign cs).2) := by
  simp only [startsExponent, showsSign, peek_eq_char_iff,
    isDigit_peek, hAhead]
  have hDigit :
      ((decide (cs[0]? = some '+') ||
            decide (cs[0]? = some '-')) &&
            cs[1]?.any Char.isDigit ||
          cs[0]?.any Char.isDigit) =
        Numeral.startsDigit (takeSign cs).2 := by
    cases cs with
    | nil => rfl
    | cons d ds =>
        by_cases hPlus : d = '+'
        · subst hPlus
          cases ds with
          | nil => rfl
          | cons e es => simp [takeSign, Numeral.startsDigit]
        by_cases hMinus : d = '-'
        · subst hMinus
          cases ds with
          | nil => rfl
          | cons e es => simp [takeSign, Numeral.startsDigit]
        · simp [takeSign, Numeral.startsDigit, hPlus, hMinus]
  rw [← hDigit]
  simp [Numeral.isExponentMark, Bool.beq_eq_decide_eq]

theorem readExponent_eq
    (l : Lexer) :
    l.readExponent =
      some
        ((takeExponent l.stream.ahead).1,
          l.beyond (takeExponent l.stream.ahead).1
            (takeExponent l.stream.ahead).2) := by
  unfold readExponent
  cases hAhead : l.stream.ahead with
  | nil =>
      simp [startsExponent, hAhead, takeExponent,
        beyond_nil hAhead]
  | cons c cs =>
      rw [startsExponent_eq hAhead, takeExponent]
      simp only
      split
      · rename_i hStarts
        rw [Bool.and_eq_true] at hStarts
        cases cs with
        | nil => cases hStarts.2
        | cons d ds =>
            have hRead :=
              readDigits_eq [c, d] hAhead
            by_cases hPlus : d = '+'
            · subst hPlus
              exact hRead
            by_cases hMinus : d = '-'
            · subst hMinus
              exact hRead
            · have hDigit : d.isDigit = true := by
                simpa [takeSign, Numeral.startsDigit, hPlus,
                  hMinus] using hStarts.2
              simpa [takeSign, takeDigits, hPlus, hMinus,
                hDigit] using hRead
      · rw [beyond_nil hAhead]

theorem readNumeral_eq
    (l : Lexer) :
    l.readNumeral =
      some
        ((takeNumeral l.stream.ahead).1,
          l.beyond (takeNumeral l.stream.ahead).1
            (takeNumeral l.stream.ahead).2) := by
  have hSign :=
    (Numeral.takeSign_append l.stream.ahead).symm
  rw [readNumeral, showsSign_zero, readDigits_eq _ hSign]
  simp only [Option.bind_eq_bind, Option.bind_some,
    readFraction_eq, readExponent_eq, ahead_beyond, beyond_beyond]
  simp [takeNumeral]

theorem readNumeric_eq
    (l : Lexer) :
    l.readNumeric =
      l.await (Numeral.scan l.stream.ahead) := by
  rw [readNumeric, readNumeral_eq]
  simp only [Option.bind_eq_bind, Option.bind_some,
    startsName_eq, readName_eq, ahead_beyond]
  unfold Numeral.scan
  simp only
  split
  · rw [← await_beyond _ _ _ (takeNumeral l.stream.ahead).2,
      ← bind_await]
  · simp only [peek_eq_char_iff, ahead_beyond]
    cases hTail : (takeNumeral l.stream.ahead).2 with
    | nil =>
        rw [await_of_complete (by rfl)]
        rfl
    | cons c cs =>
        by_cases hPercent : c = '%'
        · subst hPercent
          rw [await_of_complete (by rfl), step_eq rfl,
            beyond_beyond]
          rfl
        · rw [if_neg (by simpa using hPercent)]
          split
          · rename_i hCons
            exact absurd (List.cons.inj hCons).1 hPercent
          · rw [await_of_complete (by rfl)]
            rfl

end Lexer

end LosslessCss

------------------------------------------------------------
-- Quotations
------------------------------------------------------------

namespace LosslessCss

namespace Lexer

variable {l : Lexer}

@[simp]
theorem startsFold_eq
    (l : Lexer) :
    l.startsFold = Quotation.startsFold l.stream.ahead := by
  simp only [startsFold, peek_eq_char_iff]
  cases l.stream.ahead with
  | nil => rfl
  | cons c cs =>
      cases cs with
      | nil => simp [Quotation.startsFold]
      | cons d ds =>
          by_cases hFold : c = '\\' ∧ d = '\n'
          · rcases hFold with ⟨rfl, rfl⟩
            rfl
          · unfold Quotation.startsFold
            split
            · rename_i hCons
              rcases List.cons.inj hCons with ⟨rfl, hTail⟩
              exact absurd ⟨rfl, (List.cons.inj hTail).1⟩
                hFold
            · simpa using hFold

theorem advances_quotedPass
    (quote : Char) :
    Advances (quotedPass quote) := by
  intro l items rest hPass
  unfold quotedPass at hPass
  split at hPass
  · cases hPass
  split at hPass
  · cases hPass
  split at hPass
  · cases hPass
  split at hPass
  · cases hPass
    rw [take_eq]
    exact follows_beyond (List.take_append_drop _ _).symm
  split at hPass
  · rename_i hEscape
    cases hPass
    exact follows_readEscape hEscape
  · cases hPass
    exact l.follows_step

theorem readQuoted_eq
    (quote : Char)
    (l : Lexer) :
    l.readQuoted quote =
      l.await (Quotation.scanBody quote l.stream.ahead) := by
  generalize hAhead : l.stream.ahead = input
  fun_induction Quotation.scanBody quote input generalizing l with
  | case1 =>
      rw [await_cutOff _ hAhead]
      cases hClosed : l.stream.closed with
      | true =>
          have hPass :
              quotedPass quote l = some (.done false l) := by
            simp [quotedPass, hAhead, hClosed]
          rw [readQuoted, loop_done hPass]
          rfl
      | false =>
          -- The end is pushed as a character, for ever.
          have hPass :
              quotedPass quote l =
                some (.more ['\x00'] l) := by
            simp [quotedPass, hAhead, hClosed,
              step_eq_self hAhead, Quotation.startsFold,
              Escape.startsEscape]
          rw [readQuoted, loop_again hPass]
          rfl
  | case2 cs =>
      have hPass :
          quotedPass quote l =
            some (.done false (l.beyond [quote] cs)) := by
        simp [quotedPass, hAhead, step_eq hAhead]
      exact loop_returns hPass rfl rfl
  | case3 cs hEnd =>
      have hPass :
          quotedPass quote l =
            some (.done true (l.beyond [] ('\n' :: cs))) := by
        simp [quotedPass, hAhead, hEnd, beyond_nil hAhead]
      exact loop_returns hPass rfl rfl
  | case4 c cs hEnd hFeed hFold ih =>
      have hPass :
          quotedPass quote l =
            some
              (.more []
                (l.beyond (c :: cs.take 1) (cs.drop 1))) := by
        simp [quotedPass, take_eq, hAhead, hEnd, hFeed, hFold]
      have hSplit :
          l.stream.ahead = c :: cs.take 1 ++ cs.drop 1 := by
        rw [hAhead, List.cons_append, List.take_append_drop]
      exact
        loop_beyond quotedBody id hSplit (by simp) hPass
          (fun _ => rfl) (ih _ rfl)
  | case5 c cs hEnd hFeed hFold hEscape escape tail ih =>
      have hPass :
          quotedPass quote l =
            some
              (.more [escape.value]
                (l.beyond (c :: escape.raw) escape.rest)) := by
        simp [quotedPass, hAhead, hEnd, hFeed, hFold, hEscape,
          readEscape_eq hAhead hEscape, escape]
      have hSplit := hAhead.trans (escape_append c cs)
      exact
        loop_beyond quotedBody
          (Quotation.Body.cons escape.value) hSplit (by simp)
          hPass (fun _ => rfl) (ih _ rfl)
  | case6 c cs hEnd hFeed hFold hEscape ih =>
      have hPass :
          quotedPass quote l =
            some (.more [c] (l.beyond [c] cs)) := by
        simp [quotedPass, hAhead, hEnd, hFeed, hFold, hEscape,
          step_eq hAhead]
      exact
        loop_beyond quotedBody
          (Quotation.Body.cons c) hAhead (by simp) hPass
          (fun _ => rfl) (ih _ rfl)

/- A quotation ends unless it is cut off and may go on. -/
theorem exists_returns_quotedPass_iff
    (quote : Char)
    (l : Lexer) :
    (∃ r, Returns (quotedPass quote) l r) ↔
      (l.stream.closed ||
        (Quotation.scanBody quote
          l.stream.ahead).complete) = true :=
  exists_returns_iff (advances_quotedPass quote)
    (readQuoted_eq quote l)

end Lexer

end LosslessCss

------------------------------------------------------------
-- Addresses
------------------------------------------------------------

namespace LosslessCss

open Url (scanRemnants scanEnd scanAddress)

namespace Lexer

variable {l rest : Lexer} {cs : List Char}

theorem advances_remnantsPass :
    Advances remnantsPass := by
  intro l items rest hPass
  unfold remnantsPass at hPass
  split at hPass
  · cases hPass
  split at hPass
  · cases hPass
  split at hPass
  · rename_i hEscape
    cases hPass
    exact follows_readEscape hEscape
  · cases hPass
    exact l.follows_step

/- What is spoiled is returned, once its end is found. -/
theorem spoiledPass_ne_more
    {items : List Char} :
    l.spoiledPass ≠ some (.more items rest) := by
  unfold spoiledPass
  cases l.loop remnantsPass with
  | none => simp
  | some r => simp

theorem advances_addressPass :
    Advances addressPass := by
  intro l items rest hPass
  unfold addressPass at hPass
  split at hPass
  · cases hPass
  split at hPass
  · cases hPass
  split at hPass
  · rw [readBlanks_eq, Option.bind_eq_bind, Option.bind_some,
      closingPass] at hPass
    split at hPass
    · cases hPass
      exact
        follows_beyond List.takeWhile_append_dropWhile.symm
    · exact absurd hPass spoiledPass_ne_more
  split at hPass
  · exact absurd hPass spoiledPass_ne_more
  split at hPass
  · split at hPass
    · rename_i hEscape
      cases hPass
      exact follows_readEscape hEscape
    · exact absurd hPass spoiledPass_ne_more
  · cases hPass
    exact l.follows_step

theorem loop_remnantsPass_eq
    (l : Lexer) :
    (l.loop remnantsPass).map
        (Prod.map (fun _ => addressBody ([], true)) id) =
      l.await (scanRemnants l.stream.ahead) := by
  generalize hAhead : l.stream.ahead = input
  fun_induction scanRemnants input generalizing l with
  | case1 =>
      rw [await_cutOff _ hAhead]
      cases hClosed : l.stream.closed with
      | true =>
          have hPass :
              remnantsPass l = some (.done () l) := by
            simp [remnantsPass, hAhead, hClosed]
          rw [loop_done hPass]
          rfl
      | false =>
          have hPass :
              remnantsPass l = some (.more [] l) := by
            simp [remnantsPass, hAhead, hClosed,
              step_eq_self hAhead, Escape.startsEscape]
          rw [loop_again hPass]
          rfl
  | case2 cs =>
      have hPass :
          remnantsPass l =
            some (.done () (l.beyond [')'] cs)) := by
        simp [remnantsPass, hAhead, step_eq hAhead]
      exact loop_returns hPass rfl rfl
  | case3 c cs hEnd hEscape escape ih =>
      have hPass :
          remnantsPass l =
            some
              (.more []
                (l.beyond (c :: escape.raw) escape.rest)) := by
        simp [remnantsPass, hAhead, hEnd, hEscape,
          readEscape_eq hAhead hEscape, escape]
      have hSplit := hAhead.trans (escape_append c cs)
      exact
        loop_beyond (fun _ => addressBody ([], true)) id
          hSplit (by simp) hPass (fun _ => rfl) (ih _ rfl)
  | case4 c cs hEnd hEscape ih =>
      have hPass :
          remnantsPass l =
            some (.more [] (l.beyond [c] cs)) := by
        simp [remnantsPass, hAhead, hEnd, hEscape,
          step_eq hAhead]
      exact
        loop_beyond (fun _ => addressBody ([], true)) id
          hAhead (by simp) hPass (fun _ => rfl) (ih _ rfl)

theorem exists_returns_remnantsPass_iff
    (l : Lexer) :
    (∃ r, Returns remnantsPass l r) ↔
      (l.stream.closed ||
        (scanRemnants l.stream.ahead).complete) = true :=
  exists_returns_iff advances_remnantsPass
    l.loop_remnantsPass_eq

/- An address that is spoiled ends with its remnants. -/
theorem readAddress_of_spoiled
    (hPass : addressPass l = rest.spoiledPass) :
    l.readAddress =
      rest.await (scanRemnants rest.stream.ahead) := by
  rw [← loop_remnantsPass_eq, readAddress]
  rw [spoiledPass] at hPass
  cases hLoop : rest.loop remnantsPass with
  | none =>
      rw [hLoop] at hPass
      rw [loop_never hPass]
      rfl
  | some r =>
      rw [hLoop] at hPass
      rw [loop_done hPass]
      rfl

theorem readAddress_nil
    (hAhead : l.stream.ahead = []) :
    l.readAddress =
      l.await (.cutOff ⟨[], false⟩) := by
  rw [await_cutOff _ hAhead]
  cases hClosed : l.stream.closed with
  | true =>
      have hPass : addressPass l = some (.done false l) := by
        simp [addressPass, hAhead, hClosed]
      rw [readAddress, loop_done hPass]
      rfl
  | false =>
      have hPass :
          addressPass l = some (.more ['\x00'] l) := by
        simp [addressPass, hAhead, hClosed, step_eq_self hAhead]
      rw [readAddress, loop_again hPass]
      rfl

theorem readAddress_close
    (hAhead : l.stream.ahead = ')' :: cs) :
    l.readAddress =
      l.await ⟨⟨[], false⟩, [')'], cs, true⟩ := by
  have hPass :
      addressPass l =
        some (.done false (l.beyond [')'] cs)) := by
    simp [addressPass, hAhead, step_eq hAhead]
  exact loop_returns hPass rfl rfl

/- What follows the blanks decides whether it is spoiled. -/
theorem readAddress_of_closing
    {blanks others : List Char}
    (hSplit : l.stream.ahead = blanks ++ others)
    (hSome : blanks ≠ [])
    (hPass :
      addressPass l = (l.beyond blanks others).closingPass) :
    l.readAddress =
      l.await ((scanEnd others).extend blanks) := by
  have hGoesOn
      {lexeme : Lexeme Url.Body}
      (hShows :
        ((l.beyond blanks others).peek 0 = .char ')' ||
          (l.beyond blanks others).finished) = true)
      (hTail :
        (l.beyond blanks others).readAddress =
          (l.beyond blanks others).await lexeme) :
      l.readAddress = l.await (lexeme.extend blanks) := by
    rw [closingPass, if_pos hShows] at hPass
    exact
      loop_beyond addressBody id hSplit hSome hPass
        (fun _ => rfl) hTail
  have hSpoiled
      (hShows :
        ((l.beyond blanks others).peek 0 = .char ')' ||
          (l.beyond blanks others).finished) = false) :
      l.readAddress =
        (l.beyond blanks others).await
          (scanRemnants others) := by
    rw [closingPass, hShows] at hPass
    exact readAddress_of_spoiled hPass
  cases others with
  | nil =>
      -- An open stream is not finished, even if it has run
      -- dry: the end of a spoiled address is waited for.
      cases hClosed : l.stream.closed with
      | true =>
          apply hGoesOn
          · simp [hClosed]
          · exact readAddress_nil rfl
      | false =>
          rw [hSpoiled, ← await_beyond _ _ _ [], scanRemnants,
            scanEnd, await_cutOff _ rfl, await_cutOff _ rfl,
            closed_beyond, hClosed]
          · rfl
          · simp [hClosed]
  | cons d ds =>
      by_cases hEnd : d = ')'
      · subst hEnd
        apply hGoesOn
        · simp
        · exact readAddress_close rfl
      · rw [scanEnd, if_neg hEnd,
          ← await_beyond _ _ _ (d :: ds)]
        apply hSpoiled
        simp [hEnd]

theorem readAddress_eq
    (l : Lexer) :
    l.readAddress =
      l.await (scanAddress l.stream.ahead) := by
  generalize hAhead : l.stream.ahead = input
  fun_induction scanAddress input generalizing l with
  | case1 => exact readAddress_nil hAhead
  | case2 cs => exact readAddress_close hAhead
  | case3 c cs hEnd hBlank =>
      have hSplit :
          l.stream.ahead =
            (c :: cs).takeWhile Text.isBlank ++
              (c :: cs).dropWhile Text.isBlank := by
        rw [List.takeWhile_append_dropWhile, hAhead]
      apply readAddress_of_closing hSplit
      · simp [hBlank]
      · simp [addressPass, hAhead, hEnd, hBlank,
          readBlanks_eq]
  | case4 c cs hEnd hBlank hSpoils =>
      rw [← hAhead]
      apply readAddress_of_spoiled
      simp [addressPass, hAhead, hEnd, hBlank, hSpoils]
  | case5 c cs hEnd hBlank hSpoils hEscape escape tail ih =>
      obtain rfl : c = '\\' := by
        by_contra hOther
        rw [Escape.startsEscape_of_ne hOther] at hEscape
        cases hEscape
      have hPass :
          addressPass l =
            some
              (.more [escape.value]
                (l.beyond ('\\' :: escape.raw)
                  escape.rest)) := by
        simp [addressPass, hAhead, hBlank, hSpoils, hEscape,
          readEscape_eq hAhead hEscape, escape]
      have hSplit := hAhead.trans (escape_append '\\' cs)
      exact
        loop_beyond addressBody (Url.Body.cons escape.value)
          hSplit (by simp) hPass (fun _ => rfl) (ih _ rfl)
  | case6 cs hEnd hBlank hSpoils hEscape =>
      rw [← hAhead]
      apply readAddress_of_spoiled
      simp [addressPass, hAhead, hEnd, hBlank, hSpoils, hEscape]
  | case7 c cs hEnd hBlank hSpoils hEscape hSlash ih =>
      have hPass :
          addressPass l = some (.more [c] (l.beyond [c] cs)) := by
        simp [addressPass, hAhead, hEnd, hBlank, hSpoils,
          hSlash, step_eq hAhead]
      exact
        loop_beyond addressBody (Url.Body.cons c) hAhead
          (by simp) hPass (fun _ => rfl) (ih _ rfl)

theorem exists_returns_addressPass_iff
    (l : Lexer) :
    (∃ r, Returns addressPass l r) ↔
      (l.stream.closed ||
        (scanAddress l.stream.ahead).complete) = true :=
  exists_returns_iff advances_addressPass l.readAddress_eq

theorem readUrl_eq
    (l : Lexer) :
    l.readUrl = l.await (Url.scan l.stream.ahead) := by
  rw [readUrl, readBlanks_eq, Option.bind_eq_bind,
    Option.bind_some, Option.bind_eq_bind, readAddress_eq,
    Url.scan, ← await_beyond _ _ _
      (l.stream.ahead.dropWhile Text.isBlank), ← bind_await]
  rfl

end Lexer

end LosslessCss
