import LosslessCss.Proofs.TokenShapes

/-
  Where tokens end.

  A token is read again from its own text alone, because the
  characters that follow it only say where it ends.  The
  exceptions are a spoiled quotation, which needs the line
  feed after it, and a function that would be an address if
  no quote followed.

  No token is shorter than it could be: what follows it
  cannot be added to it.

  Key definitions include:
    * `Token.Maximal`

  Key theorems include:
    * `Url.scan_alone`
    * `Scan.Lexed.alone`
    * `Lexer.tokenize_alone`
    * `Lexer.tokenize_maximal`
-/

------------------------------------------------------------
-- Addresses Alone
------------------------------------------------------------

namespace LosslessCss

open Text (Stops)

namespace Url

theorem scanRemnants_alone
    (input : List Char) :
    scanRemnants (scanRemnants input).raw =
      (scanRemnants input).withRest [] := by
  fun_induction scanRemnants input with
  | case1 =>
      simp only [Lexeme.cutOff]
      rw [scanRemnants]
      rfl
  | case2 cs =>
      rw [scanRemnants, if_pos rfl]
      rfl
  | case3 c cs hParen hEscape escape ih =>
      have hSome := Escape.ne_nil_of_startsEscape hEscape
      have hScan :=
        Escape.scan_raw_front hSome
          ⟨_, scanRemnants_splits escape.rest⟩
      have hStarts :=
        Escape.startsEscape_raw hEscape
          (scanRemnants escape.rest).raw
      simp only [Lexeme.extend, List.cons_append]
      rw [scanRemnants, if_neg hParen, if_pos hStarts]
      simp only [escape, hScan, Lexeme.withRest,
        Lexeme.extend, ih, List.cons_append]
  | case4 c cs hParen hEscape ih =>
      have hStarts :=
        Escape.startsEscape_of_front (by simpa using hEscape)
          ⟨_, scanRemnants_splits cs⟩
      simp only [Lexeme.extend, List.cons_append,
        List.nil_append]
      rw [scanRemnants, if_neg hParen,
        if_neg (by simp [hStarts]), ih]
      rfl

theorem scanEnd_alone
    (input : List Char) :
    scanEnd (scanEnd input).raw =
      (scanEnd input).withRest [] := by
  cases input with
  | nil => rfl
  | cons c cs =>
      rw [scanEnd]
      by_cases hParen : c = ')'
      · rw [if_pos hParen, scanEnd, if_pos hParen]
        rfl
      · rw [if_neg hParen]
        have hScan := scanRemnants_alone (c :: cs)
        rcases (scanRemnants_splits (c :: cs)).exists_cons
          (raw_scanRemnants_ne_nil c cs) with
          ⟨taken, hTaken, -⟩
        rw [hTaken] at hScan ⊢
        rw [scanEnd, if_neg hParen]
        exact hScan

theorem scanAddress_alone
    (input : List Char) :
    scanAddress (scanAddress input).raw =
      (scanAddress input).withRest [] := by
  fun_induction scanAddress input with
  | case1 =>
      simp only [Lexeme.cutOff]
      rw [scanAddress]
      rfl
  | case2 cs =>
      rw [scanAddress, if_pos rfl]
      rfl
  | case3 c cs hParen hBlank =>
      let tail := (c :: cs).dropWhile Text.isBlank
      have hScan := scanEnd_alone tail
      have hStops :
          Stops Text.isBlank (scanEnd tail).raw :=
        (Text.stops_dropWhile _ _).of_front
          ⟨_, scanEnd_splits tail⟩
      have hTake := Text.takeWhile_run hStops (c :: cs)
      have hDrop := Text.dropWhile_run hStops (c :: cs)
      have hTaken :
          (c :: cs).takeWhile Text.isBlank =
            c :: cs.takeWhile Text.isBlank :=
        List.takeWhile_cons_of_pos hBlank
      simp only [Lexeme.extend]
      rw [hTaken, List.cons_append] at hTake hDrop ⊢
      rw [scanAddress, if_neg hParen, if_pos hBlank, hTake,
        hDrop, hScan]
      rfl
  | case4 c cs hParen hBlank hSpoils =>
      have hScan := scanRemnants_alone (c :: cs)
      rcases (scanRemnants_splits (c :: cs)).exists_cons
        (raw_scanRemnants_ne_nil c cs) with
        ⟨taken, hTaken, -⟩
      rw [hTaken] at hScan ⊢
      rw [scanAddress, if_neg hParen, if_neg hBlank,
        if_pos hSpoils]
      exact hScan
  | case5 c cs hParen hBlank hSpoils hEscape escape tail ih =>
      have hSome := Escape.ne_nil_of_startsEscape hEscape
      have hScan :=
        Escape.scan_raw_front hSome
          ⟨_, scanAddress_splits escape.rest⟩
      have hStarts :=
        Escape.startsEscape_raw hEscape tail.raw
      simp only [Lexeme.extend, Lexeme.map, List.cons_append]
      rw [scanAddress, if_neg hParen, if_neg hBlank,
        if_neg hSpoils, if_pos hStarts]
      simp only [escape, tail, hScan, Lexeme.withRest,
        Lexeme.extend, Lexeme.map, ih, List.cons_append]
  | case6 cs hParen hBlank hSpoils hEscape =>
      have hScan := scanRemnants_alone ('\\' :: cs)
      rcases (scanRemnants_splits ('\\' :: cs)).exists_cons
        (raw_scanRemnants_ne_nil '\\' cs) with
        ⟨taken, hTaken, hRest⟩
      have hStarts :=
        Escape.startsEscape_of_front (by simpa using hEscape)
          ⟨_, hRest.symm⟩
      rw [hTaken] at hScan ⊢
      rw [scanAddress, if_neg hParen, if_neg hBlank,
        if_neg hSpoils, if_neg (by simp [hStarts]),
        if_pos rfl]
      exact hScan
  | case7 c cs hParen hBlank hSpoils hEscape hSlash ih =>
      simp only [Lexeme.extend, Lexeme.map, List.cons_append,
        List.nil_append]
      rw [scanAddress, if_neg hParen, if_neg hBlank,
        if_neg hSpoils,
        if_neg (by simp [Escape.startsEscape_of_ne hSlash]),
        if_neg hSlash, ih]
      rfl

/- An address is read again when nothing follows it. -/
theorem scan_alone
    (input : List Char) :
    scan (scan input).raw = (scan input).withRest [] := by
  let tail := input.dropWhile Text.isBlank
  have hStops :
      Stops Text.isBlank (scanAddress tail).raw :=
    (Text.stops_dropWhile _ _).of_front
      ⟨_, scanAddress_splits tail⟩
  have hRaw :
      (scan input).raw =
        input.takeWhile Text.isBlank ++
          (scanAddress tail).raw :=
    rfl
  rw [hRaw, scan, Text.takeWhile_run hStops,
    Text.dropWhile_run hStops, scanAddress_alone]
  rfl

end Url

end LosslessCss

------------------------------------------------------------
-- Tokens Alone
------------------------------------------------------------

namespace LosslessCss

open Text (Stops)
open Spelling (Part Run parts unescape)
open TokenSource (upcoming)

/-
  Whether what follows the token has a say in what it is: a
  line feed that spoils a quotation, or a quote after an
  opening parenthesis.
-/
def TokenKind.looksAhead : TokenKind → Bool
| .badQuotation _ => true
| .function name => Text.sameLetters name "url"
| _ => false

namespace Scan

theorem NameFirst.of_front
    {b rest less : List Char}
    (hFirst : NameFirst (b ++ rest))
    (hRun : Run Part.inName b rest)
    (hLess : less <+: rest) :
    NameFirst (b ++ less) := by
  have hFront : b ++ less <+: b ++ rest :=
    (List.prefix_append_right_inj b).mpr hLess
  exact
    ⟨Name.startsName_of_run hFirst.starts hRun less,
      hFirst.blank.of_front hFront, fun hArrow =>
        hFirst.arrow (hArrow.trans hFront)⟩

/- Without what follows, even less can start. -/
theorem Delimits.alone
    {c : Char}
    {rest : List Char}
    (hOther : Delimits c rest) :
    Delimits c [] := by
  refine
    ⟨?_, hOther.blank, hOther.quote, hOther.mark, ?_, ?_, ?_,
      fun _ => rfl, fun _ => rfl⟩
  · unfold startsComment
    split
    · rename_i hCons
      cases hCons
    · rfl
  · rw [Bool.eq_false_iff]
    intro hStarts
    rcases NumberPattern.starts_iff.mp hStarts with
      ⟨n, hFront, hMatch⟩
    have hLonger : n <+: c :: rest :=
      hFront.trans ⟨rest, rfl⟩
    have hFound :=
      NumberPattern.starts_iff.mpr ⟨n, hLonger, hMatch⟩
    rw [hOther.numeral] at hFound
    cases hFound
  · by_cases hMinus : c = '-'
    · rw [hMinus]
      rfl
    by_cases hSlash : c = '\\'
    · rw [hSlash]
      rfl
    have hName := hOther.name
    rw [Name.startsName_of_ne hMinus hSlash] at hName ⊢
    exact hName
  · intro hFront
    have hLength := hFront.length_le
    simp at hLength

theorem opensUrl_of_front
    {name x less : List Char}
    (hUrl : opensUrl name x = true)
    (hLess : less <+: x) :
    opensUrl name less = true := by
  rcases hLess with ⟨tail, rfl⟩
  have hNone :
      quoteFollows (less ++ tail) = false →
        quoteFollows less = false := by
    unfold quoteFollows
    rw [List.dropWhile_append]
    cases less.dropWhile Text.isBlank with
    | nil => exact fun _ => rfl
    | cons d ds => exact id
  simp only [opensUrl, Bool.and_eq_true,
    Bool.not_eq_true_eq_eq_false] at hUrl ⊢
  exact ⟨hUrl.1, hNone hUrl.2⟩

/- An address opens in the same way in its own text. -/
theorem address_alone
    {b x : List Char}
    (hFirst : NameFirst (b ++ '(' :: x))
    (hRun : Run Part.inName b ('(' :: x))
    (hUrl : opensUrl (unescape b) x = true) :
    NameFirst (b ++ '(' :: (Url.scan x).raw) ∧
      Run Part.inName b ('(' :: (Url.scan x).raw) ∧
      opensUrl (unescape b) (Url.scan x).raw = true := by
  have hLess : (Url.scan x).raw <+: x :=
    ⟨_, Url.scan_splits x⟩
  exact
    ⟨hFirst.of_front hRun (by simpa using hLess),
      hRun.of_mark (by decide) hLess,
      opensUrl_of_front hUrl hLess⟩

/- The shape of a token does not need what follows it. -/
theorem Lexed.alone
    {kind : TokenKind}
    {raw rest : List Char}
    (hLexed : Lexed kind raw rest)
    (hAhead : kind.looksAhead = false) :
    Lexed kind raw [] := by
  cases hLexed with
  | eof => exact .eof
  | blanks hSome hAll hStops =>
      exact .blanks hSome hAll (by simp [Stops])
  | comment hInside => exact .comment hInside
  | openComment hInside => exact .openComment hInside
  | quotation hQuote hRun =>
      have hSlash := Quotation.ne_slash_of_isQuote hQuote
      exact
        .quotation hQuote
          (hRun.of_mark hSlash List.nil_prefix)
  | openQuotation hQuote hRun =>
      exact .openQuotation hQuote hRun
  | badQuotation => cases hAhead
  | hash hGoes hRun =>
      have hRaw := Name.continues_raw hGoes []
      rw [Name.scan_of_run hRun] at hRaw
      exact .hash hRaw hRun.alone
  | atKeyword hStarts hRun =>
      have hRaw := Name.startsName_of_run hStarts hRun []
      exact .atKeyword hRaw hRun.alone
  | ident hFirst hRun hOpen =>
      exact
        .ident (hFirst.of_front hRun List.nil_prefix)
          hRun.alone (by simp [Stops])
  | function hFirst hRun hUrl =>
      have hName :
          Text.sameLetters (String.ofList (unescape _)) "url" =
            false :=
        hAhead
      refine
        .function (hFirst.of_front hRun (by simp))
          (hRun.of_mark (by decide) List.nil_prefix) ?_
      rw [opensUrl, hName, Bool.false_and]
  | @url b x address hFirst hRun hUrl hKind =>
      rcases address_alone hFirst hRun hUrl with
        ⟨hFirst', hRun', hUrl'⟩
      have hAlone := Url.scan_alone x
      have hShape :=
        Lexed.url hFirst' hRun' hUrl'
          (by rw [hAlone]; exact hKind)
      rwa [hAlone] at hShape
  | @badUrl b x address hFirst hRun hUrl hKind =>
      rcases address_alone hFirst hRun hUrl with
        ⟨hFirst', hRun', hUrl'⟩
      have hAlone := Url.scan_alone x
      have hShape :=
        Lexed.badUrl hFirst' hRun' hUrl'
          (by rw [hAlone]; exact hKind)
      rwa [hAlone] at hShape
  | number hLongest hValue hUnit hPercent =>
      exact
        .number (hLongest.of_front (by simp) (by simp)) hValue
          rfl (by simp [Stops])
  | percentage hLongest hValue =>
      exact
        .percentage (hLongest.of_front (by simp) (by simp))
          hValue
  | dimension hLongest hValue hStarts hRun =>
      have hRaw := Name.startsName_of_run hStarts hRun []
      exact
        .dimension (hLongest.of_front (by simp) (by simp))
          hValue hRaw hRun.alone
  | cdo => exact .cdo
  | cdc => exact .cdc
  | mark hMark => exact .mark hMark
  | delim hOther => exact .delim hOther.alone

end Scan

namespace Lexer

/-
  A token is read again from its own text, with its own kind
  and at its own place, and nothing else is read there.
-/
theorem tokenize_alone
    {css : String}
    {here : Location}
    {t : Token}
    (hMem : t ∈ tokenize css here)
    (hEof : t.isEof = false)
    (hSpoiled : ∀ text, t.kind ≠ .badQuotation text)
    (hUrl :
      ∀ name, t.kind = .function name →
        Text.sameLetters name "url" = false) :
    tokenize t.raw t.location =
      [t, Token.endOfInput t.endLocation] := by
  rcases List.mem_iff_append.mp hMem with
    ⟨left, right, hSplit⟩
  have hAhead : t.kind.looksAhead = false := by
    unfold TokenKind.looksAhead
    split
    · rename_i hKind
      exact absurd hKind (hSpoiled _)
    · rename_i hKind
      exact hUrl _ hKind
    · rfl
  have hAlone := (lexed_of_split hSplit).alone hAhead
  rcases hAlone.token_eq with ⟨complete, hScan⟩
  rw [List.append_nil] at hScan
  have hRaw : t.raw ≠ "" := by
    intro hNone
    rw [hNone] at hScan
    have hKind : TokenKind.eof = t.kind :=
      congrArg Lexeme.value hScan
    simp [Token.isEof, ← hKind] at hEof
  have hTokens :
      upcoming (PulledText.ofText t.raw t.location) = [t] :=
    PulledText.upcoming_eq_cons_iff.mpr
      ⟨"", complete, hRaw, hScan, rfl,
        PulledText.upcoming_empty _⟩
  rw [PulledText.tokenize_eq, hTokens,
    PulledText.ending_ofText]
  rfl

/-
  An identifier of two minus signs, which a third character
  would make an arrow or a longer name.
-/
theorem tokenize_alone_minus_signs :
    (⟨.ident "--", "--", ⟨1, 3, 2⟩⟩ : Token) ∈
      tokenize "a/--<!--url('" ⟨1, 1, 0⟩ ∧
    tokenize "--" ⟨1, 3, 2⟩ =
      [⟨.ident "--", "--", ⟨1, 3, 2⟩⟩,
        Token.endOfInput ⟨1, 5, 4⟩] := by
  have hMem :
      (⟨.ident "--", "--", ⟨1, 3, 2⟩⟩ : Token) ∈
        tokenize "a/--<!--url('" ⟨1, 1, 0⟩ := by
    decide +kernel
  refine ⟨hMem, tokenize_alone hMem rfl ?_ ?_⟩
  · exact fun text hKind => by cases hKind
  · exact fun name hKind => by cases hKind

end Lexer

end LosslessCss

------------------------------------------------------------
-- Tokens Are Maximal
------------------------------------------------------------

namespace LosslessCss

open Text (Stops)
open Spelling (Part Run)

namespace TokenKind

/- Kinds that end with a name. -/
def endsInName : TokenKind → Bool
| .ident _ => true
| .atKeyword _ => true
| .hash _ => true
| .dimension _ _ => true
| _ => false

/- Kinds that start with a name. -/
def startsWithName : TokenKind → Bool
| .ident _ => true
| .function _ => true
| .url _ => true
| .badUrl _ => true
| _ => false

/- Quotations, spoiled or not. -/
def isQuotation : TokenKind → Bool
| .quotation _ => true
| .badQuotation _ => true
| _ => false

end TokenKind

/-
  The token `t` is as long as it can be where the text `r`
  follows, which is that of the token `u` and of others.
-/
structure Token.Maximal
    (t u : Token)
    (others : List Token)
    (r : List Char) : Prop where
  whitespace :
    t.kind = .whitespace → u.kind ≠ .whitespace
  name :
    t.kind.endsInName = true →
      Text.Stops Name.isPart r ∧
        Escape.startsEscape r = false
  ident :
    ∀ name, t.kind = .ident name → u.kind ≠ .leftParen
  number :
    ∀ value, t.kind = .number value →
      Text.Stops Char.isDigit r ∧
        u.kind.startsWithName = false ∧
        u.kind ≠ .delim '%'
  slash :
    t.kind = .delim '/' → Text.Stops (· == '*') r
  atSign :
    t.kind = .delim '@' → Name.startsName r = false
  numberSign :
    t.kind = .delim '#' →
      Text.Stops Name.isPart r ∧
        Escape.startsEscape r = false
  spoiled :
    ∀ text, t.kind = .badQuotation text →
      u.kind = .whitespace ∧ r.head? = some '\n'
  url :
    ∀ name, t.kind = .function name →
      Text.sameLetters name "url" = true →
        u.kind.isQuotation = true ∨
          u.kind = .whitespace ∧
            ∃ v more, others = v :: more ∧
              v.kind.isQuotation = true

namespace Scan

variable {c : Char} {kind : TokenKind} {raw rest : List Char}

theorem stops_of_continues
    (hStops : Name.continues rest = false) :
    Stops Name.isPart rest ∧
      Escape.startsEscape rest = false := by
  cases rest with
  | nil => exact ⟨by simp [Stops], rfl⟩
  | cons c cs =>
      have hBoth :
          Name.isPart c = false ∧
            Escape.startsEscape (c :: cs) = false := by
        simpa [Name.continues] using hStops
      exact ⟨by simpa [Stops] using hBoth.1, hBoth.2⟩

theorem Lexed.whitespace_cases
    (hLexed : Lexed .whitespace raw rest) :
    (∃ c tail, raw = c :: tail ∧ Text.isBlank c = true) ∧
      Stops Text.isBlank rest := by
  cases hLexed with
  | blanks hSome hAll hStops =>
      refine ⟨?_, hStops⟩
      cases raw with
      | nil => exact absurd rfl hSome
      | cons c tail => exact ⟨c, tail, rfl, hAll c (by simp)⟩
  | mark hMark => cases isPunctuation_of_mark hMark

theorem Lexed.continues_rest
    (hLexed : Lexed kind raw rest)
    (hName : kind.endsInName = true) :
    Name.continues rest = false := by
  cases hLexed with
  | hash _ hRun => exact Name.continues_of_run hRun
  | atKeyword _ hRun => exact Name.continues_of_run hRun
  | ident _ hRun _ => exact Name.continues_of_run hRun
  | dimension _ _ _ hRun => exact Name.continues_of_run hRun
  | mark hMark =>
      have hNone : kind.endsInName = false :=
        of_mark (P := fun other => other.endsInName = false)
          hMark (by decide)
      rw [hName] at hNone
      cases hNone
  | _ => cases hName

theorem Lexed.startsName_raw
    (hLexed : Lexed kind raw rest)
    (hName : kind.startsWithName = true) :
    Name.startsName (raw ++ rest) = true := by
  cases hLexed with
  | ident hFirst => exact hFirst.starts
  | function hFirst => simpa using hFirst.starts
  | url hFirst hRun =>
      rw [List.append_assoc]
      exact Name.startsName_of_run hFirst.starts hRun _
  | badUrl hFirst hRun =>
      rw [List.append_assoc]
      exact Name.startsName_of_run hFirst.starts hRun _
  | mark hMark =>
      have hNone : kind.startsWithName = false :=
        of_mark (P := fun other => other.startsWithName = false)
          hMark (by decide)
      rw [hName] at hNone
      cases hNone
  | _ => cases hName

theorem Lexed.ident_cases
    {name : String}
    (hLexed : Lexed (.ident name) raw rest) :
    Stops (· == '(') rest := by
  cases hLexed with
  | ident _ _ hOpen => exact hOpen
  | mark hMark => cases isPunctuation_of_mark hMark

theorem Lexed.leftParen_cases
    (hLexed : Lexed .leftParen raw rest) :
    raw = ['('] := by
  cases hLexed with
  | mark hMark =>
      unfold mark? at hMark
      split at hMark <;> cases hMark
      rfl

theorem Lexed.number_cases
    {value : Binary32}
    (hLexed : Lexed (.number value) raw rest) :
    Stops Char.isDigit rest ∧
      Name.startsName rest = false ∧
      Stops (· == '%') rest := by
  cases hLexed with
  | number hLongest _ hUnit hPercent =>
      exact ⟨hLongest.stops_isDigit, hUnit, hPercent⟩
  | mark hMark => cases isPunctuation_of_mark hMark

theorem Lexed.delim_cases
    (hLexed : Lexed (.delim c) raw rest) :
    raw = [c] ∧ Delimits c rest := by
  cases hLexed with
  | delim hOther => exact ⟨rfl, hOther⟩
  | mark hMark => cases isPunctuation_of_mark hMark

theorem Lexed.badQuotation_cases
    {text : String}
    (hLexed : Lexed (.badQuotation text) raw rest) :
    ∃ tail, rest = '\n' :: tail := by
  cases hLexed with
  | badQuotation => exact ⟨_, rfl⟩
  | mark hMark => cases isPunctuation_of_mark hMark

theorem Lexed.function_cases
    {name : String}
    (hLexed : Lexed (.function name) raw rest)
    (hUrl : Text.sameLetters name "url" = true) :
    quoteFollows rest = true := by
  cases hLexed with
  | function _ _ hNone => simpa [opensUrl, hUrl] using hNone
  | mark hMark => cases isPunctuation_of_mark hMark

theorem isQuotation_token
    (hQuote : Quotation.isQuote c = true)
    (cs : List Char) :
    (token (c :: cs)).value.isQuotation = true := by
  rw [token_of_quote hQuote]
  simp only [Quotation.scan, Lexeme.extend, Lexeme.map,
    Quotation.Body.kind]
  split
  · rfl
  · rfl

end Scan

namespace Lexer

variable
  {css : String}
  {here : Location}
  {left right : List Token}
  {t u : Token}

theorem kind_of_split
    (hSplit : tokenize css here = left ++ t :: right) :
    (Scan.token (Token.rawText (t :: right)).toList).value =
      t.kind := by
  rcases token_of_split hSplit with ⟨complete, hScan⟩
  rw [hScan]

theorem isQuotation_of_split
    {c : Char}
    {cs : List Char}
    (hSplit : tokenize css here = left ++ t :: right)
    (hText : (Token.rawText (t :: right)).toList = c :: cs)
    (hQuote : Quotation.isQuote c = true) :
    t.kind.isQuotation = true := by
  have hKind := kind_of_split hSplit
  rw [hText] at hKind
  rw [← hKind]
  exact Scan.isQuotation_token hQuote cs

/- Where a quote follows after blanks, a quotation is read. -/
theorem quotation_of_quoteFollows
    (hSplit : tokenize css here = left ++ u :: right)
    (hQuote :
      Scan.quoteFollows
          (Token.rawText (u :: right)).toList =
        true) :
    u.kind.isQuotation = true ∨
      u.kind = .whitespace ∧
        ∃ v more, right = v :: more ∧
          v.kind.isQuotation = true := by
  have hKind := kind_of_split hSplit
  rcases token_of_split hSplit with ⟨complete, hScan⟩
  generalize hText : (Token.rawText (u :: right)).toList = r
    at hQuote hKind hScan
  cases r with
  | nil => cases hQuote
  | cons c cs =>
      cases hBlank : Text.isBlank c with
      | false =>
          have hFirst : Quotation.isQuote c = true := by
            simpa [Scan.quoteFollows, hBlank] using hQuote
          exact .inl (isQuotation_of_split hSplit hText hFirst)
      | true =>
          rw [Scan.token_of_blank hBlank] at hScan hKind
          refine .inr ⟨hKind.symm, ?_⟩
          have hRest := congrArg Lexeme.rest hScan
          simp only at hRest
          unfold Scan.quoteFollows at hQuote
          rw [hRest] at hQuote
          cases right with
          | nil => cases hQuote
          | cons v more =>
              refine ⟨v, more, rfl, ?_⟩
              have hLater :
                  tokenize css here =
                    (left ++ [u]) ++ v :: more := by
                rw [hSplit, List.append_assoc,
                  List.singleton_append]
              split at hQuote
              · rename_i hCons
                exact
                  isQuotation_of_split hLater hCons hQuote
              · cases hQuote

theorem not_stops
    {p : Char → Bool}
    {c : Char}
    {tail : List Char}
    (hRaw : u.raw.toList = c :: tail)
    (hTest : p c = true) :
    ¬ Stops p (Token.rawText (u :: right)).toList := by
  intro hStops
  rw [Token.rawText, String.toList_append, hRaw] at hStops
  have hNone := hStops c rfl
  rw [hTest] at hNone
  cases hNone

/- No token of a text can be made longer. -/
theorem tokenize_maximal
    (hSplit : tokenize css here = left ++ t :: u :: right) :
    let r := (Token.rawText (u :: right)).toList
    css.toList = (Token.rawText (left ++ [t])).toList ++ r ∧
      Token.Maximal t u right r := by
  intro r
  have hNext :
      tokenize css here = (left ++ [t]) ++ u :: right := by
    rw [hSplit, List.append_assoc, List.singleton_append]
  have hFirst : Scan.Lexed t.kind t.raw.toList r :=
    lexed_of_split hSplit
  have hSecond := lexed_of_split hNext
  refine ⟨text_of_split hNext, ?_⟩
  constructor
  case whitespace =>
    intro hKind hAgain
    rw [hKind] at hFirst
    rw [hAgain] at hSecond
    rcases hSecond.whitespace_cases with
      ⟨⟨c, tail, hRaw, hBlank⟩, -⟩
    exact not_stops hRaw hBlank hFirst.whitespace_cases.2
  case name =>
    intro hName
    exact
      Scan.stops_of_continues (hFirst.continues_rest hName)
  case ident =>
    intro name hKind hParen
    rw [hKind] at hFirst
    rw [hParen] at hSecond
    exact
      not_stops hSecond.leftParen_cases rfl
        hFirst.ident_cases
  case number =>
    intro value hKind
    rw [hKind] at hFirst
    rcases hFirst.number_cases with
      ⟨hDigit, hName, hPercent⟩
    refine ⟨hDigit, ?_, ?_⟩
    · rw [Bool.eq_false_iff]
      intro hUnit
      have hStarts := hSecond.startsName_raw hUnit
      rw [← String.toList_append] at hStarts
      exact Bool.eq_false_iff.mp hName hStarts
    · intro hDelim
      rw [hDelim] at hSecond
      exact not_stops hSecond.delim_cases.1 rfl hPercent
  case slash =>
    intro hKind
    rw [hKind] at hFirst
    have hComment := hFirst.delim_cases.2.comment
    rcases Text.stops_or_eq_cons '*' r with
      hStops | ⟨tail, hTail⟩
    · exact hStops
    · rw [hTail] at hComment
      cases hComment
  case atSign =>
    intro hKind
    rw [hKind] at hFirst
    exact hFirst.delim_cases.2.atSign rfl
  case numberSign =>
    intro hKind
    rw [hKind] at hFirst
    exact
      Scan.stops_of_continues (hFirst.delim_cases.2.hash rfl)
  case spoiled =>
    intro text hKind
    rw [hKind] at hFirst
    rcases hFirst.badQuotation_cases with ⟨tail, hTail⟩
    have hBlank := kind_of_split hNext
    rw [show (Token.rawText (u :: right)).toList = _
        from hTail,
      Scan.token_of_blank rfl] at hBlank
    exact ⟨hBlank.symm, congrArg List.head? hTail⟩
  case url =>
    intro name hKind hUrl
    rw [hKind] at hFirst
    exact
      quotation_of_quoteFollows hNext
        (hFirst.function_cases hUrl)

/-
  The name of an address, spelled with an escape, whose
  quote stands behind a blank that could be in a name.
-/
theorem tokenize_maximal_quoted_address :
    ∃ left t u right,
      tokenize "\\75 rl(\u3000'" ⟨1, 1, 0⟩ =
        left ++ t :: u :: right ∧
      t.kind = .function "url" ∧
      Token.Maximal t u right
        (Token.rawText (u :: right)).toList := by
  let css := "\\75 rl(\u3000'"
  let t : Token :=
    ⟨.function "url", "\\75 rl(", ⟨1, 1, 0⟩⟩
  let u : Token := ⟨.whitespace, "\u3000", ⟨1, 8, 7⟩⟩
  let right := (tokenize css ⟨1, 1, 0⟩).drop 2
  have hSplit :
      tokenize css ⟨1, 1, 0⟩ = [] ++ t :: u :: right := by
    decide +kernel
  exact
    ⟨[], t, u, right, hSplit, rfl,
      (tokenize_maximal hSplit).2⟩

end Lexer

end LosslessCss
