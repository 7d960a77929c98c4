import LosslessCss.Lexer.Name
import LosslessCss.Lexer.Numeral
import LosslessCss.Lexer.Quotation
import LosslessCss.Lexer.Url
import LosslessCss.Text.Letters

/-
  The next token of a run of characters.

  The first characters decide the kind of the token, and the
  scanner of that kind takes it.  A token always takes at
  least one character, except at the end of the input.

  Key definitions include:
    * `Scan.comment`
    * `Scan.identLike`
    * `Scan.token`

  Key theorems include:
    * `Scan.token_splits`
    * `Scan.raw_token_ne_nil`
-/

------------------------------------------------------------
-- Comments
------------------------------------------------------------

namespace LosslessCss

namespace Scan

/-
  Scan a comment, with the input after its opening mark.
  Without a closing mark it runs to the end of the input.
-/
def comment : List Char → Lexeme (List Char)
| [] => .stop [] []
| '*' :: '/' :: cs => ⟨[], ['*', '/'], cs, true⟩
| c :: cs => ((comment cs).map (c :: ·)).extend [c]

/- A comment splits the input. -/
theorem comment_splits
    (input : List Char) :
    (comment input).Splits input := by
  fun_induction comment input with
  | case1 => rfl
  | case2 => rfl
  | case3 c cs _ ih =>
      exact (ih.map (c :: ·)).extend [c]

end Scan

end LosslessCss

------------------------------------------------------------
-- Identifiers, Functions and Addresses
------------------------------------------------------------

namespace LosslessCss

namespace Scan

/- Whether a quote follows after blanks. -/
def quoteFollows (input : List Char) : Bool :=
  match input.dropWhile Text.isBlank with
  | c :: _ => Quotation.isQuote c
  | [] => false

/-
  Scan a token that starts with a name.  An opening
  parenthesis makes it a function, or an address when the
  function is `url` and its argument is not quoted.
-/
def identLike (input : List Char) : Lexeme TokenKind :=
  let name := Name.scan input
  let text := String.ofList name.value
  match name.rest with
  | '(' :: rest =>
      if Text.sameLetters text "url" &&
          !quoteFollows rest then
        (Url.scan rest).extend (name.raw ++ ['('])
      else
        ⟨.function text, name.raw ++ ['('], rest, true⟩
  | rest => ⟨.ident text, name.raw, rest, true⟩

/- A token that starts with a name splits the input. -/
theorem identLike_splits
    (input : List Char) :
    (identLike input).Splits input := by
  have hname := Name.scan_splits input
  unfold identLike
  simp only
  split
  · rename_i rest hrest
    have hparts :
        (Name.scan input).raw ++ ['('] ++ rest = input := by
      simpa [Lexeme.Splits, hrest] using hname
    split
    · have hurl :=
        (Url.scan_splits rest).extend
          ((Name.scan input).raw ++ ['('])
      rw [hparts] at hurl
      exact hurl
    · exact hparts
  · exact hname

/- Where a name starts, its token has characters. -/
theorem raw_identLike_ne_nil
    {input : List Char}
    (h : Name.startsName input) :
    (identLike input).raw ≠ [] := by
  have hraw :=
    Name.raw_scan_ne_nil (Name.continues_of_startsName h)
  unfold identLike
  simp only
  split
  · split
    · simp [Lexeme.extend]
    · simp
  · exact hraw

end Scan

end LosslessCss

------------------------------------------------------------
-- Tokens
------------------------------------------------------------

namespace LosslessCss

namespace Scan

/- A token of one character. -/
def single
    (kind : TokenKind)
    (c : Char)
    (cs : List Char) : Lexeme TokenKind :=
  ⟨kind, [c], cs, true⟩

/- The kind of a character that is a token by itself. -/
def mark? : Char → Option TokenKind
| ')' => some .rightParen
| '(' => some .leftParen
| '[' => some .leftBracket
| ']' => some .rightBracket
| '{' => some .leftCurly
| '}' => some .rightCurly
| ',' => some .comma
| ':' => some .colon
| ';' => some .semicolon
| _ => none

/- Scan a token that starts with a number sign. -/
def hash (cs : List Char) : Lexeme TokenKind :=
  if Name.continues cs then
    ((Name.scan cs).map fun name =>
        TokenKind.hash (String.ofList name)).extend
      ['#']
  else
    single (.delim '#') '#' cs

/- Scan a token that starts with an at sign. -/
def atSign (cs : List Char) : Lexeme TokenKind :=
  if Name.startsName cs then
    ((Name.scan cs).map fun name =>
        TokenKind.atKeyword (String.ofList name)).extend
      ['@']
  else
    single (.delim '@') '@' cs

/- Scan a token that starts with a minus sign. -/
def minus (cs : List Char) : Lexeme TokenKind :=
  if Numeral.startsSigned ('-' :: cs) then
    Numeral.scan ('-' :: cs)
  else if cs.take 2 = ['-', '>'] then
    ⟨.cdc, '-' :: cs.take 2, cs.drop 2, true⟩
  else if Name.startsName ('-' :: cs) then
    identLike ('-' :: cs)
  else
    single (.delim '-') '-' cs

/- Scan a token that starts with a less-than sign. -/
def lessThan (cs : List Char) : Lexeme TokenKind :=
  if cs.take 3 = ['!', '-', '-'] then
    ⟨.cdo, '<' :: cs.take 3, cs.drop 3, true⟩
  else
    single (.delim '<') '<' cs

/- Scan a token that is decided by its first character. -/
def plain
    (c : Char)
    (cs : List Char) : Lexeme TokenKind :=
  if c = '#' then hash cs
  else if c = '@' then atSign cs
  else if c = '-' then minus cs
  else if c = '<' then lessThan cs
  else if Numeral.startsSigned (c :: cs) ||
      Numeral.startsUnsigned (c :: cs) then
    Numeral.scan (c :: cs)
  else if Name.startsName (c :: cs) then
    identLike (c :: cs)
  else
    match mark? c with
    | some kind => single kind c cs
    | none => single (.delim c) c cs

/- Whether a comment starts here. -/
def startsComment : List Char → Bool
| '/' :: '*' :: _ => true
| _ => false

/- Scan the next token. -/
def token : List Char → Lexeme TokenKind
| [] => .stop .eof []
| c :: cs =>
    if startsComment (c :: cs) then
      ((comment (cs.drop 1)).map fun text =>
          TokenKind.comment (String.ofList text)).extend
        (c :: cs.take 1)
    else if Text.isBlank c then
      ⟨.whitespace, (c :: cs).takeWhile Text.isBlank,
        (c :: cs).dropWhile Text.isBlank, true⟩
    else if Quotation.isQuote c then
      Quotation.scan c cs
    else
      plain c cs

end Scan

end LosslessCss

------------------------------------------------------------
-- Tokens Split the Input
------------------------------------------------------------

namespace LosslessCss

namespace Scan

/- A token that starts with a number sign splits the input. -/
theorem hash_splits
    (cs : List Char) :
    (hash cs).Splits ('#' :: cs) := by
  unfold hash
  split
  · exact ((Name.scan_splits cs).map _).extend ['#']
  · rfl

/- A token that starts with an at sign splits the input. -/
theorem atSign_splits
    (cs : List Char) :
    (atSign cs).Splits ('@' :: cs) := by
  unfold atSign
  split
  · exact ((Name.scan_splits cs).map _).extend ['@']
  · rfl

/- A token that starts with a minus sign splits the input. -/
theorem minus_splits
    (cs : List Char) :
    (minus cs).Splits ('-' :: cs) := by
  unfold minus
  split
  · exact Numeral.scan_splits ('-' :: cs)
  · split
    · simp [Lexeme.Splits]
    · split
      · exact identLike_splits ('-' :: cs)
      · rfl

/- A token that starts with a less-than sign splits the input. -/
theorem lessThan_splits
    (cs : List Char) :
    (lessThan cs).Splits ('<' :: cs) := by
  unfold lessThan
  split
  · simp [Lexeme.Splits]
  · rfl

/- A token that its first character decides splits the input. -/
theorem plain_splits
    (c : Char)
    (cs : List Char) :
    (plain c cs).Splits (c :: cs) := by
  unfold plain
  split
  · rename_i hc
    subst hc
    exact hash_splits cs
  · split
    · rename_i hc
      subst hc
      exact atSign_splits cs
    · split
      · rename_i hc
        subst hc
        exact minus_splits cs
      · split
        · rename_i hc
          subst hc
          exact lessThan_splits cs
        · split
          · exact Numeral.scan_splits (c :: cs)
          · split
            · exact identLike_splits (c :: cs)
            · split
              · rfl
              · rfl

/- Every token splits the input. -/
theorem token_splits
    (input : List Char) :
    (token input).Splits input := by
  cases input with
  | nil => rfl
  | cons c cs =>
      rw [token]
      split
      · have hjoin :=
          ((comment_splits (cs.drop 1)).map fun text =>
              TokenKind.comment (String.ofList text)).extend
            (c :: cs.take 1)
        rw [List.cons_append, List.take_append_drop]
          at hjoin
        exact hjoin
      · split
        · exact List.takeWhile_append_dropWhile
        · split
          · exact Quotation.scan_splits c cs
          · exact plain_splits c cs

end Scan

end LosslessCss

------------------------------------------------------------
-- Tokens Take Characters
------------------------------------------------------------

namespace LosslessCss

namespace Scan

/- A token that its first character decides takes it. -/
theorem raw_plain_ne_nil
    (c : Char)
    (cs : List Char) :
    (plain c cs).raw ≠ [] := by
  unfold plain
  split
  · unfold hash
    split
    · simp [Lexeme.extend]
    · simp [single]
  · split
    · unfold atSign
      split
      · simp [Lexeme.extend]
      · simp [single]
    · split
      · unfold minus
        split
        · rename_i hsigned
          exact Numeral.raw_scan_ne_nil
            (Numeral.takeNumeral_ne_nil_of_signed hsigned)
        · split
          · simp
          · split
            · rename_i hname
              exact raw_identLike_ne_nil hname
            · simp [single]
      · split
        · unfold lessThan
          split
          · simp
          · simp [single]
        · split
          · rename_i hnumeral
            apply Numeral.raw_scan_ne_nil
            rcases Bool.or_eq_true_iff.mp hnumeral with
              hsigned | hunsigned
            · exact Numeral.takeNumeral_ne_nil_of_signed
                hsigned
            · exact Numeral.takeNumeral_ne_nil_of_unsigned
                hunsigned
          · split
            · rename_i hname
              exact raw_identLike_ne_nil hname
            · split
              · simp [single]
              · simp [single]

/- Before the end of the input every token takes characters. -/
theorem raw_token_ne_nil
    (c : Char)
    (cs : List Char) :
    (token (c :: cs)).raw ≠ [] := by
  rw [token]
  split
  · simp [Lexeme.extend]
  · split
    · rename_i hblank
      simp [hblank]
    · split
      · simp [Quotation.scan, Lexeme.extend]
      · exact raw_plain_ne_nil c cs

end Scan

end LosslessCss
