import LosslessCss.Proofs.NumberPattern
import LosslessCss.Proofs.SealedRuns
import LosslessCss.Proofs.Spelling

/-
  The shapes of tokens.

  For every kind of token, what its characters look like and
  where it ends: which characters it is made of, and what
  cannot come next.  A token that is scanned has the shape of
  its kind, so that nothing else has to be known about the
  scanners to reason about tokens.

  Key definitions include:
    * `Scan.NameFirst`
    * `Scan.Delimits`
    * `Scan.Lexed`

  Key theorems include:
    * `Scan.token_of_starts`
    * `Scan.token_of_nameFirst`
    * `Scan.token_of_delimits`
    * `Scan.Lexed.token_eq`
    * `Scan.lexed_token`
    * `Lexer.token_of_split`
    * `Lexer.lexed_of_split`
-/

------------------------------------------------------------
-- How Tokens Start
------------------------------------------------------------

namespace LosslessCss

open Text (Stops)

namespace Scan

variable {c : Char} {cs input : List Char}

/- A name starts, and nothing that goes before names does. -/
structure NameFirst (input : List Char) : Prop where
  starts : Name.startsName input = true
  blank : Stops Text.isBlank input
  arrow : ¬ ['-', '-', '>'] <+: input

/- No token but that of the first character starts. -/
structure Delimits
    (c : Char)
    (rest : List Char) : Prop where
  comment : startsComment (c :: rest) = false
  blank : Text.isBlank c = false
  quote : Quotation.isQuote c = false
  mark : mark? c = none
  numeral : NumberPattern.starts (c :: rest) = false
  name : Name.startsName (c :: rest) = false
  opening : ¬ ['<', '!', '-', '-'] <+: c :: rest
  hash : c = '#' → Name.continues rest = false
  atSign : c = '@' → Name.startsName rest = false

theorem startsComment_of_ne
    (hSlash : c ≠ '/')
    (cs : List Char) :
    startsComment (c :: cs) = false := by
  unfold startsComment
  split
  · rename_i hCons
    exact absurd (List.cons.inj hCons).1 hSlash
  · rfl

theorem token_of_blank
    (hBlank : Text.isBlank c = true)
    (cs : List Char) :
    token (c :: cs) =
      ⟨.whitespace, (c :: cs).takeWhile Text.isBlank,
        (c :: cs).dropWhile Text.isBlank, true⟩ := by
  have hSlash := Text.ne_of_test hBlank (d := '/') rfl
  rw [token, startsComment_of_ne hSlash,
    if_neg (by simp), if_pos hBlank]

theorem token_of_quote
    (hQuote : Quotation.isQuote c = true)
    (cs : List Char) :
    token (c :: cs) = Quotation.scan c cs := by
  have hSlash := Text.ne_of_test hQuote (d := '/') rfl
  have hBlank : Text.isBlank c = false := by
    have hCase : c = '"' ∨ c = '\'' := by
      simpa [Quotation.isQuote] using hQuote
    rcases hCase with rfl | rfl
    · rfl
    · rfl
  rw [token, startsComment_of_ne hSlash,
    if_neg (by simp), if_neg (by simp [hBlank]),
    if_pos hQuote]

theorem token_of_plain
    (hComment : startsComment (c :: cs) = false)
    (hBlank : Text.isBlank c = false)
    (hQuote : Quotation.isQuote c = false) :
    token (c :: cs) = plain c cs := by
  rw [token, if_neg (by simp [hComment]),
    if_neg (by simp [hBlank]), if_neg (by simp [hQuote])]

theorem token_hash
    (cs : List Char) :
    token ('#' :: cs) = hash cs := by
  rw [token_of_plain (startsComment_of_ne (by decide) cs)
    rfl rfl]
  rfl

theorem token_atSign
    (cs : List Char) :
    token ('@' :: cs) = atSign cs := by
  rw [token_of_plain (startsComment_of_ne (by decide) cs)
    rfl rfl]
  rfl

theorem token_minus
    (cs : List Char) :
    token ('-' :: cs) = minus cs := by
  rw [token_of_plain (startsComment_of_ne (by decide) cs)
    rfl rfl]
  rfl

theorem token_lessThan
    (cs : List Char) :
    token ('<' :: cs) = lessThan cs := by
  rw [token_of_plain (startsComment_of_ne (by decide) cs)
    rfl rfl]
  rfl

theorem take_ne_of_not_front
    {marks : List Char}
    (hNone : ¬ c :: marks <+: c :: cs) :
    cs.take marks.length ≠ marks := by
  intro hTake
  have hFront := List.take_prefix marks.length cs
  rw [hTake] at hFront
  exact hNone (List.cons_prefix_cons.mpr ⟨rfl, hFront⟩)

/- The kinds of the marks. -/
def markKinds : List TokenKind :=
  [.rightParen, .leftParen, .leftBracket, .rightBracket,
    .leftCurly, .rightCurly, .comma, .colon, .semicolon]

/- What holds of the kinds of marks, one by one. -/
theorem of_mark
    {P : TokenKind → Prop}
    {kind : TokenKind}
    (hMark : mark? c = some kind)
    (hAll : ∀ other ∈ markKinds, P other) :
    P kind := by
  apply hAll
  unfold mark? at hMark
  split at hMark <;> cases hMark <;> simp [markKinds]

theorem isPunctuation_of_mark
    {kind : TokenKind}
    (hMark : mark? c = some kind) :
    kind.isPunctuation = true :=
  of_mark (P := fun other => other.isPunctuation = true)
    hMark (by decide)

/- A character that no scanner of its own is chosen for. -/
theorem plain_of_not_mem
    (hFirst : c ∉ ['#', '@', '-', '<'])
    (cs : List Char) :
    plain c cs =
      if NumberPattern.starts (c :: cs) then
        Numeral.scan (c :: cs)
      else if Name.startsName (c :: cs) then
        identLike (c :: cs)
      else
        (mark? c).elim (single (.delim c) c cs) fun kind =>
          single kind c cs := by
  simp only [List.mem_cons, List.not_mem_nil, or_false,
    not_or] at hFirst
  rcases hFirst with ⟨hHash, hAt, hMinus, hLess⟩
  rw [plain, if_neg hHash, if_neg hAt, if_neg hMinus,
    if_neg hLess, NumberPattern.starts_eq]
  cases mark? c with
  | none => rfl
  | some kind => rfl

end Scan

namespace NumberPattern

open Numeral

variable {c : Char} {cs input : List Char}

theorem mem_of_startsUnsigned
    (hStarts : startsUnsigned (c :: cs) = true) :
    c ∈ '.' :: digitMarks := by
  unfold startsUnsigned at hStarts
  split at hStarts
  · rename_i hCons
    rw [(List.cons.inj hCons).1]
    exact List.mem_cons_self
  · exact
      List.mem_cons_of_mem _ (mem_digitMarks_iff.mpr hStarts)

/- What a numeral can start with. -/
theorem mem_of_starts
    (hStarts : starts (c :: cs) = true) :
    c ∈ '+' :: '-' :: '.' :: digitMarks := by
  rw [starts_eq, Bool.or_eq_true] at hStarts
  rcases hStarts with hSigned | hUnsigned
  · unfold startsSigned at hSigned
    split at hSigned
    · rename_i hCons
      simp [(List.cons.inj hCons).1]
    · rename_i hCons
      simp [(List.cons.inj hCons).1]
    · cases hSigned
  · have hMem := mem_of_startsUnsigned hUnsigned
    exact List.mem_cons_of_mem _ (List.mem_cons_of_mem _ hMem)

/- Where a name starts there is no numeral. -/
theorem starts_of_startsName
    (hName : Name.startsName input = true) :
    starts input = false := by
  rw [Bool.eq_false_iff]
  intro hStarts
  cases input with
  | nil => cases hName
  | cons c cs =>
      have hFirst : Name.isStart c = false ∧ c ≠ '\\' :=
        Text.of_mem
          (P := fun c => Name.isStart c = false ∧ c ≠ '\\')
          (by decide) (mem_of_starts hStarts)
      by_cases hMinus : c = '-'
      · subst hMinus
        -- Behind the minus sign the same test is made again.
        cases cs with
        | nil => cases hName
        | cons d ds =>
            have hUnsigned : startsUnsigned (d :: ds) = true :=
              hStarts
            have hOther :
                Name.isStart d = false ∧ d ≠ '-' ∧
                  d ≠ '\\' :=
              Text.of_mem
                (P := fun d =>
                  Name.isStart d = false ∧ d ≠ '-' ∧
                    d ≠ '\\')
                (by decide) (mem_of_startsUnsigned hUnsigned)
            simp [Name.startsName, hOther,
              Escape.startsEscape_of_ne hOther.2.2] at hName
      · rw [Name.startsName_of_ne hMinus hFirst.2,
          hFirst.1] at hName
        cases hName

end NumberPattern

namespace Scan

variable {c : Char} {cs input : List Char}

/- A numeral is scanned wherever one starts. -/
theorem token_of_starts
    (hStarts : NumberPattern.starts input = true) :
    token input = Numeral.scan input := by
  cases input with
  | nil => cases hStarts
  | cons c cs =>
      have hOther :
          c ≠ '/' ∧ Text.isBlank c = false ∧
            Quotation.isQuote c = false ∧
            c ∉ ['#', '@', '<'] :=
        Text.of_mem
          (P := fun c =>
            c ≠ '/' ∧ Text.isBlank c = false ∧
              Quotation.isQuote c = false ∧
              c ∉ ['#', '@', '<'])
          (by decide) (NumberPattern.mem_of_starts hStarts)
      rcases hOther with ⟨hSlash, hBlank, hQuote, hFirst⟩
      rw [token_of_plain (startsComment_of_ne hSlash cs)
        hBlank hQuote]
      by_cases hMinus : c = '-'
      · subst hMinus
        have hSigned :
            Numeral.startsSigned ('-' :: cs) = true :=
          hStarts
        exact if_pos hSigned
      · rw [plain_of_not_mem (by simp_all) cs,
          if_pos hStarts]

/- A name is scanned wherever one comes first. -/
theorem token_of_nameFirst
    (hFirst : NameFirst input) :
    token input = identLike input := by
  rcases hFirst with ⟨hName, hStops, hArrow⟩
  have hStarts := NumberPattern.starts_of_startsName hName
  cases input with
  | nil => cases hName
  | cons c cs =>
      have hBlank : Text.isBlank c = false := hStops c rfl
      by_cases hMinus : c = '-'
      · subst hMinus
        have hSigned :
            Numeral.startsSigned ('-' :: cs) = false :=
          hStarts
        have hMarks : cs.take 2 ≠ ['-', '>'] :=
          take_ne_of_not_front hArrow
        rw [token_minus, minus, if_neg (by simp [hSigned]),
          if_neg hMarks, if_pos hName]
      · have hOther :
            c ∉ ['/', '"', '\'', '#', '@', '<'] := by
          by_cases hSlash : c = '\\'
          · subst hSlash
            decide
          · intro hMem
            have hNone : Name.isStart c = false :=
              Text.of_mem
                (P := fun c => Name.isStart c = false)
                (by decide) hMem
            rw [Name.startsName_of_ne hMinus hSlash,
              hNone] at hName
            cases hName
        have hQuote : Quotation.isQuote c = false := by
          simp_all [Quotation.isQuote]
        have hComment : startsComment (c :: cs) = false :=
          startsComment_of_ne (by simp_all) cs
        rw [token_of_plain hComment hBlank hQuote,
          plain_of_not_mem (by simp_all) cs,
          if_neg (by simp [hStarts]), if_pos hName]

/- Any other character is a token by itself. -/
theorem token_of_delimits
    (hOther : Delimits c cs) :
    token (c :: cs) = single (.delim c) c cs := by
  by_cases hHash : c = '#'
  · subst hHash
    rw [token_hash, hash, hOther.hash rfl,
      if_neg (by simp)]
  by_cases hAt : c = '@'
  · subst hAt
    rw [token_atSign, atSign, hOther.atSign rfl,
      if_neg (by simp)]
  by_cases hMinus : c = '-'
  · subst hMinus
    have hSigned :
        Numeral.startsSigned ('-' :: cs) = false :=
      hOther.numeral
    -- A name would start where the arrow stands.
    have hArrow : ¬ ['-', '-', '>'] <+: '-' :: cs := by
      rintro ⟨tail, hTail⟩
      have hName := hOther.name
      rw [← hTail] at hName
      cases hName
    have hMarks : cs.take 2 ≠ ['-', '>'] :=
      take_ne_of_not_front hArrow
    rw [token_minus, minus, hSigned, if_neg (by simp),
      if_neg hMarks, hOther.name, if_neg (by simp)]
  by_cases hLess : c = '<'
  · subst hLess
    have hMarks : cs.take 3 ≠ ['!', '-', '-'] :=
      take_ne_of_not_front hOther.opening
    rw [token_lessThan, lessThan, if_neg hMarks]
  rw [token_of_plain hOther.comment hOther.blank
      hOther.quote,
    plain_of_not_mem (by simp_all) cs,
    if_neg (by simp [hOther.numeral]),
    if_neg (by simp [hOther.name]), hOther.mark,
    Option.elim_none]

end Scan

end LosslessCss

------------------------------------------------------------
-- Shapes
------------------------------------------------------------

namespace LosslessCss

open Text (Stops)
open NumberPattern (Longest)
open Spelling (Part Run unescape unquote)

namespace Scan

/-
  A kind of token with its characters and what follows them.
  Names, units and the insides of quotations end where their
  next part is of another kind, and numerals are the longest
  matches of their pattern.
-/
inductive Lexed :
    TokenKind → List Char → List Char → Prop where
  | eof : Lexed .eof [] []
  | blanks {w rest : List Char}
      (hSome : w ≠ [])
      (hAll : ∀ c ∈ w, Text.isBlank c = true)
      (hStops : Stops Text.isBlank rest) :
      Lexed .whitespace w rest
  | comment {text rest : List Char}
      (hInside : ¬ ['*', '/'] <:+: text) :
      Lexed (.comment (String.ofList text))
        ('/' :: '*' :: (text ++ ['*', '/'])) rest
  | openComment {text : List Char}
      (hInside : ¬ ['*', '/'] <:+: text) :
      Lexed (.comment (String.ofList text))
        ('/' :: '*' :: text) []
  | quotation {q : Char} {b rest : List Char}
      (hQuote : Quotation.isQuote q = true)
      (hRun : Run (Part.inQuotation q) b (q :: rest)) :
      Lexed (.quotation (String.ofList (unquote b)))
        (q :: (b ++ [q])) rest
  | openQuotation {q : Char} {b : List Char}
      (hQuote : Quotation.isQuote q = true)
      (hRun : Run (Part.inQuotation q) b []) :
      Lexed (.quotation (String.ofList (unquote b)))
        (q :: b) []
  | badQuotation {q : Char} {b rest : List Char}
      (hQuote : Quotation.isQuote q = true)
      (hRun : Run (Part.inQuotation q) b ('\n' :: rest)) :
      Lexed (.badQuotation (String.ofList (unquote b)))
        (q :: b) ('\n' :: rest)
  | hash {b rest : List Char}
      (hGoes : Name.continues (b ++ rest) = true)
      (hRun : Run Part.inName b rest) :
      Lexed (.hash (String.ofList (unescape b)))
        ('#' :: b) rest
  | atKeyword {b rest : List Char}
      (hStarts : Name.startsName (b ++ rest) = true)
      (hRun : Run Part.inName b rest) :
      Lexed (.atKeyword (String.ofList (unescape b)))
        ('@' :: b) rest
  | ident {b rest : List Char}
      (hFirst : NameFirst (b ++ rest))
      (hRun : Run Part.inName b rest)
      (hOpen : Stops (· == '(') rest) :
      Lexed (.ident (String.ofList (unescape b))) b rest
  | function {b rest : List Char}
      (hFirst : NameFirst (b ++ '(' :: rest))
      (hRun : Run Part.inName b ('(' :: rest))
      (hUrl : opensUrl (unescape b) rest = false) :
      Lexed (.function (String.ofList (unescape b)))
        (b ++ ['(']) rest
  | url {b x : List Char} {address : String}
      (hFirst : NameFirst (b ++ '(' :: x))
      (hRun : Run Part.inName b ('(' :: x))
      (hUrl : opensUrl (unescape b) x = true)
      (hKind : (Url.scan x).value = .url address) :
      Lexed (.url address)
        (b ++ '(' :: (Url.scan x).raw) (Url.scan x).rest
  | badUrl {b x : List Char} {address : String}
      (hFirst : NameFirst (b ++ '(' :: x))
      (hRun : Run Part.inName b ('(' :: x))
      (hUrl : opensUrl (unescape b) x = true)
      (hKind : (Url.scan x).value = .badUrl address) :
      Lexed (.badUrl address)
        (b ++ '(' :: (Url.scan x).raw) (Url.scan x).rest
  | number {n rest : List Char} {value : Binary32}
      (hLongest : Longest n (n ++ rest))
      (hValue : Binary32.ofNumeral? n = some value)
      (hUnit : Name.startsName rest = false)
      (hPercent : Stops (· == '%') rest) :
      Lexed (.number value) n rest
  | percentage {n rest : List Char} {value : Binary32}
      (hLongest : Longest n (n ++ '%' :: rest))
      (hValue : Binary32.ofNumeral? n = some value) :
      Lexed (.percentage value) (n ++ ['%']) rest
  | dimension {n b rest : List Char} {value : Binary32}
      (hLongest : Longest n (n ++ (b ++ rest)))
      (hValue : Binary32.ofNumeral? n = some value)
      (hStarts : Name.startsName (b ++ rest) = true)
      (hRun : Run Part.inName b rest) :
      Lexed
        (.dimension value (String.ofList (unescape b)))
        (n ++ b) rest
  | cdo {rest : List Char} :
      Lexed .cdo ['<', '!', '-', '-'] rest
  | cdc {rest : List Char} :
      Lexed .cdc ['-', '-', '>'] rest
  | mark {c : Char} {kind : TokenKind} {rest : List Char}
      (hMark : mark? c = some kind) :
      Lexed kind [c] rest
  | delim {c : Char} {rest : List Char}
      (hOther : Delimits c rest) :
      Lexed (.delim c) [c] rest

end Scan

end LosslessCss

------------------------------------------------------------
-- Scanning the Shapes
------------------------------------------------------------

namespace LosslessCss

open Text (Stops)
open NumberPattern (Longest)
open Spelling (Part Run unescape unquote)

namespace Quotation

variable {q : Char} {b rest : List Char}

theorem scan_closed
    (hQuote : isQuote q = true)
    (hRun : Run (Part.inQuotation q) b (q :: rest)) :
    scan q (b ++ q :: rest) =
      ⟨.quotation (String.ofList (unquote b)),
        q :: (b ++ [q]), rest, true⟩ := by
  have hEnd :
      scanBody q (q :: rest) =
        ⟨⟨[], false⟩, [q], rest, true⟩ := by
    rw [scanBody, if_pos rfl]
  rw [scan, scanBody_of_run hQuote hRun, hEnd]
  simp [Lexeme.map, Lexeme.extend, Body.kind]

theorem scan_cutOff
    (hQuote : isQuote q = true)
    (hRun : Run (Part.inQuotation q) b []) :
    scan q b =
      ⟨.quotation (String.ofList (unquote b)), q :: b, [],
        false⟩ := by
  have hScan := scanBody_of_run hQuote hRun
  have hEnd : scanBody q [] = .cutOff ⟨[], false⟩ := by
    rw [scanBody]
  rw [List.append_nil, hEnd] at hScan
  rw [scan, hScan]
  simp [Lexeme.map, Lexeme.extend, Lexeme.cutOff, Body.kind]

theorem scan_spoiled
    (hQuote : isQuote q = true)
    (hRun : Run (Part.inQuotation q) b ('\n' :: rest)) :
    scan q (b ++ '\n' :: rest) =
      ⟨.badQuotation (String.ofList (unquote b)), q :: b,
        '\n' :: rest, true⟩ := by
  have hFeed : '\n' ≠ q :=
    (Text.ne_of_test hQuote (d := '\n') rfl).symm
  have hEnd :
      scanBody q ('\n' :: rest) =
        .stop ⟨[], true⟩ ('\n' :: rest) := by
    rw [scanBody, if_neg hFeed, if_pos rfl]
  rw [scan, scanBody_of_run hQuote hRun, hEnd]
  simp [Lexeme.map, Lexeme.extend, Lexeme.stop, Body.kind]

end Quotation

theorem Url.append_scan
    (b x : List Char) :
    b ++ '(' :: (scan x).raw ++ (scan x).rest =
      b ++ '(' :: x := by
  simp [show _ ++ _ = x from scan_splits x]

namespace Scan

variable
  {n b x text rest : List Char}
  {value : Binary32}

/- A comment runs to the first closing mark. -/
theorem comment_append
    (hInside : ¬ ['*', '/'] <:+: text)
    (rest : List Char) :
    comment (text ++ '*' :: '/' :: rest) =
      ⟨text, text ++ ['*', '/'], rest, true⟩ := by
  induction text with
  | nil => rfl
  | cons c text ih =>
      have hLater : ¬ ['*', '/'] <:+: text :=
        fun hMark => hInside (List.infix_cons hMark)
      rw [List.cons_append, comment, ih hLater]
      · rfl
      · intro cs hStar hSlash
        -- The closing mark itself starts with no slash.
        cases text with
        | nil => cases hSlash
        | cons d text =>
            rw [hStar, (List.cons.inj hSlash).1] at hInside
            exact hInside (List.infix_append [] _ text)

/- Without a closing mark it runs to the end. -/
theorem comment_of_not_infix
    (hInside : ¬ ['*', '/'] <:+: text) :
    comment text = ⟨text, text, [], true⟩ := by
  induction text with
  | nil => rfl
  | cons c text ih =>
      have hLater : ¬ ['*', '/'] <:+: text :=
        fun hMark => hInside (List.infix_cons hMark)
      rw [comment, ih hLater]
      · rfl
      · rintro cs rfl rfl
        exact hInside (List.infix_append [] _ cs)

theorem token_comment
    (cs : List Char) :
    token ('/' :: '*' :: cs) =
      ((comment cs).map fun text =>
          TokenKind.comment (String.ofList text)).extend
        ['/', '*'] := by
  have hStarts : startsComment ('/' :: '*' :: cs) = true :=
    rfl
  rw [token, if_pos hStarts]
  rfl

theorem token_blanks
    {w : List Char}
    (hSome : w ≠ [])
    (hAll : ∀ c ∈ w, Text.isBlank c = true)
    (hStops : Stops Text.isBlank rest) :
    token (w ++ rest) = ⟨.whitespace, w, rest, true⟩ := by
  cases w with
  | nil => exact absurd rfl hSome
  | cons c w =>
      have hTake := List.takeWhile_eq_self_iff.mpr hAll
      have hDrop := List.dropWhile_eq_nil_iff.mpr hAll
      rw [List.cons_append,
        token_of_blank (hAll c List.mem_cons_self),
        ← List.cons_append,
        Text.takeWhile_append_stops hStops, hTake,
        Text.dropWhile_append_stops hStops, hDrop,
        List.nil_append]

theorem identLike_ident
    (hRun : Run Part.inName b rest)
    (hOpen : Stops (· == '(') rest) :
    identLike (b ++ rest) =
      ⟨.ident (String.ofList (unescape b)), b, rest,
        true⟩ := by
  have hName := Name.scan_of_run hRun
  rw [identLike_of_stops (by rw [hName]; exact hOpen), hName]

theorem identLike_function
    (hRun : Run Part.inName b ('(' :: rest))
    (hUrl : opensUrl (unescape b) rest = false) :
    identLike (b ++ '(' :: rest) =
      ⟨.function (String.ofList (unescape b)), b ++ ['('],
        rest, true⟩ := by
  have hName := Name.scan_of_run hRun
  rw [identLike_of_function (by rw [hName])
    (by rw [hName, hUrl]), hName]

theorem identLike_url
    (hRun : Run Part.inName b ('(' :: x))
    (hUrl : opensUrl (unescape b) x = true) :
    identLike (b ++ '(' :: x) =
      ⟨(Url.scan x).value, b ++ '(' :: (Url.scan x).raw,
        (Url.scan x).rest, (Url.scan x).complete⟩ := by
  have hName := Name.scan_of_run hRun
  rw [identLike_of_url (by rw [hName])
    (by rw [hName, hUrl]), hName]
  simp [Lexeme.extend]

/- The longest numeral is the one that is read. -/
theorem token_numeral
    (hLongest : Longest n (n ++ rest))
    (hValue : Binary32.ofNumeral? n = some value) :
    token (n ++ rest) = Numeral.scan (n ++ rest) ∧
      Numeral.takeNumeral (n ++ rest) = (n, rest) ∧
      Numeral.value n = value := by
  have hStarts :=
    NumberPattern.starts_iff.mpr
      ⟨n, hLongest.front, hLongest.mem⟩
  refine
    ⟨token_of_starts hStarts, hLongest.takeNumeral_eq, ?_⟩
  rw [Numeral.value, hValue]
  rfl

theorem token_number
    (hLongest : Longest n (n ++ rest))
    (hValue : Binary32.ofNumeral? n = some value)
    (hUnit : Name.startsName rest = false)
    (hPercent : Stops (· == '%') rest) :
    token (n ++ rest) = ⟨.number value, n, rest, true⟩ := by
  rcases token_numeral hLongest hValue with
    ⟨hScan, hTake, rfl⟩
  rw [hScan,
    Numeral.scan_of_stops (by rw [hTake, hUnit])
      (by rw [hTake]; exact hPercent),
    hTake]

theorem token_percentage
    (hLongest : Longest n (n ++ '%' :: rest))
    (hValue : Binary32.ofNumeral? n = some value) :
    token (n ++ '%' :: rest) =
      ⟨.percentage value, n ++ ['%'], rest, true⟩ := by
  rcases token_numeral hLongest hValue with
    ⟨hScan, hTake, rfl⟩
  rw [hScan, Numeral.scan_of_percent (by rw [hTake]), hTake]

theorem token_dimension
    (hLongest : Longest n (n ++ (b ++ rest)))
    (hValue : Binary32.ofNumeral? n = some value)
    (hStarts : Name.startsName (b ++ rest) = true)
    (hRun : Run Part.inName b rest) :
    token (n ++ (b ++ rest)) =
      ⟨.dimension value (String.ofList (unescape b)), n ++ b,
        rest, true⟩ := by
  rcases token_numeral hLongest hValue with
    ⟨hScan, hTake, rfl⟩
  rw [hScan,
    Numeral.scan_of_startsName (by rw [hTake, hStarts]),
    hTake, Name.scan_of_run hRun]
  rfl

/- What has the shape of a token is scanned as that token. -/
theorem Lexed.token_eq
    {kind : TokenKind}
    {raw rest : List Char}
    (hLexed : Lexed kind raw rest) :
    ∃ complete,
      token (raw ++ rest) = ⟨kind, raw, rest, complete⟩ := by
  cases hLexed with
  | eof => exact ⟨true, rfl⟩
  | blanks hSome hAll hStops =>
      exact ⟨true, token_blanks hSome hAll hStops⟩
  | comment hInside =>
      have hScan := comment_append hInside rest
      simp only [List.cons_append, List.append_assoc,
        List.nil_append, token_comment, hScan]
      exact ⟨true, rfl⟩
  | openComment hInside =>
      have hScan := comment_of_not_infix hInside
      rw [List.append_nil, token_comment, hScan]
      exact ⟨true, rfl⟩
  | quotation hQuote hRun =>
      simp only [List.cons_append, List.append_assoc,
        List.nil_append, token_of_quote hQuote]
      exact ⟨true, Quotation.scan_closed hQuote hRun⟩
  | openQuotation hQuote hRun =>
      rw [List.append_nil, token_of_quote hQuote]
      exact ⟨false, Quotation.scan_cutOff hQuote hRun⟩
  | badQuotation hQuote hRun =>
      rw [List.cons_append, token_of_quote hQuote]
      exact ⟨true, Quotation.scan_spoiled hQuote hRun⟩
  | hash hGoes hRun =>
      rw [List.cons_append, token_hash, Scan.hash,
        if_pos hGoes, Name.scan_of_run hRun]
      exact ⟨true, rfl⟩
  | atKeyword hStarts hRun =>
      rw [List.cons_append, token_atSign, atSign,
        if_pos hStarts, Name.scan_of_run hRun]
      exact ⟨true, rfl⟩
  | ident hFirst hRun hOpen =>
      rw [token_of_nameFirst hFirst]
      exact ⟨true, identLike_ident hRun hOpen⟩
  | function hFirst hRun hUrl =>
      rw [List.append_assoc, List.singleton_append,
        token_of_nameFirst hFirst]
      exact ⟨true, identLike_function hRun hUrl⟩
  | url hFirst hRun hUrl hKind =>
      rw [Url.append_scan, token_of_nameFirst hFirst, ← hKind]
      exact ⟨_, identLike_url hRun hUrl⟩
  | badUrl hFirst hRun hUrl hKind =>
      rw [Url.append_scan, token_of_nameFirst hFirst, ← hKind]
      exact ⟨_, identLike_url hRun hUrl⟩
  | number hLongest hValue hUnit hPercent =>
      exact
        ⟨true, token_number hLongest hValue hUnit hPercent⟩
  | percentage hLongest hValue =>
      rw [List.append_assoc, List.singleton_append]
      exact ⟨true, token_percentage hLongest hValue⟩
  | dimension hLongest hValue hStarts hRun =>
      rw [List.append_assoc]
      exact
        ⟨true, token_dimension hLongest hValue hStarts hRun⟩
  | cdo => exact ⟨true, rfl⟩
  | cdc => exact ⟨true, rfl⟩
  | mark hMark => exact ⟨true, token_of_mark hMark rest⟩
  | delim hOther => exact ⟨true, token_of_delimits hOther⟩

end Scan

end LosslessCss

------------------------------------------------------------
-- Every Text Starts with a Shape
------------------------------------------------------------

namespace LosslessCss

open Text (Stops)
open NumberPattern (Longest)
open Spelling (Part Run unescape unquote)

namespace Url

theorem kind_scan
    (x : List Char) :
    (∃ address, (scan x).value = .url address) ∨
      ∃ address, (scan x).value = .badUrl address := by
  simp only [scan, Lexeme.extend, Lexeme.map, Body.kind]
  split
  · exact .inr ⟨_, rfl⟩
  · exact .inl ⟨_, rfl⟩

end Url

namespace Scan

variable {c : Char} {input : List Char}

/- A text that starts with the shape of a token. -/
def Shaped (input : List Char) : Prop :=
  ∃ kind raw rest, input = raw ++ rest ∧ Lexed kind raw rest

/- A text up to its first closing mark, if it has one. -/
theorem exists_inside
    (cs : List Char) :
    ∃ text, ¬ ['*', '/'] <:+: text ∧
      (cs = text ∨
        ∃ rest, cs = text ++ ['*', '/'] ++ rest) := by
  induction cs with
  | nil => exact ⟨[], by simp, .inl rfl⟩
  | cons c cs ih =>
      by_cases hMark : ['*', '/'] <+: c :: cs
      · rcases hMark with ⟨rest, hRest⟩
        exact ⟨[], by simp, .inr ⟨rest, hRest.symm⟩⟩
      rcases ih with ⟨text, hInside, hCases⟩
      have hFront : text <+: cs := by
        rcases hCases with rfl | ⟨rest, rfl⟩
        · exact List.prefix_refl _
        · simp
      refine ⟨c :: text, ?_, ?_⟩
      · rw [List.infix_cons_iff]
        rintro (hFirst | hLater)
        · exact
            hMark
              (hFirst.trans
                (List.cons_prefix_cons.mpr ⟨rfl, hFront⟩))
        · exact hInside hLater
      · rcases hCases with rfl | ⟨rest, rfl⟩
        · exact .inl rfl
        · exact .inr ⟨rest, rfl⟩

theorem shaped_comment
    (cs : List Char) :
    Shaped ('/' :: '*' :: cs) := by
  rcases exists_inside cs with
    ⟨text, hInside, rfl | ⟨rest, rfl⟩⟩
  · exact ⟨_, _, _, by simp, .openComment hInside⟩
  · exact ⟨_, _, rest, by simp, .comment hInside⟩

theorem shaped_blanks
    (hBlank : Text.isBlank c = true)
    (cs : List Char) :
    Shaped (c :: cs) := by
  refine
    ⟨_, (c :: cs).takeWhile Text.isBlank,
      (c :: cs).dropWhile Text.isBlank,
      List.takeWhile_append_dropWhile.symm,
      .blanks ?_ ?_ (Text.stops_dropWhile _ _)⟩
  · simp [hBlank]
  · exact fun d hMem => List.mem_takeWhile_imp hMem

theorem shaped_quotation
    (hQuote : Quotation.isQuote c = true)
    (cs : List Char) :
    Shaped (c :: cs) := by
  rcases Spelling.exists_run (Part.inQuotation c) cs with
    ⟨b, rest, rfl, hRun⟩
  rcases Quotation.rest_cases_of_run hRun with
    rfl | ⟨tail, rfl⟩ | ⟨tail, rfl⟩
  · exact ⟨_, _, [], rfl, .openQuotation hQuote hRun⟩
  · exact ⟨_, _, tail, by simp, .quotation hQuote hRun⟩
  · exact
      ⟨_, _, '\n' :: tail, rfl, .badQuotation hQuote hRun⟩

theorem shaped_delim
    {rest : List Char}
    (hOther : Delimits c rest) :
    Shaped (c :: rest) :=
  ⟨_, [c], rest, rfl, .delim hOther⟩

theorem shaped_hash
    (cs : List Char) :
    Shaped ('#' :: cs) := by
  cases hGoes : Name.continues cs with
  | true =>
      rcases Spelling.exists_run Part.inName cs with
        ⟨b, rest, rfl, hRun⟩
      exact ⟨_, _, rest, rfl, .hash hGoes hRun⟩
  | false =>
      apply shaped_delim
      refine ⟨rfl, rfl, rfl, rfl, rfl, rfl, ?_, ?_, ?_⟩
      · simp
      · exact fun _ => hGoes
      · exact fun hAt => by cases hAt

theorem shaped_atSign
    (cs : List Char) :
    Shaped ('@' :: cs) := by
  cases hStarts : Name.startsName cs with
  | true =>
      rcases Spelling.exists_run Part.inName cs with
        ⟨b, rest, rfl, hRun⟩
      exact ⟨_, _, rest, rfl, .atKeyword hStarts hRun⟩
  | false =>
      apply shaped_delim
      refine ⟨rfl, rfl, rfl, rfl, rfl, rfl, ?_, ?_, ?_⟩
      · simp
      · exact fun hHash => by cases hHash
      · exact fun _ => hStarts

theorem shaped_lessThan
    (cs : List Char) :
    Shaped ('<' :: cs) := by
  by_cases hOpening : ['<', '!', '-', '-'] <+: '<' :: cs
  · rcases hOpening with ⟨rest, hRest⟩
    exact ⟨_, _, rest, hRest.symm, .cdo⟩
  · apply shaped_delim
    refine ⟨rfl, rfl, rfl, rfl, rfl, rfl, hOpening, ?_, ?_⟩
    · exact fun hHash => by cases hHash
    · exact fun hAt => by cases hAt

theorem shaped_numeral
    (hStarts : NumberPattern.starts input = true) :
    Shaped input := by
  have hLongest := NumberPattern.longest_takeNumeral hStarts
  have hJoin := Numeral.takeNumeral_append input
  generalize (Numeral.takeNumeral input).1 = n
    at hLongest hJoin
  generalize (Numeral.takeNumeral input).2 = rest at hJoin
  subst hJoin
  rcases NumberPattern.exists_ofNumeral? hLongest.mem with
    ⟨value, hValue⟩
  cases hUnit : Name.startsName rest with
  | true =>
      rcases Spelling.exists_run Part.inName rest with
        ⟨b, tail, rfl, hRun⟩
      exact
        ⟨_, n ++ b, tail, by simp,
          .dimension hLongest hValue hUnit hRun⟩
  | false =>
      rcases Text.stops_or_eq_cons '%' rest with
        hStops | ⟨tail, rfl⟩
      · exact
          ⟨_, n, rest, rfl,
            .number hLongest hValue hUnit hStops⟩
      · exact
          ⟨_, n ++ ['%'], tail, by simp,
            .percentage hLongest hValue⟩

theorem shaped_nameFirst
    (hFirst : NameFirst input) :
    Shaped input := by
  rcases Spelling.exists_run Part.inName input with
    ⟨b, rest, rfl, hRun⟩
  rcases Text.stops_or_eq_cons '(' rest with
    hStops | ⟨x, rfl⟩
  · exact ⟨_, b, rest, rfl, .ident hFirst hRun hStops⟩
  cases hUrl : opensUrl (unescape b) x with
  | false =>
      exact
        ⟨_, b ++ ['('], x, by simp,
          .function hFirst hRun hUrl⟩
  | true =>
      have hJoin := (Url.append_scan b x).symm
      rcases Url.kind_scan x with
        ⟨address, hKind⟩ | ⟨address, hKind⟩
      · exact
          ⟨_, _, _, hJoin, .url hFirst hRun hUrl hKind⟩
      · exact
          ⟨_, _, _, hJoin, .badUrl hFirst hRun hUrl hKind⟩

theorem shaped_minus
    (cs : List Char) :
    Shaped ('-' :: cs) := by
  cases hStarts : NumberPattern.starts ('-' :: cs) with
  | true => exact shaped_numeral hStarts
  | false =>
      by_cases hArrow : ['-', '-', '>'] <+: '-' :: cs
      · rcases hArrow with ⟨rest, hRest⟩
        exact ⟨_, _, rest, hRest.symm, .cdc⟩
      cases hName : Name.startsName ('-' :: cs) with
      | true =>
          have hBlank : Stops Text.isBlank ('-' :: cs) := by
            simp [Stops]
            rfl
          exact shaped_nameFirst ⟨hName, hBlank, hArrow⟩
      | false =>
          apply shaped_delim
          refine
            ⟨rfl, rfl, rfl, rfl, hStarts, hName, ?_, ?_, ?_⟩
          · simp
          · exact fun hHash => by cases hHash
          · exact fun hAt => by cases hAt

theorem shaped_plain
    {cs : List Char}
    (hFirst : c ∉ ['#', '@', '-', '<'])
    (hComment : startsComment (c :: cs) = false)
    (hBlank : Text.isBlank c = false)
    (hQuote : Quotation.isQuote c = false) :
    Shaped (c :: cs) := by
  simp only [List.mem_cons, List.not_mem_nil, or_false,
    not_or] at hFirst
  rcases hFirst with ⟨hHash, hAt, hMinus, hLess⟩
  cases hStarts : NumberPattern.starts (c :: cs) with
  | true => exact shaped_numeral hStarts
  | false =>
      cases hName : Name.startsName (c :: cs) with
      | true =>
          refine
            shaped_nameFirst
              ⟨hName, by simpa [Stops] using hBlank, ?_⟩
          intro hFront
          exact
            hMinus (List.cons_prefix_cons.mp hFront).1.symm
      | false =>
          cases hMark : mark? c with
          | some kind => exact ⟨kind, [c], cs, rfl, .mark hMark⟩
          | none =>
              apply shaped_delim
              refine
                ⟨hComment, hBlank, hQuote, hMark, hStarts,
                  hName, ?_, ?_, ?_⟩
              · intro hFront
                exact
                  hLess
                    (List.cons_prefix_cons.mp hFront).1.symm
              · exact fun hOwn => absurd hOwn hHash
              · exact fun hOwn => absurd hOwn hAt

/- The cases are those of the first character. -/
theorem shaped
    (input : List Char) :
    Shaped input := by
  cases input with
  | nil => exact ⟨_, [], [], rfl, .eof⟩
  | cons c cs =>
      cases hComment : startsComment (c :: cs) with
      | true =>
          rcases eq_of_startsComment hComment with
            ⟨rest, hCons⟩
          rw [hCons]
          exact shaped_comment rest
      | false =>
          cases hBlank : Text.isBlank c with
          | true => exact shaped_blanks hBlank cs
          | false =>
              cases hQuote : Quotation.isQuote c with
              | true => exact shaped_quotation hQuote cs
              | false =>
                  by_cases hFirst : c ∈ ['#', '@', '-', '<']
                  · simp only [List.mem_cons,
                      List.not_mem_nil, or_false] at hFirst
                    rcases hFirst with rfl | rfl | rfl | rfl
                    · exact shaped_hash cs
                    · exact shaped_atSign cs
                    · exact shaped_minus cs
                    · exact shaped_lessThan cs
                  · exact
                      shaped_plain hFirst hComment hBlank
                        hQuote

/- A scanned token has the shape of its kind. -/
theorem lexed_token
    (input : List Char) :
    Lexed (token input).value (token input).raw
      (token input).rest := by
  rcases shaped input with ⟨kind, raw, rest, rfl, hLexed⟩
  rcases hLexed.token_eq with ⟨complete, hToken⟩
  rw [hToken]
  exact hLexed

end Scan

end LosslessCss

------------------------------------------------------------
-- Tokens of a Text
------------------------------------------------------------

namespace LosslessCss

open TokenSource (upcoming)

namespace Lexer

variable
  {css : String}
  {here : Location}
  {left right : List Token}
  {t : Token}

/- The tokens of a text, cut in two, cut the text in two. -/
theorem text_of_split
    {us : List Token}
    (hSplit : tokenize css here = left ++ us) :
    css.toList =
      (Token.rawText left).toList ++
        (Token.rawText us).toList := by
  have hText := PulledText.rawText_tokenize css here
  rw [hSplit, Token.rawText_append] at hText
  rw [← hText, String.toList_append]

theorem token_of_upcoming
    (hTokens :
      upcoming (PulledText.ofText css here) =
        left ++ t :: right) :
    ∃ complete,
      Scan.token (Token.rawText (t :: right)).toList =
        ⟨t.kind, t.raw.toList, (Token.rawText right).toList,
          complete⟩ := by
  rcases PulledText.upcoming_eq_cons_iff.mp
      (PulledText.upcoming_of_append hTokens) with
    ⟨rest, complete, -, hScan, -, -⟩
  have hRest :
      rest.toList = (Token.rawText right).toList := by
    have hJoin :=
      Scan.token_splits (Token.rawText (t :: right)).toList
    rw [hScan] at hJoin
    simpa [Lexeme.Splits, Token.rawText] using hJoin
  exact ⟨complete, by rw [hScan, hRest]⟩

/- Every token is scanned from its text and what follows. -/
theorem token_of_split
    (hSplit : tokenize css here = left ++ t :: right) :
    ∃ complete,
      Scan.token (Token.rawText (t :: right)).toList =
        ⟨t.kind, t.raw.toList, (Token.rawText right).toList,
          complete⟩ := by
  let last := Token.endOfInput (here.advanceBy css)
  have hTokens :
      upcoming (PulledText.ofText css here) ++ [last] =
        left ++ t :: right := by
    rw [← hSplit, PulledText.tokenize_eq,
      PulledText.ending_ofText]
  rcases List.eq_nil_or_concat right with
    rfl | ⟨ts, eof, rfl⟩
  · have hLast := List.append_inj_right' hTokens rfl
    rw [← (List.cons.inj hLast).1]
    exact ⟨true, rfl⟩
  · rw [List.concat_eq_append, ← List.cons_append,
      ← List.append_assoc] at hTokens
    have hOthers := List.append_inj_left' hTokens rfl
    have hLast := List.append_inj_right' hTokens rfl
    have hText :
        Token.rawText (ts.concat eof) = Token.rawText ts := by
      rw [← (List.cons.inj hLast).1, List.concat_eq_append,
        Token.rawText_append]
      simp [last, Token.rawText, Token.endOfInput]
    rcases token_of_upcoming hOthers with ⟨complete, hScan⟩
    rw [Token.rawText] at hScan
    exact ⟨complete, by rw [Token.rawText, hText, hScan]⟩

/- Every token has the shape of its kind. -/
theorem lexed_of_split
    (hSplit : tokenize css here = left ++ t :: right) :
    Scan.Lexed t.kind t.raw.toList
      (Token.rawText right).toList := by
  have hLexed :=
    Scan.lexed_token (Token.rawText (t :: right)).toList
  rcases token_of_split hSplit with ⟨complete, hScan⟩
  rw [hScan] at hLexed
  exact hLexed

end Lexer

end LosslessCss
