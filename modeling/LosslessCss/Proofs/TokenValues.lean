import LosslessCss.Proofs.TokenShapes

/-
  What tokens mean.

  The value of a token is its text without marks and quotes,
  with the escapes decoded.  The value of a numeric token is
  read from the longest numeral that its text starts with,
  and a token is numeric wherever there is such a numeral.

  Key definitions include:
    * `TokenKind.Decodes`
    * `TokenKind.isNumeric`

  Key theorems include:
    * `Url.scan_cases`
    * `Lexer.tokenize_decodes`
    * `Lexer.numerals_longest`
-/

------------------------------------------------------------
-- Addresses
------------------------------------------------------------

namespace LosslessCss

open Spelling (Part Run parts unescape)

namespace Url

theorem value_scanRemnants
    (input : List Char) :
    (scanRemnants input).value = ⟨[], true⟩ := by
  fun_induction scanRemnants input with
  | case1 => rfl
  | case2 => rfl
  | case3 c cs _ _ escape ih => exact ih
  | case4 c cs _ _ ih => exact ih

/- What follows an address: its end, or what spoils it. -/
inductive Ends : Lexeme Body → Prop where
  | closed {e rest : List Char} {complete : Bool}
      (hBlanks : ∀ c ∈ e, Text.isBlank c = true) :
      Ends ⟨⟨[], false⟩, e ++ [')'], rest, complete⟩
  | cutOff {e : List Char} {complete : Bool}
      (hBlanks : ∀ c ∈ e, Text.isBlank c = true) :
      Ends ⟨⟨[], false⟩, e, [], complete⟩
  | spoiled {raw rest : List Char} {complete : Bool} :
      Ends ⟨⟨[], true⟩, raw, rest, complete⟩

theorem ends_scanRemnants
    (input e : List Char) :
    Ends ((scanRemnants input).extend e) := by
  have hValue := value_scanRemnants input
  generalize scanRemnants input = lexeme at hValue
  rcases lexeme with ⟨value, raw, rest, complete⟩
  cases hValue
  exact .spoiled

theorem ends_scanEnd
    {e : List Char}
    (hBlanks : ∀ c ∈ e, Text.isBlank c = true)
    (input : List Char) :
    Ends ((scanEnd input).extend e) := by
  unfold scanEnd
  split
  · simpa [Lexeme.extend, Lexeme.cutOff]
      using Ends.cutOff hBlanks
  · split
    · rename_i c cs hParen
      rw [hParen]
      exact .closed hBlanks
    · exact ends_scanRemnants _ e

/- An address goes on through all of its parts. -/
theorem ends_of_run
    {front rest : List Char}
    (hRun : Run Part.inAddress front rest) :
    Ends (scanAddress rest) := by
  cases rest with
  | nil =>
      rw [scanAddress]
      exact .cutOff (by simp)
  | cons c cs =>
      rcases Spelling.exists_first c cs with
        ⟨p, tail, hFirst⟩
      have hOther :=
        hRun.stops p (by simp [hFirst.parts_eq])
      rw [scanAddress]
      split
      · rename_i hParen
        rw [hParen]
        exact .closed (e := []) (by simp)
      split
      · exact
          ends_scanEnd
            (fun d hMem => List.mem_takeWhile_imp hMem) _
      split
      · exact ends_scanRemnants (c :: cs) []
      rename_i hParen hBlank hSpoils
      cases hFirst with
      | escaped hEscape => cases hOther
      | fold =>
          have hEscape :
              Escape.startsEscape ('\\' :: '\n' :: tail) =
                false :=
            rfl
          rw [if_neg (by simp [hEscape]), if_pos rfl]
          exact ends_scanRemnants ('\\' :: '\n' :: tail) []
      | bare hSlash =>
          simp [Part.inAddress, hParen, hBlank, hSpoils,
            hSlash] at hOther
      | slash =>
          rw [if_neg (by decide), if_pos rfl]
          exact ends_scanRemnants ['\\'] []

/-
  An address token after its parenthesis: blanks, the parts
  of the address, and what ends it.
-/
theorem scan_cases
    (x : List Char) :
    ∃ w a m rest complete,
      (∀ c ∈ w, Text.isBlank c = true) ∧
      Run Part.inAddress a (m ++ rest) ∧
      ∃ spoiled,
        Ends ⟨⟨[], spoiled⟩, m, rest, complete⟩ ∧
        scan x =
          ⟨Body.kind ⟨unescape a, spoiled⟩, w ++ (a ++ m),
            rest, complete⟩ := by
  rcases Spelling.exists_run Part.inAddress
      (x.dropWhile Text.isBlank) with
    ⟨a, rest, hParts, hRun⟩
  have hEnds := ends_of_run hRun
  have hSplits := scanAddress_splits rest
  have hScan :
      scan x =
        (((scanAddress rest).map fun body =>
            Body.kind
              ⟨unescape a ++ body.address,
                body.spoiled⟩).extend
            a).extend
          (x.takeWhile Text.isBlank) := by
    rw [scan, hParts, scanAddress_of_run hRun]
    rfl
  generalize scanAddress rest = lexeme
    at hEnds hSplits hScan
  rcases lexeme with ⟨⟨address, spoiled⟩, m, rest', complete⟩
  have hNone : address = [] := by
    cases hEnds <;> rfl
  subst hNone
  rw [← show m ++ rest' = rest from hSplits] at hRun
  refine
    ⟨x.takeWhile Text.isBlank, a, m, rest', complete,
      fun c hMem => List.mem_takeWhile_imp hMem, hRun,
      spoiled, hEnds, ?_⟩
  simpa [Lexeme.map, Lexeme.extend] using hScan

end Url

end LosslessCss

------------------------------------------------------------
-- Values
------------------------------------------------------------

namespace LosslessCss

open NumberPattern (Longest)
open Spelling (Apart Part Run parts unescape unquote)

/-
  How the value of a token is read off its characters, with
  those that follow it.  No quote and no line feed stands
  bare inside of a quotation, and the closing quote is not a
  part of an escape.  The other kinds have no value, or that
  of a numeral.
-/
def TokenKind.Decodes
    (kind : TokenKind)
    (raw rest : List Char) : Prop :=
  match kind with
  | .ident name => name.toList = unescape raw
  | .atKeyword name =>
      ∃ b, raw = '@' :: b ∧ name.toList = unescape b
  | .hash name =>
      ∃ b, raw = '#' :: b ∧ name.toList = unescape b
  | .function name =>
      ∃ b, raw = b ++ ['('] ∧ name.toList = unescape b
  | .dimension _ unit =>
      ∃ n b, raw = n ++ b ∧ Longest n (raw ++ rest) ∧
        unit.toList = unescape b
  | .delim c => raw = [c]
  | .comment text =>
      ¬ ['*', '/'] <:+: text.toList ∧
        (raw = '/' :: '*' :: (text.toList ++ ['*', '/']) ∨
          raw = '/' :: '*' :: text.toList ∧ rest = [])
  | .quotation text =>
      ∃ q b,
        Quotation.isQuote q = true ∧
        Part.bare q ∉ parts b ∧
        Part.bare '\n' ∉ parts b ∧
        text.toList = unquote b ∧
        (raw = q :: (b ++ [q]) ∧ Apart b [q] ∨
          raw = q :: b ∧ rest = [])
  | .badQuotation text =>
      ∃ q b,
        Quotation.isQuote q = true ∧
        Part.bare q ∉ parts b ∧
        Part.bare '\n' ∉ parts b ∧
        text.toList = unquote b ∧
        raw = q :: b
  | .url address =>
      ∃ b w a e,
        Text.sameLetters (String.ofList (unescape b)) "url" =
          true ∧
        (∀ c ∈ w ++ e, Text.isBlank c = true) ∧
        (∀ p ∈ parts a, p.inAddress = true) ∧
        address.toList = unescape a ∧
        (raw = b ++ '(' :: (w ++ (a ++ (e ++ [')']))) ∨
          raw = b ++ '(' :: (w ++ (a ++ e)) ∧ rest = [])
  | .badUrl address =>
      ∃ b w a m,
        Text.sameLetters (String.ofList (unescape b)) "url" =
          true ∧
        (∀ c ∈ w, Text.isBlank c = true) ∧
        Run Part.inAddress a (m ++ rest) ∧
        address.toList = unescape a ∧
        raw = b ++ '(' :: (w ++ (a ++ m))
  | _ => True

namespace Scan

variable {kind : TokenKind} {raw rest : List Char}

theorem not_mem_of_run
    {q : Char}
    {b : List Char}
    (hRun : Run (Part.inQuotation q) b rest) :
    Part.bare q ∉ parts b ∧ Part.bare '\n' ∉ parts b := by
  constructor
  · intro hMem
    have hOwn := hRun.all _ hMem
    simp [Part.inQuotation] at hOwn
  · intro hMem
    have hOwn := hRun.all _ hMem
    simp [Part.inQuotation] at hOwn

theorem sameLetters_of_opensUrl
    {name x : List Char}
    (hUrl : opensUrl name x = true) :
    Text.sameLetters (String.ofList name) "url" = true :=
  (Bool.and_eq_true_iff.mp hUrl).1

theorem decodes_url
    {b x : List Char}
    (hUrl : opensUrl (unescape b) x = true) :
    (Url.scan x).value.Decodes
      (b ++ '(' :: (Url.scan x).raw) (Url.scan x).rest := by
  have hName := sameLetters_of_opensUrl hUrl
  rcases Url.scan_cases x with
    ⟨w, a, m, rest, complete, hBlanks, hRun, spoiled, hEnds,
      hScan⟩
  rw [hScan]
  cases hEnds with
  | @closed e _ _ hMore =>
      exact
        ⟨b, w, a, e, hName,
          List.forall_mem_append.mpr ⟨hBlanks, hMore⟩,
          hRun.all, String.toList_ofList, .inl rfl⟩
  | cutOff hMore =>
      exact
        ⟨b, w, a, m, hName,
          List.forall_mem_append.mpr ⟨hBlanks, hMore⟩,
          hRun.all, String.toList_ofList,
          .inr ⟨rfl, rfl⟩⟩
  | spoiled =>
      exact
        ⟨b, w, a, m, hName, hBlanks, hRun,
          String.toList_ofList, rfl⟩

/- The shape of a token says how its value is read. -/
theorem Lexed.decodes
    (hLexed : Lexed kind raw rest) :
    kind.Decodes raw rest := by
  cases hLexed with
  | eof => trivial
  | blanks => trivial
  | comment hInside =>
      rw [TokenKind.Decodes, String.toList_ofList]
      exact ⟨hInside, .inl rfl⟩
  | openComment hInside =>
      rw [TokenKind.Decodes, String.toList_ofList]
      exact ⟨hInside, .inr ⟨rfl, rfl⟩⟩
  | @quotation q b rest hQuote hRun =>
      have hInside := not_mem_of_run hRun
      have hApart : Apart b [q] :=
        hRun.apart_of_front (by simp)
      exact
        ⟨q, b, hQuote, hInside.1, hInside.2,
          String.toList_ofList, .inl ⟨rfl, hApart⟩⟩
  | @openQuotation q b hQuote hRun =>
      have hInside := not_mem_of_run hRun
      exact
        ⟨q, b, hQuote, hInside.1, hInside.2,
          String.toList_ofList, .inr ⟨rfl, rfl⟩⟩
  | @badQuotation q b rest hQuote hRun =>
      have hInside := not_mem_of_run hRun
      exact
        ⟨q, b, hQuote, hInside.1, hInside.2,
          String.toList_ofList, rfl⟩
  | hash => exact ⟨_, rfl, String.toList_ofList⟩
  | atKeyword => exact ⟨_, rfl, String.toList_ofList⟩
  | ident => exact String.toList_ofList
  | function => exact ⟨_, rfl, String.toList_ofList⟩
  | url hFirst hRun hUrl hKind =>
      have hDecodes := decodes_url hUrl
      rwa [hKind] at hDecodes
  | badUrl hFirst hRun hUrl hKind =>
      have hDecodes := decodes_url hUrl
      rwa [hKind] at hDecodes
  | number => trivial
  | percentage => trivial
  | @dimension n b rest value hLongest =>
      rw [← List.append_assoc] at hLongest
      exact ⟨n, b, rfl, hLongest, String.toList_ofList⟩
  | cdo => trivial
  | cdc => trivial
  | mark hMark =>
      exact
        of_mark (P := fun other => other.Decodes _ rest)
          hMark (by simp [markKinds, TokenKind.Decodes])
  | delim => rfl

end Scan

namespace Lexer

/-
  The value of every token of a text is its source text,
  decoded.
-/
theorem tokenize_decodes
    {css : String}
    {here : Location}
    {left right : List Token}
    {t : Token}
    (hSplit : tokenize css here = left ++ t :: right) :
    t.kind.Decodes t.raw.toList
      (Token.rawText right).toList :=
  (lexed_of_split hSplit).decodes

/-
  A quotation with an escaped quote, an escaped line feed,
  and a backslash at the end of the text.
-/
theorem tokenize_decodes_cut_off :
    ∃ left t right,
      tokenize "@\\6d edia '\\27\\\n\\" ⟨1, 1, 0⟩ =
        left ++ t :: right ∧
      t.kind = .quotation "'\\" ∧
      t.kind.Decodes t.raw.toList
        (Token.rawText right).toList := by
  let css := "@\\6d edia '\\27\\\n\\"
  let left := (tokenize css ⟨1, 1, 0⟩).take 2
  let t : Token :=
    ⟨.quotation "'\\", "'\\27\\\n\\", ⟨1, 11, 10⟩⟩
  have hSplit :
      tokenize css ⟨1, 1, 0⟩ =
        left ++ t :: [Token.endOfInput ⟨2, 2, 17⟩] := by
    decide +kernel
  exact ⟨left, t, _, hSplit, rfl, tokenize_decodes hSplit⟩

end Lexer

end LosslessCss

------------------------------------------------------------
-- Numbers
------------------------------------------------------------

namespace LosslessCss

open NumberPattern (Longest numeral)
open Spelling (Part Run parts)

namespace TokenKind

/- Whether the token is read from a numeral. -/
def isNumeric : TokenKind → Bool
| .number _ => true
| .percentage _ => true
| .dimension _ _ => true
| _ => false

/-
  A numeric token that reads the numeral `n`: alone, with a
  percent sign, or with a name as its unit.
-/
def Measures
    (kind : TokenKind)
    (n raw : List Char) : Prop :=
  match kind with
  | .number value =>
      Binary32.ofNumeral? n = some value ∧ raw = n
  | .percentage value =>
      Binary32.ofNumeral? n = some value ∧ raw = n ++ ['%']
  | .dimension value _ =>
      Binary32.ofNumeral? n = some value ∧
        ∃ b, raw = n ++ b ∧ Name.startsName b = true ∧
          ∀ p ∈ parts b, p.inName = true
  | _ => False

end TokenKind

theorem TokenKind.Measures.isPrefix
    {kind : TokenKind}
    {n raw : List Char}
    (hMeasures : kind.Measures n raw) :
    n <+: raw := by
  unfold TokenKind.Measures at hMeasures
  split at hMeasures
  · rw [hMeasures.2]
  · rw [hMeasures.2]
    exact List.prefix_append _ _
  · rcases hMeasures with ⟨-, b, rfl, -⟩
    exact List.prefix_append _ _
  · cases hMeasures

theorem Numeral.isNumeric_scan
    (input : List Char) :
    (scan input).value.isNumeric = true := by
  unfold scan
  simp only
  split
  · rfl
  · split
    · rfl
    · rfl

namespace Scan

variable {kind : TokenKind} {raw rest : List Char}

/- The numeral that is read is the longest one. -/
theorem Lexed.measures
    (hLexed : Lexed kind raw rest)
    (hNumeric : kind.isNumeric = true) :
    ∃ n, Longest n (raw ++ rest) ∧ kind.Measures n raw := by
  cases hLexed with
  | number hLongest hValue =>
      exact ⟨_, hLongest, hValue, rfl⟩
  | percentage hLongest hValue =>
      exact ⟨_, by simpa using hLongest, hValue, rfl⟩
  | @dimension n b rest value hLongest hValue hStarts hRun =>
      have hName := Name.startsName_of_run hStarts hRun []
      rw [List.append_nil] at hName
      exact
        ⟨n, by simpa using hLongest, hValue, b, rfl, hName,
          hRun.all⟩
  | mark hMark =>
      have hNone : kind.isNumeric = false :=
        of_mark (P := fun other => other.isNumeric = false)
          hMark (by decide)
      rw [hNumeric] at hNone
      cases hNone
  | _ => cases hNumeric

end Scan

namespace Lexer

variable
  {css : String}
  {here : Location}
  {left right : List Token}
  {t : Token}

/-
  What is read by a numeric token is the longest match of
  the pattern at its start.  It can always be read, and a
  token is numeric wherever the pattern matches.
-/
theorem numerals_longest
    (hSplit : tokenize css here = left ++ t :: right) :
    let input := (Token.rawText (t :: right)).toList
    let n := (Numeral.takeNumeral input).1
    css.toList = (Token.rawText left).toList ++ input ∧
    (t.kind.isNumeric = true →
      n <+: t.raw.toList ∧ Longest n input ∧
        t.kind.Measures n t.raw.toList) ∧
    ((∃ m, m ≠ [] ∧ m <+: input ∧ m ∈ numeral.matches') →
      t.kind.isNumeric = true) := by
  intro input n
  rcases token_of_split hSplit with ⟨complete, hScan⟩
  refine ⟨text_of_split hSplit, ?_, ?_⟩
  · intro hNumeric
    rcases (lexed_of_split hSplit).measures hNumeric with
      ⟨m, hLongest, hMeasures⟩
    have hInput :
        t.raw.toList ++ (Token.rawText right).toList =
          input :=
      String.toList_append.symm
    rw [hInput] at hLongest
    have hSame : n = m := hLongest.takeNumeral_fst
    rw [hSame]
    exact ⟨hMeasures.isPrefix, hLongest, hMeasures⟩
  · rintro ⟨m, -, hFront, hMatch⟩
    have hStarts : NumberPattern.starts input = true :=
      NumberPattern.starts_iff.mpr ⟨m, hFront, hMatch⟩
    have hKind : (Scan.token input).value = t.kind := by
      rw [hScan]
    rw [← hKind, Scan.token_of_starts hStarts]
    exact Numeral.isNumeric_scan input

/-
  A sign, a fraction without digits in front of it and an
  exponent, directly followed by a unit.
-/
theorem numerals_longest_signed :
    ∃ left t right,
      tokenize "x:-.5E+3em" ⟨1, 1, 0⟩ =
        left ++ t :: right ∧
      t.raw = "-.5E+3em" ∧
      t.kind.isNumeric = true ∧
      t.kind.Measures "-.5E+3".toList t.raw.toList := by
  let left := (tokenize "x:-.5E+3em" ⟨1, 1, 0⟩).take 2
  let value : Binary32 := ⟨0xC3FA0000⟩
  let t : Token :=
    ⟨.dimension value "em", "-.5E+3em", ⟨1, 3, 2⟩⟩
  have hSplit :
      tokenize "x:-.5E+3em" ⟨1, 1, 0⟩ =
        left ++ t :: [Token.endOfInput ⟨1, 11, 10⟩] := by
    decide +kernel
  have hNumeral :
      (Numeral.takeNumeral
          (Token.rawText
            (t :: [Token.endOfInput ⟨1, 11, 10⟩])).toList).1 =
        "-.5E+3".toList := by
    decide +kernel
  have hMeasures :=
    ((numerals_longest hSplit).2.1 rfl).2.2
  rw [hNumeral] at hMeasures
  exact ⟨left, t, _, hSplit, rfl, rfl, hMeasures⟩

end Lexer

end LosslessCss
