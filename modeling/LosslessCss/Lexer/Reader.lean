import LosslessCss.Lexer

/-
  Reading tokens with the cursor of the stream.

  A scanner is given all the characters that are ahead.  The
  loops here look at a few characters past the cursor and
  move over them one by one.  Where a stream has run dry it
  shows no character, but only a closed one is finished, so
  a loop that waits for the end never returns on a stream
  that stays open.

  Key definitions include:
    * `Lexer.step`
    * `Lexer.loop`
    * `Lexer.readEscape`
    * `Lexer.readName`
    * `Lexer.readNumeric`
    * `Lexer.readQuoted`
    * `Lexer.readUrl`
    * `Lexer.readKind`
    * `Lexer.readToken`
    * `Lexer.readTokens`
-/

------------------------------------------------------------
-- The Cursor
------------------------------------------------------------

namespace LosslessCss

/- The character that a reading is used as, if need be. -/
def Reading.toChar (r : Reading) : Char :=
  r.char?.getD '\x00'

/- The place after what was read.  Ends do not move it. -/
def Location.past
    (here : Location)
    (r : Reading) : Location :=
  r.char?.elim here here.advance

theorem Location.Counted.past
    {here : Location}
    (hCounted : here.Counted)
    (r : Reading) :
    (here.past r).Counted := by
  unfold Location.past
  cases r.char? with
  | none => exact hCounted
  | some c => exact hCounted.advance c

/- There is no character where a stream has run dry. -/
theorem CharStream.char?_dry
    (s : CharStream) :
    s.dry.char? = none := by
  unfold dry
  split
  · rfl
  · rfl

namespace Lexer

/- Look at the place `n` characters ahead of the cursor. -/
def peek
    (l : Lexer)
    (n : Nat) : Reading :=
  l.stream.peek n

/- What is looked at is one of the characters ahead. -/
@[simp]
theorem char?_peek
    (l : Lexer)
    (n : Nat) :
    (l.peek n).char? = l.stream.ahead[n]? := by
  unfold peek CharStream.peek
  cases l.stream.ahead[n]? with
  | some c => rfl
  | none => exact l.stream.char?_dry

/- Move the cursor over one character, if there is one. -/
def step (l : Lexer) : Lexer :=
  { stream := l.stream.skip
    origin := l.origin
    counter := l.counter.past l.stream.read
    counted := l.counted.past l.stream.read }

/- The next `n` characters from a place on, or less. -/
def preview
    (l : Lexer)
    (place : Nat) : Nat → List Char
| 0 => []
| n + 1 =>
    match l.peek place with
    | .char c => c :: preview l (place + 1) n
    | .ended => []
    | .drained => []

/- Move the cursor over `n` characters, or less. -/
def take : Nat → Lexer → List Char × Lexer
| 0, l => ([], l)
| n + 1, l =>
    match l.peek 0 with
    | .char c =>
        let tail := take n l.step
        (c :: tail.1, tail.2)
    | .ended => ([], l.step)
    | .drained => ([], l.step)

end Lexer

end LosslessCss

------------------------------------------------------------
-- Loops
------------------------------------------------------------

namespace LosslessCss

/-
  What a loop does in one pass.  It returns a result, or it
  pushes some items and goes on from a new place.
-/
inductive Pass (α β : Type) where
  | done (result : β) (rest : Lexer)
  | more (items : List α) (rest : Lexer)

namespace Lexer

/-
  Make passes until one of them returns, and collect what
  they push.  A pass that leaves the cursor where it is will
  be made again and again, so the loop does not return.
-/
def loop
    {α β : Type}
    (pass : Lexer → Option (Pass α β))
    (l : Lexer) : Option ((List α × β) × Lexer) :=
  match pass l with
  | none => none
  | some (.done result rest) => some (([], result), rest)
  | some (.more items rest) =>
      if rest.stream.ahead.length < l.stream.ahead.length then
        (loop pass rest).map fun r =>
          ((items ++ r.1.1, r.1.2), r.2)
      else
        none
termination_by l.stream.ahead.length

/- Go on as long as a test holds. -/
def runPass
    (p : Char → Bool)
    (l : Lexer) : Option (Pass Char Unit) :=
  if (l.peek 0).char?.any p then
    some (.more [(l.peek 0).toChar] l.step)
  else
    some (.done () l)

/- Read the characters that a test holds for. -/
def readRun
    (p : Char → Bool)
    (l : Lexer) : Option (List Char × Lexer) :=
  (l.loop (runPass p)).map (Prod.map Prod.fst id)

/- Move the cursor over all blanks. -/
def readBlanks (l : Lexer) : Option Lexer :=
  (l.readRun Text.isBlank).map Prod.snd

end Lexer

end LosslessCss

------------------------------------------------------------
-- Escapes and Names
------------------------------------------------------------

namespace LosslessCss

namespace Lexer

/- Whether an escape starts at a place. -/
def startsEscape
    (l : Lexer)
    (place : Nat) : Bool :=
  l.peek place = .char '\\' &&
    (l.peek (place + 1)).char?.any (· != '\n')

/- Whether a name starts at the cursor. -/
def startsName (l : Lexer) : Bool :=
  if l.peek 0 = .char '-' then
    Name.isStart (l.peek 1).toChar ||
      l.peek 1 = .char '-' || l.startsEscape 1
  else if l.peek 0 = .char '\\' then
    l.startsEscape 0
  else
    Name.isStart (l.peek 0).toChar

/- Take at most `n` hexadecimal digits. -/
def takeHexDigits : Nat → Lexer → List Char × Lexer
| 0, l => ([], l)
| n + 1, l =>
    if (l.peek 0).char?.any Escape.isHexDigit then
      let tail := takeHexDigits n l.step
      ((l.peek 0).toChar :: tail.1, tail.2)
    else
      ([], l)

/- Read an escape, from its backslash on. -/
def readEscape (l : Lexer) : Char × Lexer :=
  if l.step.finished then
    (Escape.replacement, l.step)
  else
    let digits := l.step.takeHexDigits 6
    if digits.1.isEmpty then
      ((digits.2.peek 0).toChar, digits.2.step)
    else
      (Escape.codePoint (Escape.ofHexDigits digits.1),
        if (digits.2.peek 0).isBlank then digits.2.step
        else digits.2)

/- Go on as long as there are parts of a name. -/
def namePass (l : Lexer) : Option (Pass Char Unit) :=
  if l.startsEscape 0 then
    some (.more [l.readEscape.1] l.readEscape.2)
  else if Name.isPart (l.peek 0).toChar then
    some (.more [(l.peek 0).toChar] l.step)
  else
    some (.done () l)

/- Read a name.  It is as long as possible. -/
def readName (l : Lexer) : Option (List Char × Lexer) :=
  (l.loop namePass).map (Prod.map Prod.fst id)

end Lexer

end LosslessCss

------------------------------------------------------------
-- Numerals
------------------------------------------------------------

namespace LosslessCss

namespace Lexer

/- Whether there is a sign at a place. -/
def showsSign
    (l : Lexer)
    (place : Nat) : Bool :=
  l.peek place = .char '+' || l.peek place = .char '-'

/- Whether a sign and then a numeral start at the cursor. -/
def startsSigned (l : Lexer) : Bool :=
  l.showsSign 0 &&
    (l.peek 1 = .char '.' && (l.peek 2).isDigit ||
      (l.peek 1).isDigit)

/- Whether a fraction starts at the cursor. -/
def startsFraction (l : Lexer) : Bool :=
  l.peek 0 = .char '.' && (l.peek 1).isDigit

/- Whether an exponent starts at the cursor. -/
def startsExponent (l : Lexer) : Bool :=
  (l.peek 0 = .char 'e' || l.peek 0 = .char 'E') &&
    (l.showsSign 1 && (l.peek 2).isDigit ||
      (l.peek 1).isDigit)

/- Read `n` characters and all digits after them. -/
def readDigits
    (n : Nat)
    (l : Lexer) : Option (List Char × Lexer) := do
  let mark := l.take n
  let digits ← mark.2.readRun Char.isDigit
  return (mark.1 ++ digits.1, digits.2)

/- Read a fraction, if one starts at the cursor. -/
def readFraction (l : Lexer) : Option (List Char × Lexer) :=
  if l.startsFraction then l.readDigits 2
  else some ([], l)

/- Read an exponent, if one starts at the cursor. -/
def readExponent (l : Lexer) : Option (List Char × Lexer) :=
  if l.startsExponent then l.readDigits 2
  else some ([], l)

/- Read a numeral. -/
def readNumeral (l : Lexer) : Option (List Char × Lexer) := do
  let whole ← l.readDigits (if l.showsSign 0 then 1 else 0)
  let fraction ← whole.2.readFraction
  let exponent ← fraction.2.readExponent
  return (whole.1 ++ fraction.1 ++ exponent.1, exponent.2)

/- Read a numeric token. -/
def readNumeric (l : Lexer) : Option (TokenKind × Lexer) := do
  let numeral ← l.readNumeral
  let number := Numeral.value numeral.1
  if numeral.2.startsName then
    let unit ← numeral.2.readName
    return (.dimension number (String.ofList unit.1), unit.2)
  else if numeral.2.peek 0 = .char '%' then
    return (.percentage number, numeral.2.step)
  else
    return (.number number, numeral.2)

end Lexer

end LosslessCss

------------------------------------------------------------
-- Quotations
------------------------------------------------------------

namespace LosslessCss

namespace Lexer

/- Whether an escaped line feed is at the cursor. -/
def startsFold (l : Lexer) : Bool :=
  l.peek 0 = .char '\\' && l.peek 1 = .char '\n'

/-
  Go on until a quotation ends.  The result is whether it was
  spoiled.
-/
def quotedPass
    (quote : Char)
    (l : Lexer) : Option (Pass Char Bool) :=
  if l.finished then
    some (.done false l)
  else if l.peek 0 = .char quote then
    some (.done false l.step)
  else if l.peek 0 = .char '\n' then
    some (.done true l)
  else if l.startsFold then
    some (.more [] (l.take 2).2)
  else if l.startsEscape 0 then
    some (.more [l.readEscape.1] l.readEscape.2)
  else
    some (.more [(l.peek 0).toChar] l.step)

/- A quotation from its text and whether it was spoiled. -/
def quotedBody (r : List Char × Bool) : Quotation.Body :=
  ⟨r.1, r.2⟩

/- Read a quotation, after the quote that opens it. -/
def readQuoted
    (quote : Char)
    (l : Lexer) : Option (Quotation.Body × Lexer) :=
  (l.loop (quotedPass quote)).map (Prod.map quotedBody id)

end Lexer

end LosslessCss

------------------------------------------------------------
-- Addresses
------------------------------------------------------------

namespace LosslessCss

namespace Lexer

/- Go on until a closing parenthesis. -/
def remnantsPass (l : Lexer) : Option (Pass Char Unit) :=
  if l.finished then
    some (.done () l)
  else if l.peek 0 = .char ')' then
    some (.done () l.step)
  else if l.startsEscape 0 then
    some (.more [] l.readEscape.2)
  else
    some (.more [] l.step)

/- Return a spoiled address, with what is left of it. -/
def spoiledPass (l : Lexer) : Option (Pass Char Bool) := do
  let remnants ← l.loop remnantsPass
  return .done true remnants.2

/- Go on if an address may end here.  Else it is spoiled. -/
def closingPass (l : Lexer) : Option (Pass Char Bool) :=
  if l.peek 0 = .char ')' || l.finished then
    some (.more [] l)
  else
    l.spoiledPass

/-
  Go on until an address ends.  The result is whether it was
  spoiled.
-/
def addressPass (l : Lexer) : Option (Pass Char Bool) :=
  if l.peek 0 = .char ')' then
    some (.done false l.step)
  else if l.finished then
    some (.done false l)
  else if (l.peek 0).isBlank then do
    let rest ← l.readBlanks
    rest.closingPass
  else if (l.peek 0).char?.any Url.spoils then
    l.spoiledPass
  else if l.peek 0 = .char '\\' then
    if l.startsEscape 0 then
      some (.more [l.readEscape.1] l.readEscape.2)
    else
      l.spoiledPass
  else
    some (.more [(l.peek 0).toChar] l.step)

/- An address from its text and whether it was spoiled. -/
def addressBody (r : List Char × Bool) : Url.Body :=
  ⟨r.1, r.2⟩

/- Read an address, after the blanks in front of it. -/
def readAddress (l : Lexer) : Option (Url.Body × Lexer) :=
  (l.loop addressPass).map (Prod.map addressBody id)

/- Read an address, after the parenthesis that opens it. -/
def readUrl (l : Lexer) : Option (TokenKind × Lexer) := do
  let start ← l.readBlanks
  let address ← start.readAddress
  return (address.1.kind, address.2)

/- Where a blank is seen, there is a character. -/
theorem lt_of_isBlank_peek
    {l : Lexer}
    {place : Nat}
    (hBlank : (l.peek place).isBlank = true) :
    place < l.stream.ahead.length := by
  rw [Reading.isBlank, char?_peek] at hBlank
  cases hAt : l.stream.ahead[place]? with
  | none =>
      rw [hAt] at hBlank
      cases hBlank
  | some c => exact (List.getElem?_eq_some_iff.mp hAt).1

/- The first place from a given one on that is not blank. -/
def pastBlanks
    (l : Lexer)
    (place : Nat) : Nat :=
  if (l.peek place).isBlank then
    pastBlanks l (place + 1)
  else
    place
termination_by l.stream.ahead.length - place
decreasing_by
  rename_i hBlank
  have hLess := lt_of_isBlank_peek hBlank
  omega

end Lexer

end LosslessCss

------------------------------------------------------------
-- Tokens
------------------------------------------------------------

namespace LosslessCss

namespace Lexer

/- Go on until a comment ends, or until the text does. -/
def commentPass (l : Lexer) : Option (Pass Char Unit) :=
  if l.preview 0 2 = ['*', '/'] then
    some (.done () (l.take 2).2)
  else
    match l.peek 0 with
    | .char c => some (.more [c] l.step)
    | .ended => some (.done () l.step)
    | .drained => some (.done () l.step)

/- Read a comment, after the mark that opens it. -/
def readComment (l : Lexer) : Option (List Char × Lexer) :=
  (l.loop commentPass).map (Prod.map Prod.fst id)

/- Read a function or an address, after its name. -/
def readFunction
    (name : String)
    (l : Lexer) : Option (TokenKind × Lexer) :=
  if Text.sameLetters name "url" then
    let argument := l.peek (l.pastBlanks 1)
    if argument.char?.any Quotation.isQuote then
      some (.function name, l.step)
    else
      l.step.readUrl
  else
    some (.function name, l.step)

/- Read a token that starts with a name. -/
def readIdentLike
    (l : Lexer) : Option (TokenKind × Lexer) := do
  let name ← l.readName
  if name.2.peek 0 = .char '(' then
    name.2.readFunction (String.ofList name.1)
  else
    return (.ident (String.ofList name.1), name.2)

/- Read a token of one character. -/
def readSingle
    (kind : TokenKind)
    (l : Lexer) : Option (TokenKind × Lexer) :=
  some (kind, l.step)

/- Read a token that starts with a number sign. -/
def readHash (l : Lexer) : Option (TokenKind × Lexer) :=
  if Name.isPart (l.step.peek 0).toChar ||
      l.step.startsEscape 0 then do
    let name ← l.step.readName
    return (.hash (String.ofList name.1), name.2)
  else
    l.readSingle (.delim '#')

/- Read a token that starts with an at sign. -/
def readAtSign (l : Lexer) : Option (TokenKind × Lexer) :=
  if l.step.startsName then do
    let name ← l.step.readName
    return (.atKeyword (String.ofList name.1), name.2)
  else
    l.readSingle (.delim '@')

/- Read a token that starts with a minus sign. -/
def readMinus (l : Lexer) : Option (TokenKind × Lexer) :=
  if l.startsSigned then
    l.readNumeric
  else if l.preview 0 3 = ['-', '-', '>'] then
    some (.cdc, (l.take 3).2)
  else if l.startsName then
    l.readIdentLike
  else
    l.readSingle (.delim '-')

/- Read a token that starts with a less-than sign. -/
def readLessThan (l : Lexer) : Option (TokenKind × Lexer) :=
  if l.preview 0 4 = ['<', '!', '-', '-'] then
    some (.cdo, (l.take 4).2)
  else
    l.readSingle (.delim '<')

/- Read a token that is decided by its first character. -/
def readPlain
    (c : Char)
    (l : Lexer) : Option (TokenKind × Lexer) :=
  if c = '#' then
    l.readHash
  else if c = '+' then
    if l.startsSigned then l.readNumeric
    else l.readSingle (.delim c)
  else if c = '.' then
    if (l.peek 1).isDigit then l.readNumeric
    else l.readSingle (.delim c)
  else if c = '-' then
    l.readMinus
  else if c = '<' then
    l.readLessThan
  else if c = '@' then
    l.readAtSign
  else if c = '\\' then
    if l.startsEscape 0 then l.readIdentLike
    else l.readSingle (.delim c)
  else if c.isDigit then
    l.readNumeric
  else if Name.isStart c then
    l.readIdentLike
  else
    l.readSingle (.delim c)

/- Read what comes next, and tell which token it is. -/
def readKind (l : Lexer) : Option (TokenKind × Lexer) :=
  if l.preview 0 2 = ['/', '*'] then do
    let text ← (l.take 2).2.readComment
    return (.comment (String.ofList text.1), text.2)
  else
    match l.peek 0 with
    | .ended => some (.eof, l)
    | .drained => some (.eof, l)
    | .char c =>
        if Text.isBlank c then do
          let rest ← l.readBlanks
          return (.whitespace, rest)
        else if Quotation.isQuote c then do
          let body ← l.step.readQuoted c
          return (body.1.kind, body.2)
        else
          match Scan.mark? c with
          | some kind => l.readSingle kind
          | none => l.readPlain c

/-
  Read the next token.  Its text is cut out of the stream,
  from where the cursor was to where it is.
-/
def readToken (l : Lexer) : Option (Token × Lexer) := do
  let kind ← l.readKind
  let raw :=
    kind.2.stream.slice l.stream.position
      kind.2.stream.position
  return (⟨kind.1, raw, l.here⟩, kind.2)

/- Go on until the end of the input. -/
def tokenPass (l : Lexer) : Option (Pass Token Token) := do
  let next ← l.readToken
  if next.1.isEof then
    return .done next.1 next.2
  else
    return .more [next.1] next.2

/- Read all tokens through the end of the input. -/
def readTokens (l : Lexer) : Option (List Token × Lexer) :=
  (l.loop tokenPass).map
    (Prod.map (fun r => r.1 ++ [r.2]) id)

end Lexer

end LosslessCss
