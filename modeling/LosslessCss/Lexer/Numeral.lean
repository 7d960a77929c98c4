import LosslessCss.Lexer.Name
import LosslessCss.Number.Binary32
import LosslessCss.Token

/-
  Numeric tokens: numbers, percentages and dimensions.

  A numeral is an optional sign, digits, a fraction that
  starts with a digit, and an exponent that has a digit.
  What directly follows it decides the kind of the token.

  Key definitions include:
    * `Numeral.startsSigned`
    * `Numeral.takeNumeral`
    * `Numeral.scan`
-/

------------------------------------------------------------
-- The Parts of a Numeral
------------------------------------------------------------

namespace LosslessCss

namespace Numeral

/- Whether the first character is a digit. -/
def startsDigit : List Char → Bool
| c :: _ => c.isDigit
| [] => false

/- Whether a digit or a fraction starts here. -/
def startsUnsigned : List Char → Bool
| '.' :: cs => startsDigit cs
| cs => startsDigit cs

/- Whether a sign and then a numeral start here. -/
def startsSigned : List Char → Bool
| '+' :: cs => startsUnsigned cs
| '-' :: cs => startsUnsigned cs
| _ => false

/- Split the sign off. -/
def takeSign : List Char → List Char × List Char
| '+' :: cs => (['+'], cs)
| '-' :: cs => (['-'], cs)
| cs => ([], cs)

/- Split the leading digits off. -/
def takeDigits (cs : List Char) :
    List Char × List Char :=
  (cs.takeWhile Char.isDigit, cs.dropWhile Char.isDigit)

/- Split a point with the digits after it off. -/
def takeFraction : List Char → List Char × List Char
| '.' :: cs =>
    if startsDigit cs then
      let digits := takeDigits cs
      ('.' :: digits.1, digits.2)
    else
      ([], '.' :: cs)
| cs => ([], cs)

/- Whether an exponent mark stands here. -/
def isExponentMark (c : Char) : Bool :=
  c == 'e' || c == 'E'

/- Split an exponent off. -/
def takeExponent : List Char → List Char × List Char
| [] => ([], [])
| c :: cs =>
    let sign := takeSign cs
    if isExponentMark c && startsDigit sign.2 then
      let digits := takeDigits sign.2
      (c :: (sign.1 ++ digits.1), digits.2)
    else
      ([], c :: cs)

/- Split a numeral off. -/
def takeNumeral (input : List Char) :
    List Char × List Char :=
  let sign := takeSign input
  let whole := takeDigits sign.2
  let fraction := takeFraction whole.2
  let exponent := takeExponent fraction.2
  (sign.1 ++ whole.1 ++ fraction.1 ++ exponent.1,
    exponent.2)

end Numeral

end LosslessCss

------------------------------------------------------------
-- Scanning
------------------------------------------------------------

namespace LosslessCss

namespace Numeral

/-
  The value of a numeral.  Every text that `takeNumeral`
  splits off can be read where a numeral starts, so the zero
  is never taken there.
-/
def value (numeral : List Char) : Binary32 :=
  (Binary32.ofNumeral? numeral).getD Binary32.zero

/- Scan a numeric token. -/
def scan (input : List Char) : Lexeme TokenKind :=
  let numeral := takeNumeral input
  let number := value numeral.1
  if Name.startsName numeral.2 then
    let unit := Name.scan numeral.2
    (unit.map fun name =>
        TokenKind.dimension number
          (String.ofList name)).extend
      numeral.1
  else
    match numeral.2 with
    | '%' :: rest =>
        ⟨.percentage number, numeral.1 ++ ['%'], rest, true⟩
    | rest => ⟨.number number, numeral.1, rest, true⟩

/- Splitting the sign off loses nothing. -/
theorem takeSign_append
    (cs : List Char) :
    (takeSign cs).1 ++ (takeSign cs).2 = cs := by
  unfold takeSign
  split
  · rfl
  · rfl
  · rfl

/- Splitting digits off loses nothing. -/
theorem takeDigits_append
    (cs : List Char) :
    (takeDigits cs).1 ++ (takeDigits cs).2 = cs := by
  simp [takeDigits]

/- Splitting a fraction off loses nothing. -/
theorem takeFraction_append
    (cs : List Char) :
    (takeFraction cs).1 ++ (takeFraction cs).2 = cs := by
  unfold takeFraction
  split
  · split
    · simp [takeDigits_append]
    · rfl
  · rfl

/- Splitting an exponent off loses nothing. -/
theorem takeExponent_append
    (cs : List Char) :
    (takeExponent cs).1 ++ (takeExponent cs).2 = cs := by
  unfold takeExponent
  split
  · rfl
  · rename_i c cs
    simp only
    split
    · simp [takeDigits_append, takeSign_append]
    · rfl

/- Splitting a numeral off loses nothing. -/
theorem takeNumeral_append
    (cs : List Char) :
    (takeNumeral cs).1 ++ (takeNumeral cs).2 = cs := by
  simp [takeNumeral, takeExponent_append,
    takeFraction_append, takeDigits_append,
    takeSign_append]

/- A sign makes a numeral that has characters. -/
theorem takeNumeral_ne_nil_of_signed
    {input : List Char}
    (h : startsSigned input) :
    (takeNumeral input).1 ≠ [] := by
  unfold startsSigned at h
  split at h
  · simp [takeNumeral, takeSign]
  · simp [takeNumeral, takeSign]
  · simp at h

/- A numeral without a sign has characters. -/
theorem takeNumeral_ne_nil_of_unsigned
    {input : List Char}
    (h : startsUnsigned input) :
    (takeNumeral input).1 ≠ [] := by
  unfold startsUnsigned at h
  split at h
  · simp [takeNumeral, takeSign, takeDigits,
      takeFraction, h]
  · cases input with
    | nil => simp [startsDigit] at h
    | cons c cs =>
        simp only [startsDigit] at h
        have hsign : takeSign (c :: cs) = ([], c :: cs) := by
          unfold takeSign
          split
          · rename_i heq
            obtain ⟨rfl, _⟩ := List.cons.inj heq
            simp at h
          · rename_i heq
            obtain ⟨rfl, _⟩ := List.cons.inj heq
            simp at h
          · rfl
        simp [takeNumeral, hsign, takeDigits, h]

/- A numeric token has the characters of its numeral. -/
theorem raw_scan_ne_nil
    {input : List Char}
    (h : (takeNumeral input).1 ≠ []) :
    (scan input).raw ≠ [] := by
  unfold scan
  simp only
  split
  · simp [Lexeme.extend, h]
  · split
    · simp
    · exact h

/- A numeric token splits the input. -/
theorem scan_splits
    (input : List Char) :
    (scan input).Splits input := by
  have hnumeral := takeNumeral_append input
  unfold scan
  simp only
  split
  · have hunit :=
      ((Name.scan_splits (takeNumeral input).2).map
        fun name =>
          TokenKind.dimension
            (value (takeNumeral input).1)
            (String.ofList name)).extend
        (takeNumeral input).1
    rw [hnumeral] at hunit
    exact hunit
  · split
    · rename_i rest hrest
      simpa [Lexeme.Splits, hrest] using hnumeral
    · exact hnumeral

end Numeral

end LosslessCss
