/-
  Decimal numerals and the exact values that they denote.

  A numeral is an optional sign, digits with an optional
  fraction, and an optional exponent.  Reading keeps every
  digit: the value is an integer times a power of ten.

  Key definitions include:
    * `Decimal`
    * `Decimal.digitCount`
    * `Decimal.parse?`
-/

------------------------------------------------------------
-- Digits
------------------------------------------------------------

namespace LosslessCss

/-
  The number `± digits * 10 ^ exponent`.  The sign stands
  apart, so that zero has one too.
-/
structure Decimal where
  negative : Bool
  digits : Nat
  exponent : Int
deriving DecidableEq

namespace Decimal

/- The value of a digit character. -/
def digitValue (c : Char) : Nat :=
  c.toNat - '0'.toNat

/- The value of a run of digit characters. -/
def ofDigits (cs : List Char) : Nat :=
  cs.foldl (fun n c => 10 * n + digitValue c) 0

/- The number of decimal digits of a positive number. -/
def digitCount (n : Nat) : Nat :=
  (Nat.toDigits 10 n).length

end Decimal

end LosslessCss

------------------------------------------------------------
-- Reading Numerals
------------------------------------------------------------

namespace LosslessCss

namespace Decimal

/- Take an optional sign off: whether it was a minus. -/
def takeSign : List Char → Bool × List Char
| '-' :: cs => (true, cs)
| '+' :: cs => (false, cs)
| cs => (false, cs)

/- Take the digits after a decimal point, if it is there. -/
def takeFraction : List Char → List Char × List Char
| '.' :: cs =>
    (cs.takeWhile Char.isDigit, cs.dropWhile Char.isDigit)
| cs => ([], cs)

/- Read what follows the digits: nothing, or an exponent. -/
def exponent? : List Char → Option Int
| [] => some 0
| c :: cs =>
    let signed := takeSign cs
    if (c = 'e' || c = 'E') && !signed.2.isEmpty &&
        signed.2.all Char.isDigit then
      let size : Int := ofDigits signed.2
      some (if signed.1 then -size else size)
    else
      none

/- Read a whole numeral. -/
def parse? (cs : List Char) : Option Decimal :=
  let signed := takeSign cs
  let whole := signed.2.takeWhile Char.isDigit
  let fraction :=
    takeFraction (signed.2.dropWhile Char.isDigit)
  if whole.isEmpty && fraction.1.isEmpty then
    none
  else
    (exponent? fraction.2).map fun exponent =>
      { negative := signed.1
        digits := ofDigits (whole ++ fraction.1)
        exponent := exponent - fraction.1.length }

end Decimal

end LosslessCss
