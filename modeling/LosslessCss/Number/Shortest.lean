import LosslessCss.Number.Binary32

/-
  The shortest decimal text of a 32 bit number.

  The digits are the fewest that read back as the number,
  and of those the nearest to it.  Numbers from a ten
  thousandth up to below ten to the sixteenth are written
  positionally with at least one fraction digit, all others
  with an exponent.

  Key definitions include:
    * `Binary32.Finite`
    * `Binary32.Finite.shortest`
    * `Binary32.text`
-/

------------------------------------------------------------
-- Finite Numbers
------------------------------------------------------------

namespace LosslessCss

namespace Binary32

/- The positive number `significand * 2 ^ unit`. -/
structure Finite where
  significand : Nat
  unit : Int
deriving DecidableEq

/- The value of the bits of a finite magnitude. -/
def finite (magnitude : Nat) : Finite :=
  let exponent : Nat := magnitude / exponentBit
  let fraction := magnitude % exponentBit
  if exponent = 0 then
    ⟨fraction, -149⟩
  else
    ⟨fraction + exponentBit, (exponent : Int) - 150⟩

namespace Finite

/-
  The number and the two ends of the interval of reals that
  round to it, counted in quarters of its unit.  Below a
  power of two the numbers lie twice as close.
-/
def quarters (x : Finite) : Nat × Nat × Nat :=
  let middle := 4 * x.significand
  let gap := if x.significand = exponentBit then 1 else 2
  (middle - gap, middle, middle + 2)

/- A number of quarters as a quotient. -/
def quarterQuotient
    (x : Finite)
    (n : Nat) : Nat × Nat :=
  scale 2 (x.unit - 2) (n, 1)

/- Whether a quotient is below an integer. -/
def below
    (quotient : Nat × Nat)
    (n : Nat) : Bool :=
  quotient.1 < n * quotient.2

/- Whether an integer is below a quotient. -/
def above
    (quotient : Nat × Nat)
    (n : Nat) : Bool :=
  n * quotient.2 < quotient.1

/-
  Whether an integer lies in the interval that is given by
  its two ends.  The ends belong to the interval of an even
  significand.
-/
def inside
    (x : Finite)
    (low high : Nat × Nat)
    (n : Nat) : Bool :=
  if x.significand % 2 = 0 then
    !above low n && !below high n
  else
    below low n && above high n

/-
  The multiple of `10 ^ place` nearest to the number, if one
  of its two neighbours reads back.  A tie goes up.
-/
def onGrid?
    (x : Finite)
    (place : Int) : Option Nat :=
  let grid (n : Nat) :=
    scale 10 (-place) (x.quarterQuotient n)
  let ends := x.quarters
  let middle := grid ends.2.1
  let floor := middle.1 / middle.2
  let fits := x.inside (grid ends.1) (grid ends.2.2)
  let up :=
    fits (floor + 1) &&
      (!fits floor ||
        middle.2 ≤ 2 * (middle.1 % middle.2))
  if up then some (floor + 1)
  else if fits floor then some floor
  else none

/-
  The place of the leading decimal digit.  The difference of
  the digit counts is right or one too large.
-/
def leadingPlace (x : Finite) : Int :=
  let quotient := x.quarterQuotient x.quarters.2.1
  let guess : Int :=
    (Decimal.digitCount quotient.1 : Int) -
      (Decimal.digitCount quotient.2 : Int)
  let scaled := scale 10 (-guess) quotient
  if scaled.1 < scaled.2 then guess - 1 else guess

/-
  The digits and the place of the last one for the coarsest
  grid that has a multiple which reads back.  Nine digits
  always suffice.
-/
def shortest (x : Finite) : Nat × Int :=
  let lead := x.leadingPlace
  let hit :=
    (List.range 9).findSome? fun (k : Nat) =>
      let place := lead - (k : Int)
      (x.onGrid? place).map fun digits => (digits, place)
  hit.getD (0, 0)

end Finite

end Binary32

end LosslessCss

------------------------------------------------------------
-- Layout
------------------------------------------------------------

namespace LosslessCss

namespace Binary32

/- Remove zeros from the end of a run of digits. -/
def dropTrailingZeros (cs : List Char) : List Char :=
  (cs.reverse.dropWhile (· == '0')).reverse

/-
  Digits with a point after the first `n + 1` of them, or
  with zeros in front for a negative `n`.  There is at least
  one digit on both sides of the point.
-/
def positional
    (digits : List Char)
    (n : Int) : List Char :=
  if n < 0 then
    '0' :: '.' ::
      (List.replicate (-n - 1).toNat '0' ++ digits)
  else
    let whole := n.toNat + 1
    let front := digits.take whole
    let back := digits.drop whole
    front ++ List.replicate (whole - front.length) '0' ++
      '.' :: (if back.isEmpty then ['0'] else back)

/- Digits with a point after the first one and an exponent. -/
def scientific
    (digits : List Char)
    (n : Int) : List Char :=
  let back := digits.drop 1
  let mantissa :=
    digits.take 1 ++
      if back.isEmpty then [] else '.' :: back
  let sign := if n < 0 then ['-'] else []
  mantissa ++ 'e' :: (sign ++ Nat.toDigits 10 n.natAbs)

/- The text of a positive finite number. -/
def finiteText (x : Finite) : List Char :=
  let result := x.shortest
  let digits := Nat.toDigits 10 result.1
  let n := (digits.length : Int) - 1 + result.2
  let kept := dropTrailingZeros digits
  if -4 ≤ n && n < 16 then positional kept n
  else scientific kept n

/- The text of a magnitude. -/
def magnitudeText (magnitude : Nat) : List Char :=
  if magnitude = 0 then "0.0".toList
  else if magnitude < infinityBits then
    finiteText (finite magnitude)
  else "inf".toList

/- The text of a number.  The sign of a NaN is not shown. -/
def text (x : Binary32) : String :=
  if infinityBits < x.magnitude then "NaN"
  else
    String.ofList <|
      (if x.negative then ['-'] else []) ++
        magnitudeText x.magnitude

end Binary32

end LosslessCss
