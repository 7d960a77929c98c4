import LosslessCss.Number.Decimal

/-
  Binary floating point numbers of 32 bits.

  A number is its bit pattern: a sign bit, eight exponent
  bits and 23 fraction bits.  A decimal is rounded to the
  nearest pattern, a tie goes to the even one, what is too
  large becomes infinite, and a zero keeps its sign.

  Key definitions include:
    * `Binary32`
    * `Binary32.roundQuotient`
    * `Binary32.ofDecimal`
    * `Binary32.ofNumeral?`
-/

------------------------------------------------------------
-- Bit Patterns
------------------------------------------------------------

namespace LosslessCss

/- A number of the 32 bit binary format. -/
structure Binary32 where
  bits : UInt32
deriving DecidableEq

namespace Binary32

/- The bits of the magnitude of infinity. -/
def infinityBits : Nat :=
  0x7F800000

/- The sign bit, which is above all bits of a magnitude. -/
def signBit : Nat :=
  0x80000000

/- The lowest exponent bit, which is above the fraction. -/
def exponentBit : Nat :=
  0x800000

/- The number with a sign and the bits of a magnitude. -/
def ofMagnitude
    (negative : Bool)
    (magnitude : Nat) : Binary32 :=
  ⟨(magnitude + if negative then signBit else 0).toUInt32⟩

/- Positive zero. -/
def zero : Binary32 :=
  ⟨0⟩

/- Whether the sign bit is set. -/
def negative (x : Binary32) : Bool :=
  signBit ≤ x.bits.toNat

/- The bits of the magnitude. -/
def magnitude (x : Binary32) : Nat :=
  x.bits.toNat % signBit

end Binary32

end LosslessCss

------------------------------------------------------------
-- Rounding
------------------------------------------------------------

namespace LosslessCss

namespace Binary32

/- The integer nearest to a quotient, the even one on ties. -/
def roundQuotient (num den : Nat) : Nat :=
  let floor := num / den
  let double := 2 * (num % den)
  if double < den then floor
  else if den < double then floor + 1
  else floor + floor % 2

/- Multiply a quotient by a power of the base. -/
def scale
    (base : Nat)
    (exponent : Int)
    (quotient : Nat × Nat) : Nat × Nat :=
  if 0 ≤ exponent then
    (quotient.1 * base.pow exponent.toNat, quotient.2)
  else
    (quotient.1, quotient.2 * base.pow (-exponent).toNat)

/-
  The exponent of the largest power of two that is not above
  a positive quotient.  The difference of the logarithms is
  right or one too large.
-/
def binade (quotient : Nat × Nat) : Int :=
  let guess : Int :=
    (quotient.1.log2 : Int) - (quotient.2.log2 : Int)
  let scaled := scale 2 (-guess) quotient
  if scaled.1 < scaled.2 then guess - 1 else guess

/-
  The magnitude bits of a positive quotient.  With the unit
  `2 ^ unit` the rounded quotient has at most 24 bits, and
  adding it to the exponent field carries over by itself
  when the rounding reaches the next power of two.
-/
def roundMagnitude (quotient : Nat × Nat) : Nat :=
  let unit := max (-149) (binade quotient - 23)
  let scaled := scale 2 (-unit) quotient
  let bits :=
    (unit + 149).toNat * exponentBit +
      roundQuotient scaled.1 scaled.2
  min bits infinityBits

/-
  The number nearest to a decimal.  The two outer cases lie
  far beyond the largest number and far below half of the
  smallest one, so no large power is computed.
-/
def ofDecimal (d : Decimal) : Binary32 :=
  let size : Int :=
    d.exponent + (Decimal.digitCount d.digits : Int)
  if d.digits = 0 || size < -60 then
    ofMagnitude d.negative 0
  else if 60 < size then
    ofMagnitude d.negative infinityBits
  else
    ofMagnitude d.negative
      (roundMagnitude (scale 10 d.exponent (d.digits, 1)))

/- The number nearest to a decimal numeral. -/
def ofNumeral? (cs : List Char) : Option Binary32 :=
  (Decimal.parse? cs).map ofDecimal

end Binary32

end LosslessCss
