/-!
# Rounding to binary64

The binary64 number nearest to a quotient of natural numbers, as its bit pattern.  A pattern is
read as a natural number: above the fraction of 52 bits it holds the exponent, so patterns are
ordered like the numbers that they stand for, and a carry out of the fraction raises the exponent.
-/

namespace CRBasic

namespace Binary64

/-- The pattern of infinity. -/
def infinity : Nat := 0x7FF0000000000000

/-- The integer nearest to a quotient; of two that are equally near, the even one. -/
def roundQuotient (num den : Nat) : Nat :=
  let q := num / den
  let r := num % den
  if 2 * r < den then q
  else if den < 2 * r then q + 1
  else q + q % 2

/-- A quotient times a power of two, rounded. -/
def roundScaled (num den : Nat) (exponent : Int) : Nat :=
  roundQuotient (num <<< exponent.toNat) (den <<< (-exponent).toNat)

/-- The exponent `e`, at least `-1074`, for which the quotient lies in `[2 ^ 52, 2 ^ 53)` times
`2 ^ e`, or below if that needs a smaller exponent. -/
def unitExponent (num den : Nat) : Int :=
  let e : Int := (num.log2 : Int) - den.log2 - 52
  let fits := (den <<< e.toNat) <<< 52 ≤ num <<< (-e).toNat
  max (-1074) (if fits then e else e - 1)

/-- The pattern of the number nearest to a quotient; a tie goes to the even pattern. -/
def ofQuotient (num den : Nat) : Nat :=
  if num = 0 then 0
  else
    let e := unitExponent num den
    min infinity (((e + 1074).toNat <<< 52) + roundScaled num den (-e))

/-- The number of decimal digits of a positive number; one for zero. -/
def digitCount (n : Nat) : Nat := (Nat.toDigits 10 n).length

/-- The pattern of the number nearest to `significand * 10 ^ exponent`.  A value of `10 ^ 309` or
more lies beyond all finite numbers, and one below `10 ^ -324` is nearest to zero. -/
def ofDecimal (significand : Nat) (exponent : Int) : Nat :=
  let magnitude := exponent + digitCount significand
  if significand = 0 then 0
  else if 310 ≤ magnitude then infinity
  else if magnitude < -323 then 0
  else ofQuotient (significand * Nat.pow 10 exponent.toNat) (Nat.pow 10 (-exponent).toNat)

end Binary64

end CRBasic
