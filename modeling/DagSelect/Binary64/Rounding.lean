import DagSelect.Binary64

/-! # Rounding to double precision

A quotient of two naturals is rounded to the nearest double, a tie to the one with the even
significand. The place of the last bit is found first; the quotient is then scaled to that place and
rounded to an integer. The bits are the sum of the place and that integer, so a significand that
rounds up to a power of two carries into the exponent by itself, and anything at or past the
overflow threshold becomes infinity.
-/

namespace DagSelect

/-- The integer nearest to `num / den`; a tie goes to the even one. -/
def roundHalfEven (num den : Nat) : Nat :=
  let q := num / den
  let r := num % den
  if 2 * r < den then q
  else if den < 2 * r then q + 1
  else if q % 2 = 0 then q else q + 1

namespace Binary64

/-- The exponent of the leading bit of `num / den`, for positive `num` and `den`. -/
def leadingBit (num den : Nat) : Int :=
  let guess : Int := (num.log2 : Int) - den.log2
  if num * Nat.pow 2 (-guess).toNat < den * Nat.pow 2 guess.toNat then guess - 1 else guess

def ofRatio (negative : Bool) (num den : Nat) : Binary64 :=
  if num = 0 then ofMagnitude negative 0
  else
    let place := max (leadingBit num den - 52) (-1074)
    let scaled := roundHalfEven (num * Nat.pow 2 (-place).toNat) (den * Nat.pow 2 place.toNat)
    ofMagnitude negative (min ((place + 1074).toNat * leadingOne + scaled) infinityBits)

/-- The number of decimal digits of a natural number; zero has one. -/
def digitCount (n : Nat) : Nat := (Nat.toDigits 10 n).length

/-- The double nearest to `coefficient * 10 ^ exponent`. Quotients far outside the range are settled
by their leading digit, so no power larger than the text itself is ever computed. -/
def ofDecimal (negative : Bool) (coefficient : Nat) (exponent : Int) : Binary64 :=
  let top := (digitCount coefficient : Int) + exponent
  if coefficient = 0 ∨ top < -400 then ofMagnitude negative 0
  else if 400 < top then ofMagnitude negative infinityBits
  else ofRatio negative (coefficient * Nat.pow 10 exponent.toNat) (Nat.pow 10 (-exponent).toNat)

end Binary64

end DagSelect
