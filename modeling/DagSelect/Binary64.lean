/-! # Double-precision numbers

A number is kept as its 64 bits, so two numbers are equal exactly when every bit agrees and equality
is decidable. A finite number stands for `± significand * 2 ^ exponent`; both parts are read off the
bits as integers, and everything that rounds or prints works on that pair in exact arithmetic.
Comparison as numbers, where the two zeros agree and an undefined result agrees with nothing, is
`sameValue`.
-/

namespace DagSelect

/-- A double-precision number, given by its bits: sign, eleven bits of exponent, 52 bits of
fraction. -/
structure Binary64 where
  bits : UInt64
deriving DecidableEq, Repr, Inhabited

namespace Binary64

/-- The bits of positive infinity; larger magnitudes are undefined results. -/
def infinityBits : Nat := 0x7FF0000000000000

/-- The sign bit, above the sixty-three bits of the magnitude. -/
def signBit : Nat := 0x8000000000000000

/-- The leading bit of a significand, above the fifty-two bits of the fraction. -/
def leadingOne : Nat := 0x10000000000000

def magnitude (x : Binary64) : Nat := x.bits.toNat % signBit

def isNegative (x : Binary64) : Bool := signBit ≤ x.bits.toNat

def isZero (x : Binary64) : Bool := x.magnitude == 0

def isFinite (x : Binary64) : Bool := x.magnitude < infinityBits

def isNaN (x : Binary64) : Bool := infinityBits < x.magnitude

/-- The integer that is scaled by a power of two; the leading bit is implied above the least
exponent. -/
def significand (x : Binary64) : Nat :=
  let fraction := x.magnitude % leadingOne
  if x.magnitude < leadingOne then fraction else leadingOne + fraction

/-- The power of two that scales the significand; numbers below the normal range share the least
one. -/
def exponent (x : Binary64) : Int := (max (x.magnitude / leadingOne) 1 : Nat) - 1075

def ofMagnitude (negative : Bool) (magnitude : Nat) : Binary64 :=
  ⟨UInt64.ofNat (if negative then signBit + magnitude else magnitude)⟩

/-- Equality as numbers: the two zeros agree, an undefined result agrees with nothing. -/
def sameValue (x y : Binary64) : Bool :=
  !x.isNaN && !y.isNaN && (x == y || x.isZero && y.isZero)

theorem sameValue_self {x : Binary64} (h : x.isNaN = false) : x.sameValue x = true := by
  simp [sameValue, h]

end Binary64

end DagSelect
