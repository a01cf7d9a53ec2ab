import DagSelect.Binary64.Rounding

/-! # Shortest decimals

The decimal written for a double is the shortest one that rounds back to it, and of those the
nearest. For each count of digits the two neighbours of the exact value on that decimal grid are
tested against the interval of reals that round to the double. If any point of a grid lies in the
interval then so does one of the two neighbours of the value, so the first grid with a hit has the
fewest digits.
-/

namespace DagSelect

/-- The decimal number `coefficient * 10 ^ exponent`. -/
structure Decimal where
  coefficient : Nat
  exponent : Int
deriving DecidableEq, Repr

namespace Binary64

/-- The reals that round to a positive double, as fractions over one denominator. The ends belong to
the interval when the significand is even. -/
structure Interval where
  low : Nat
  value : Nat
  high : Nat
  den : Nat
  closed : Bool

/-- Half a unit of the last place on either side; on the lower side a quarter at a power of two,
where the spacing below is half of that above. -/
def interval (x : Binary64) : Interval :=
  let scale := x.exponent - 2
  let up := Nat.pow 2 scale.toNat
  let m := x.significand
  let below := if m = leadingOne ∧ -1074 < x.exponent then 1 else 2
  { low := (4 * m - below) * up, value := 4 * m * up, high := (4 * m + 2) * up,
    den := Nat.pow 2 (-scale).toNat, closed := m % 2 == 0 }

/-- Whether `c * 10 ^ place` lies in the interval. -/
def Interval.contains (i : Interval) (c : Nat) (place : Int) : Bool :=
  let point := c * Nat.pow 10 place.toNat * i.den
  let low := i.low * Nat.pow 10 (-place).toNat
  let high := i.high * Nat.pow 10 (-place).toNat
  if i.closed then decide (low ≤ point ∧ point ≤ high) else decide (low < point ∧ point < high)

/-- The exponent of the leading decimal digit of `num / den`, for positive `num` and `den`. -/
def leadingDigit (num den : Nat) : Int :=
  if den ≤ num then (digitCount (num / den) : Int) - 1
  else -(digitCount ((den + num - 1) / num - 1) : Int)

/-- The neighbour of the value on the grid of multiples of `10 ^ place` that lies in the interval;
of two the nearer one, a tie going to the even one. -/
def Interval.nearest? (i : Interval) (place : Int) : Option Nat :=
  let num := i.value * Nat.pow 10 (-place).toNat
  let den := i.den * Nat.pow 10 place.toNat
  let below := num / den
  let rest := num % den
  match i.contains below place, i.contains (below + 1) place with
  | true, true =>
    if 2 * rest < den ∨ (2 * rest = den ∧ below % 2 = 0) then some below else some (below + 1)
  | true, false => some below
  | false, true => some (below + 1)
  | false, false => none

/-- The shortest decimal that rounds to a positive finite double. Seventeen digits always
suffice. -/
def shortest (x : Binary64) : Decimal :=
  let i := x.interval
  let lead := leadingDigit i.value i.den
  let hit := (List.range 17).findSome? fun (digits : Nat) =>
    (i.nearest? (lead - digits)).map fun c =>
      if c = Nat.pow 10 (digits + 1) then Decimal.mk 1 (lead + 1) else Decimal.mk c (lead - digits)
  hit.getD ⟨x.significand, x.exponent⟩

end Binary64

end DagSelect
