import DagSelect.Binary64.Shortest
import DagSelect.Text.Integer

/-! # Text of doubles

`Decimal.text` lays out a decimal in positional or in exponent notation; which one, and how many
zeros and signs go with it, is a `NumberStyle`. `ofText` reads a number with an optional fraction
and exponent, rounding correctly.
-/

namespace DagSelect

/-- How a finite number is laid out. -/
structure NumberStyle where
  /-- The least exponent of the leading digit that is still written positionally. -/
  lowest : Int
  /-- The greatest exponent of the leading digit that is still written positionally. -/
  highest : Int
deriving Repr

/-- Numbers from one hundred-thousandth up to sixteen digits before the point are written
positionally. -/
def NumberStyle.json : NumberStyle := { lowest := -5, highest := 15 }

namespace Decimal

/-- Digits around a point, always with at least one digit on either side. -/
def positional (digits : List Char) (lead : Int) : List Char :=
  if lead < 0 then
    '0' :: '.' :: (List.replicate (-lead - 1).toNat '0' ++ digits)
  else
    let whole := lead.toNat + 1
    if digits.length ≤ whole then
      digits ++ List.replicate (whole - digits.length) '0' ++ ['.', '0']
    else
      digits.take whole ++ '.' :: digits.drop whole

/-- One digit before the point, no point when no digit follows, and an exponent with its sign. -/
def scientific (digits : List Char) (lead : Int) : List Char :=
  let mantissa := match digits with
    | d :: r :: rest => d :: '.' :: r :: rest
    | short => short
  mantissa ++ 'e' :: (if lead < 0 then '-' else '+') :: Nat.toDigits 10 lead.natAbs

def text (style : NumberStyle) (d : Decimal) : List Char :=
  let digits := Nat.toDigits 10 d.coefficient
  let lead := d.exponent + digits.length - 1
  if style.lowest ≤ lead ∧ lead ≤ style.highest then positional digits lead
  else scientific digits lead

end Decimal

namespace Binary64

/-- The text of a finite double: the shortest decimal that reads back as it, and the sign also of
zero. -/
def text (style : NumberStyle) (x : Binary64) : List Char :=
  let unsigned := if x.isZero then ['0', '.', '0'] else x.shortest.text style
  if x.isNegative then '-' :: unsigned else unsigned

/-- The exponent written after the mark, with its optional sign. -/
def exponentOfText : List Char → Int
  | '-' :: digits => -(Text.naturalOfDigits digits : Int)
  | '+' :: digits => Text.naturalOfDigits digits
  | digits => Text.naturalOfDigits digits

/-- The double nearest to a written number: an optional minus sign, digits with an optional point
among or after them, and an optional exponent. -/
def ofText (text : List Char) : Binary64 :=
  let negative := text.head? == some '-'
  let unsigned := if negative then text.tail else text
  let isMark (c : Char) : Bool := c == 'e' || c == 'E'
  let mantissa := unsigned.takeWhile (!isMark ·)
  let exponent := exponentOfText ((unsigned.dropWhile (!isMark ·)).drop 1)
  let whole := mantissa.takeWhile (· != '.')
  let fraction := (mantissa.dropWhile (· != '.')).drop 1
  ofDecimal negative (Text.naturalOfDigits (whole ++ fraction)) (exponent - fraction.length)

end Binary64

end DagSelect
