/-! # Text of integers

Decimal digits, optionally behind one sign. Reading into 64 bits tells three failures apart: text
that is no decimal integer, and integers past either end of the range.
-/

namespace DagSelect.Text

def naturalOfDigits (digits : List Char) : Nat :=
  digits.foldl (fun n c => 10 * n + (c.toNat - '0'.toNat)) 0

/-- The decimal text of an integer, with a sign only when it is negative. -/
def ofInt (i : Int) : List Char :=
  if i < 0 then '-' :: Nat.toDigits 10 i.natAbs else Nat.toDigits 10 i.natAbs

/-- Why a text is not read as a 64-bit integer. -/
inductive IntegerFault where
  | notDecimal
  | tooLarge
  | tooSmall
deriving DecidableEq, Repr

def IntegerFault.message : IntegerFault → String
  | .notDecimal => "invalid digit found in string"
  | .tooLarge => "number too large to fit in target type"
  | .tooSmall => "number too small to fit in target type"

def toInt? : List Char → Option Int
  | '-' :: digits =>
    if digits ≠ [] ∧ digits.all Char.isDigit then some (-(naturalOfDigits digits : Int)) else none
  | '+' :: digits =>
    if digits ≠ [] ∧ digits.all Char.isDigit then some (naturalOfDigits digits) else none
  | digits => if digits ≠ [] ∧ digits.all Char.isDigit then some (naturalOfDigits digits) else none

/-- The 64-bit integer written by a sign and digits. -/
def toInt64 (text : List Char) : Except IntegerFault Int64 :=
  match toInt? text with
  | none => .error .notDecimal
  | some i =>
    if Int64.maxValue.toInt < i then .error .tooLarge
    else if i < Int64.minValue.toInt then .error .tooSmall
    else .ok (Int64.ofInt i)

end DagSelect.Text
