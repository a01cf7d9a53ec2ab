/-! # Base64

Bytes are written over the standard alphabet without padding; padding is accepted when reading.
Six-bit digits come in groups of four for three bytes. Only the last group may be short or padded,
and the bits of its last digit that belong to no byte must be zero, so every byte string has one
written form without padding.
-/

namespace DagSelect.Base64

def symbol (digit : Nat) : Char :=
  if digit < 26 then Char.ofNat ('A'.toNat + digit)
  else if digit < 52 then Char.ofNat ('a'.toNat + (digit - 26))
  else if digit < 62 then Char.ofNat ('0'.toNat + (digit - 52))
  else if digit = 62 then '+' else '/'

def digit? (byte : UInt8) : Option Nat :=
  let c := byte.toNat
  if 65 ≤ c ∧ c ≤ 90 then some (c - 65)
  else if 97 ≤ c ∧ c ≤ 122 then some (c - 97 + 26)
  else if 48 ≤ c ∧ c ≤ 57 then some (c - 48 + 52)
  else if c = 43 then some 62
  else if c = 47 then some 63
  else none

/-- Unpadded text of a byte string. -/
def encode : List UInt8 → List Char
  | a :: b :: c :: rest =>
    let n := a.toNat * 65536 + b.toNat * 256 + c.toNat
    symbol (n / 262144) :: symbol (n / 4096 % 64) :: symbol (n / 64 % 64) ::
      symbol (n % 64) :: encode rest
  | [a, b] =>
    let n := a.toNat * 1024 + b.toNat * 4
    [symbol (n / 4096), symbol (n / 64 % 64), symbol (n % 64)]
  | [a] =>
    let n := a.toNat * 16
    [symbol (n / 64), symbol (n % 64)]
  | [] => []

/-- Why a text is not the form of a byte string. Offsets count bytes of text. -/
inductive Fault where
  | symbol (byte : UInt8) (offset : Nat)
  | length (count : Nat)
  | lastSymbol (byte : UInt8) (offset : Nat)
deriving DecidableEq, Repr

def Fault.message : Fault → String
  | .symbol byte offset => s!"Invalid symbol {byte}, offset {offset}."
  | .length count => s!"Invalid input length: {count}"
  | .lastSymbol byte offset => s!"Invalid last symbol {byte}, offset {offset}."

def pad : UInt8 := 61

/-- The digits of the groups in front of the last one, where no padding may stand. -/
def digitsBefore (offset : Nat) : List UInt8 → Except Fault (List Nat)
  | [] => .ok []
  | byte :: rest =>
    match digit? byte with
    | none => .error (.symbol byte offset)
    | some d => (digitsBefore (offset + 1) rest).map (d :: ·)

/-- The digits of the last group, which starts at `start`; `padded` is the offset of the first
padding met. -/
def digitsLast (start : Nat) (padded : Option Nat) (offset : Nat) :
    List UInt8 → Except Fault (List (Nat × UInt8))
  | [] => .ok []
  | byte :: rest =>
    if byte = pad then
      if offset < start + 2 then .error (.symbol byte offset)
      else digitsLast start (some (padded.getD offset)) (offset + 1) rest
    else
      match padded with
      | some first => .error (.symbol pad first)
      | none =>
        match digit? byte with
        | none => .error (.symbol byte offset)
        | some d => (digitsLast start none (offset + 1) rest).map ((d, byte) :: ·)

/-- The bytes of complete groups of four digits. -/
def bytesOfGroups : List Nat → List UInt8
  | a :: b :: c :: d :: rest =>
    let n := a * 262144 + b * 4096 + c * 64 + d
    UInt8.ofNat (n / 65536) :: UInt8.ofNat (n / 256 % 256) :: UInt8.ofNat (n % 256) ::
      bytesOfGroups rest
  | _ => []

/-- The bytes of the last group, whose last digit stands at `offset`. -/
def bytesOfLast (start : Nat) : List (Nat × UInt8) → Except Fault (List UInt8)
  | [(a, _), (b, last)] =>
    if b % 16 = 0 then .ok [UInt8.ofNat (a * 4 + b / 16)] else .error (.lastSymbol last (start + 1))
  | [(a, _), (b, _), (c, last)] =>
    if c % 4 = 0 then .ok [UInt8.ofNat (a * 4 + b / 16), UInt8.ofNat (b % 16 * 16 + c / 4)]
    else .error (.lastSymbol last (start + 2))
  | [(a, _), (b, _), (c, _), (d, _)] => .ok (bytesOfGroups [a, b, c, d])
  | digits => .error (.length (start + digits.length))

/-- A last byte that stands alone in its group and cannot be a digit is refused before all else. -/
def checkLone (bytes : List UInt8) : Except Fault Unit :=
  match bytes.length % 4, bytes.getLast? with
  | 1, some byte =>
    if byte = pad ∨ (digit? byte).isSome then .ok () else .error (.symbol byte (bytes.length - 1))
  | _, _ => .ok ()

/-- The byte string written by a text, given as bytes. -/
def decode (text : List UInt8) : Except Fault (List UInt8) := do
  if text.isEmpty then return []
  checkLone text
  let start := (text.length - 1) / 4 * 4
  let before ← digitsBefore 0 (text.take start)
  let last ← digitsLast start none start (text.drop start)
  let tail ← bytesOfLast start last
  return bytesOfGroups before ++ tail

end DagSelect.Base64
