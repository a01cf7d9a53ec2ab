/-! # String literals

The text that a literal denotes. The literal is read from its opening quote on; the first thing that
is not allowed ends the reading, and the fault tells where, by line and by bytes within the line,
counted over everything that had been consumed. Escapes by code unit take four bytes whatever they
are, so a literal that ends too early consumes all that is left.
-/

namespace DagSelect.Json

/-- Lines passed, counted from one, and bytes passed on the last of them. -/
structure Position where
  line : Nat
  column : Nat
deriving DecidableEq, Repr

namespace Position

def pass (p : Position) (c : Char) : Position :=
  if c = '\n' then ⟨p.line + 1, 0⟩ else ⟨p.line, p.column + c.utf8Size⟩

def passAll (p : Position) (text : List Char) : Position := text.foldl pass p

/-- The place behind the first `count` bytes of a text, which may end inside a character. -/
def passBytes (p : Position) (count : Nat) : List Char → Position
  | [] => p
  | c :: rest =>
    if count = 0 then p
    else if c.utf8Size ≤ count then (p.pass c).passBytes (count - c.utf8Size) rest
    else ⟨p.line, p.column + count⟩

end Position

inductive LiteralFault where
  | control
  | unfinished
  | badEscape
  | loneSurrogate
  | unfinishedPair
deriving DecidableEq, Repr

def LiteralFault.message : LiteralFault → String
  | .control => "control character (\\u0000-\\u001F) found while parsing a string"
  | .unfinished => "EOF while parsing a string"
  | .badEscape => "invalid escape"
  | .loneSurrogate => "lone leading surrogate in hex escape"
  | .unfinishedPair => "unexpected end of hex escape"

structure LiteralError where
  fault : LiteralFault
  position : Position
deriving DecidableEq, Repr

def LiteralError.message (e : LiteralError) : String :=
  let fault := e.fault.message
  let line := e.position.line
  let column := e.position.column
  s!"{fault} at line {line} column {column}"

def hexDigit? (c : Char) : Option Nat :=
  if c.isDigit then some (c.toNat - '0'.toNat)
  else if 'a' ≤ c ∧ c ≤ 'f' then some (c.toNat - 'a'.toNat + 10)
  else if 'A' ≤ c ∧ c ≤ 'F' then some (c.toNat - 'A'.toNat + 10)
  else none

def codeUnit? : List Char → Option Nat
  | a :: b :: c :: d :: _ =>
    match hexDigit? a, hexDigit? b, hexDigit? c, hexDigit? d with
    | some a, some b, some c, some d => some (((a * 16 + b) * 16 + c) * 16 + d)
    | _, _, _, _ => none
  | _ => none

def unescape? : Char → Option Char
  | '"' => some '"'
  | '\\' => some '\\'
  | '/' => some '/'
  | 'b' => some '\x08'
  | 'f' => some '\x0c'
  | 'n' => some '\n'
  | 'r' => some '\r'
  | 't' => some '\t'
  | _ => none

/-- The fault of an escape whose four bytes are not all hexadecimal digits. -/
def badUnit (p : Position) (rest : List Char) : LiteralError :=
  if 4 ≤ (String.ofList rest).utf8ByteSize then ⟨.badEscape, p.passBytes 4 rest⟩
  else ⟨.unfinished, p.passAll rest⟩

def isLeading (unit : Nat) : Bool := 0xD800 ≤ unit && unit ≤ 0xDBFF

def isTrailing (unit : Nat) : Bool := 0xDC00 ≤ unit && unit ≤ 0xDFFF

def ofPair (leading trailing : Nat) : Char :=
  Char.ofNat (0x10000 + (leading - 0xD800) * 0x400 + (trailing - 0xDC00))

/-- The characters denoted by the rest of a literal, up to its closing quote. -/
def literalRest (p : Position) : List Char → Except LiteralError (List Char)
  | [] => .error ⟨.unfinished, p⟩
  | '"' :: _ => .ok []
  | ['\\'] => .error ⟨.unfinished, p.pass '\\'⟩
  | '\\' :: 'u' :: rest =>
    let p := (p.pass '\\').pass 'u'
    match codeUnit? rest with
    | none => .error (badUnit p rest)
    | some unit =>
      match rest with
      | _ :: _ :: _ :: _ :: rest =>
        let p := ⟨p.line, p.column + 4⟩
        if isTrailing unit then .error ⟨.loneSurrogate, p⟩
        else if isLeading unit then
          match rest with
          | '\\' :: 'u' :: rest =>
            let p := (p.pass '\\').pass 'u'
            match codeUnit? rest with
            | none => .error (badUnit p rest)
            | some trailing =>
              match rest with
              | _ :: _ :: _ :: _ :: rest =>
                let p := ⟨p.line, p.column + 4⟩
                if isTrailing trailing then (literalRest p rest).map (ofPair unit trailing :: ·)
                else .error ⟨.loneSurrogate, p⟩
              | _ => .error (badUnit p rest)
          | '\\' :: rest => .error ⟨.unfinishedPair, (p.pass '\\').passBytes 1 rest⟩
          | rest => .error ⟨.unfinishedPair, p.passBytes 1 rest⟩
        else (literalRest p rest).map (Char.ofNat unit :: ·)
      | _ => .error (badUnit p rest)
  | '\\' :: c :: rest =>
    match unescape? c with
    | some meant => (literalRest ((p.pass '\\').pass c) rest).map (meant :: ·)
    | none => .error ⟨.badEscape, (p.pass '\\').pass c⟩
  | c :: rest =>
    if c.toNat < 0x20 then .error ⟨.control, p.pass c⟩
    else (literalRest (p.pass c) rest).map (c :: ·)

/-- The text denoted by a literal, which begins with its opening quote. -/
def readLiteral (literal : List Char) : Except LiteralError String :=
  (literalRest ⟨1, 1⟩ (literal.drop 1)).map String.ofList

/-! ## Writing -/

/-- The written form of one character: quotes, backslashes and controls are escaped, all else stands
for itself. -/
def escape (c : Char) : List Char :=
  match c with
  | '"' => ['\\', '"']
  | '\\' => ['\\', '\\']
  | '\x08' => ['\\', 'b']
  | '\x0c' => ['\\', 'f']
  | '\n' => ['\\', 'n']
  | '\r' => ['\\', 'r']
  | '\t' => ['\\', 't']
  | c =>
    if c.toNat < 0x20 then
      ['\\', 'u', '0', '0', Nat.digitChar (c.toNat / 16), Nat.digitChar (c.toNat % 16)]
    else [c]

def writeLiteral (text : List Char) : List Char := '"' :: (text.flatMap escape ++ ['"'])

end DagSelect.Json
