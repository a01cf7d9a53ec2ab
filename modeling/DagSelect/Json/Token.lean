/-! # Tokens of JSON text

A text is read one character at a time by a scanner whose whole state is a value: the tokens found
so far, what it is in the middle of, and how many bytes it has passed. A number ends only where the
next character cannot extend it, and that character is then read afresh; nothing ever has to be read
twice, because a number that breaks off half way cannot be followed by anything valid. Nothing is
required between tokens.

What may stand between tokens and how numbers may be spelled differs between readers, and is a
`Dialect`.
-/

namespace DagSelect.Json

structure Span where
  start : Nat
  stop : Nat
deriving DecidableEq, Repr, Inhabited

inductive Symbol where
  | openBrace
  | closeBrace
  | openBracket
  | closeBracket
  | colon
  | comma
deriving DecidableEq, Repr

def Symbol.char : Symbol → Char
  | .openBrace => '\x7b'
  | .closeBrace => '\x7d'
  | .openBracket => '['
  | .closeBracket => ']'
  | .colon => ':'
  | .comma => ','

def Symbol.ofChar? : Char → Option Symbol
  | '\x7b' => some .openBrace
  | '\x7d' => some .closeBrace
  | '[' => some .openBracket
  | ']' => some .closeBracket
  | ':' => some .colon
  | ',' => some .comma
  | _ => none

@[simp] theorem Symbol.ofChar?_char (s : Symbol) :
    Symbol.ofChar? s.char = some s := by cases s <;> rfl

/-- A value without parts, as written: numbers keep their text, strings their literal with its
quotes. -/
inductive Atom where
  | null
  | bool (value : Bool)
  | number (text : List Char)
  | string (literal : List Char)
deriving DecidableEq, Repr

inductive Token where
  | symbol (s : Symbol)
  | atom (a : Atom)
  | comment
deriving DecidableEq, Repr

structure Lexeme where
  token : Token
  span : Span
deriving DecidableEq, Repr

/-- What one reader of JSON admits and another does not. -/
structure Dialect where
  /-- The characters that may stand between tokens. -/
  isBlank : Char → Bool
  /-- Whether comments, to the end of the line or between marks, may stand between tokens. -/
  comments : Bool
  /-- Whether the digits after the point may be left out. -/
  bareFraction : Bool
  /-- Whether an exponent may have a plus sign. -/
  plusExponent : Bool

/-- Every ASCII blank, comments, and a point without digits; no plus sign. -/
def Dialect.lenient : Dialect where
  isBlank c := c == ' ' || c == '\t' || c == '\n' || c == '\x0b' || c == '\x0c' || c == '\r'
  comments := true
  bareFraction := true
  plusExponent := false

def Dialect.strict : Dialect where
  isBlank c := c == ' ' || c == '\t' || c == '\n' || c == '\r'
  comments := false
  bareFraction := false
  plusExponent := true

/-! ## Numbers -/

inductive NumberPart where
  | sign
  | zero
  | digits
  | point
  | fraction
  | mark
  | markSign
  | exponent
deriving DecidableEq, Repr

namespace NumberPart

def first? (c : Char) : Option NumberPart :=
  if c == '-' then some .sign
  else if c == '0' then some .zero
  else if c.isDigit then some .digits
  else none

/-- The next character of a number. -/
def next? (d : Dialect) (part : NumberPart) (c : Char) : Option NumberPart :=
  let isMark := c == 'e' || c == 'E'
  match part with
  | .sign => if c == '0' then some .zero else if c.isDigit then some .digits else none
  | .zero => if c == '.' then some .point else if isMark then some .mark else none
  | .digits =>
    if c.isDigit then some .digits
    else if c == '.' then some .point
    else if isMark then some .mark
    else none
  | .point =>
    if c.isDigit then some .fraction else if isMark && d.bareFraction then some .mark else none
  | .fraction => if c.isDigit then some .fraction else if isMark then some .mark else none
  | .mark =>
    if c == '-' || c == '+' && d.plusExponent then some .markSign
    else if c.isDigit then some .exponent
    else none
  | .markSign | .exponent => if c.isDigit then some .exponent else none

def isComplete (d : Dialect) : NumberPart → Bool
  | .zero | .digits | .fraction | .exponent => true
  | .point => d.bareFraction
  | .sign | .mark | .markSign => false

end NumberPart

/-! ## Gaps and strings -/

inductive Gap where
  | blank
  | slash
  | line
  | block
  | star
deriving DecidableEq, Repr

/-- The next character of a comment that has begun with a slash; a comment that is over leaves a
blank. -/
def Gap.next? : Gap → Char → Option Gap
  | .blank, _ => none
  | .slash, c => if c == '/' then some .line else if c == '*' then some .block else none
  | .line, c => if c == '\n' then some .blank else some .line
  | .block, c => if c == '*' then some .star else some .block
  | .star, c => if c == '/' then some .blank else if c == '*' then some .star else some .block

/-- How far a string literal has been read. A newline breaks the literal off: behind it stand blanks
and comments, as between tokens, and the literal goes on right behind a comment between marks, or
ends. -/
inductive StringPart where
  | content
  | escape
  | gap (g : Gap)
deriving DecidableEq, Repr

def isEscapable (c : Char) : Bool := "\"\\/bfnrtu".toList.contains c

def StringPart.next? (d : Dialect) (part : StringPart) (c : Char) : Option StringPart :=
  match part with
  | .content =>
    if c == '\n' then some (.gap .blank) else if c == '\\' then some .escape else some .content
  | .escape => if isEscapable c then some .content else none
  | .gap .blank =>
    if d.isBlank c then some part else if c == '/' && d.comments then some (.gap .slash) else none
  | .gap .star => if c == '/' then some .content else (Gap.star.next? c).map .gap
  | .gap g => (g.next? c).map .gap

def StringPart.isClosable : StringPart → Bool
  | .content | .gap .blank => true
  | .escape | .gap _ => false

/-! ## The scanner -/

/-- What the scanner is in the middle of, and where that began. -/
inductive Mode where
  | gap (g : Gap) (start : Nat)
  | word (rest : List Char) (a : Atom) (start : Nat)
  | number (part : NumberPart) (text : List Char) (start : Nat)
  | string (part : StringPart) (text : List Char) (start : Nat)
deriving DecidableEq, Repr

/-- The state of the scanner: tokens with the latest first, what is being read with its text
reversed, and the number of bytes passed. -/
structure Scanner where
  lexemes : List Lexeme
  mode : Mode
  offset : Nat
deriving DecidableEq, Repr

namespace Scanner

def ofOffset (offset : Nat) : Scanner := ⟨[], .gap .blank offset, offset⟩

def emit (s : Scanner) (t : Token) (start stop : Nat) : Scanner :=
  { lexemes := ⟨t, start, stop⟩ :: s.lexemes, mode := .gap .blank stop, offset := stop }

def enter (s : Scanner) (c : Char) (m : Mode) : Scanner :=
  { s with mode := m, offset := s.offset + c.utf8Size }

/-- Reads a character that begins a token, or a blank. -/
def begin? (d : Dialect) (s : Scanner) (c : Char) : Option Scanner :=
  match Symbol.ofChar? c with
  | some symbol => some (s.emit (.symbol symbol) s.offset (s.offset + c.utf8Size))
  | none =>
    if d.isBlank c then some (s.enter c (.gap .blank s.offset))
    else if c == '/' && d.comments then some (s.enter c (.gap .slash s.offset))
    else if c == '"' then some (s.enter c (.string .content [c] s.offset))
    else if c == 'n' then some (s.enter c (.word "ull".toList .null s.offset))
    else if c == 't' then some (s.enter c (.word "rue".toList (.bool true) s.offset))
    else if c == 'f' then some (s.enter c (.word "alse".toList (.bool false) s.offset))
    else (NumberPart.first? c).map fun part => s.enter c (.number part [c] s.offset)

def step? (d : Dialect) (s : Scanner) (c : Char) : Option Scanner :=
  if c == '\x00' then none
  else
    match s.mode with
    | .gap .blank _ => s.begin? d c
    | .gap .line start =>
      if c == '\n' then (s.emit .comment start s.offset).begin? d c else some (s.enter c s.mode)
    | .gap g start =>
      match g.next? c with
      | some .blank => some (s.emit .comment start (s.offset + c.utf8Size))
      | some g => some (s.enter c (.gap g start))
      | none => none
    | .word [] _ _ => none
    | .word (e :: rest) a start =>
      if c == e then
        if rest.isEmpty then some (s.emit (.atom a) start (s.offset + c.utf8Size))
        else some (s.enter c (.word rest a start))
      else none
    | .number part text start =>
      match part.next? d c with
      | some part => some (s.enter c (.number part (c :: text) start))
      | none =>
        if part.isComplete d then (s.emit (.atom (.number text.reverse)) start s.offset).begin? d c
        else none
    | .string part text start =>
      if c == '"' && part.isClosable then
        some (s.emit (.atom (.string (c :: text).reverse)) start (s.offset + c.utf8Size))
      else (part.next? d c).map fun part => s.enter c (.string part (c :: text) start)

def finish? (d : Dialect) (s : Scanner) : Option (List Lexeme) :=
  match s.mode with
  | .gap .blank _ => some s.lexemes.reverse
  | .gap .line start => some (s.emit .comment start s.offset).lexemes.reverse
  | .number part text start =>
    if part.isComplete d then
      some (s.emit (.atom (.number text.reverse)) start s.offset).lexemes.reverse
    else none
  | _ => none

def run? (d : Dialect) (s : Scanner) (text : List Char) : Option Scanner := text.foldlM (step? d) s

@[simp] theorem run?_nil (d : Dialect) (s : Scanner) : s.run? d [] = some s := rfl

theorem run?_cons (d : Dialect) (s : Scanner) (c : Char) (text : List Char) :
    s.run? d (c :: text) = (s.step? d c).bind fun s => s.run? d text := by
  simp only [run?, List.foldlM_cons]; rfl

theorem run?_append (d : Dialect) (s : Scanner) (a b : List Char) :
    s.run? d (a ++ b) = (s.run? d a).bind fun s => s.run? d b := by
  simp only [run?, List.foldlM_append]; rfl

end Scanner

/-- The tokens and comments of a text that begins at a byte offset, in order. -/
def scan? (d : Dialect) (offset : Nat) (text : List Char) : Option (List Lexeme) :=
  (Scanner.ofOffset offset).run? d text |>.bind (Scanner.finish? d)

end DagSelect.Json
