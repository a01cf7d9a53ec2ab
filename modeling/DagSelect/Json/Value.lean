import DagSelect.Binary64.Text
import DagSelect.Json.Literal

/-! # JSON values and their text

A value of plain JSON, with two layouts of its text. The compact one has no space at all; the spread
one puts every part of a container on a line of its own, two spaces further in, and leaves empty
containers closed up. Doubles that are not finite have no form and are written as null. Every text
is written in front of a given rest, so writing takes time in the length of the text however deep
the value is nested.
-/

namespace DagSelect.Json

inductive Value where
  | null
  | bool (value : Bool)
  | int (value : Int)
  | float (value : Binary64)
  | string (value : String)
  | array (items : List Value)
  | object (entries : List (String × Value))
deriving Repr, Inhabited

namespace Value

/-- The text of a value without parts. -/
def nullText : List Char := "null".toList

def boolText (b : Bool) : List Char := if b then "true".toList else "false".toList

def floatText (x : Binary64) : List Char := if x.isFinite then x.text .json else nullText

mutual
/-- The text of a value without any space, in front of what follows it. -/
def compact : Value → List Char → List Char
  | .null, rest => nullText ++ rest
  | .bool b, rest => boolText b ++ rest
  | .int i, rest => Text.ofInt i ++ rest
  | .float x, rest => floatText x ++ rest
  | .string s, rest => writeLiteral s.toList ++ rest
  | .array items, rest => '[' :: compactItems items (']' :: rest)
  | .object entries, rest => '\x7b' :: compactEntries entries ('\x7d' :: rest)

def compactItems : List Value → List Char → List Char
  | [], rest => rest
  | [v], rest => compact v rest
  | v :: more, rest => compact v (',' :: compactItems more rest)

/-- Keys and values separated by colons, and these by commas. -/
def compactEntries : List (String × Value) → List Char → List Char
  | [], rest => rest
  | [(k, v)], rest => writeLiteral k.toList ++ ':' :: compact v rest
  | (k, v) :: more, rest =>
    writeLiteral k.toList ++ ':' :: compact v (',' :: compactEntries more rest)
end

/-- A new line that begins `depth` steps in. -/
def newline (depth : Nat) : List Char := '\n' :: List.replicate (2 * depth) ' '

mutual
/-- The text of a value that begins `depth` steps in, with one part of a container on each line, in
front of what follows it. -/
def spread (depth : Nat) : Value → List Char → List Char
  | .null, rest => nullText ++ rest
  | .bool b, rest => boolText b ++ rest
  | .int i, rest => Text.ofInt i ++ rest
  | .float x, rest => floatText x ++ rest
  | .string s, rest => writeLiteral s.toList ++ rest
  | .array [], rest => '[' :: ']' :: rest
  | .array items, rest => '[' :: spreadItems (depth + 1) items (newline depth ++ ']' :: rest)
  | .object [], rest => '\x7b' :: '\x7d' :: rest
  | .object entries, rest =>
    '\x7b' :: spreadEntries (depth + 1) entries (newline depth ++ '\x7d' :: rest)

/-- Items on lines of their own, separated by commas. -/
def spreadItems (depth : Nat) : List Value → List Char → List Char
  | [], rest => rest
  | [v], rest => newline depth ++ spread depth v rest
  | v :: more, rest => newline depth ++ spread depth v (',' :: spreadItems depth more rest)

/-- Keys and values on lines of their own, separated by commas. -/
def spreadEntries (depth : Nat) : List (String × Value) → List Char → List Char
  | [], rest => rest
  | [(k, v)], rest => newline depth ++ (writeLiteral k.toList ++ ':' :: ' ' :: spread depth v rest)
  | (k, v) :: more, rest =>
    newline depth ++
      (writeLiteral k.toList ++ ':' :: ' ' :: spread depth v (',' :: spreadEntries depth more rest))
end

def text (v : Value) : String := String.ofList (v.compact [])

def pretty (v : Value) : String := String.ofList (v.spread 0 [])

end Value

end DagSelect.Json
