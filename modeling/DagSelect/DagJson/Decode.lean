import DagSelect.Json.Tree
import DagSelect.Json.Literal
import DagSelect.Text.Integer
import DagSelect.Binary64.Text
import DagSelect.Base64
import DagSelect.Node

/-! # Reading DAG-JSON

A text is scanned and put together as a whole before anything in it is looked at, so a text that
breaks the grammar is refused for that alone. Then the value is read from left to right, a container
before the reserved form that it may turn out to be, and the first fault ends the reading. Keys of
one object must differ, so a node that was read never repeats a key.
-/

namespace DagSelect.DagJson

inductive Fault where
  | grammar
  | empty
  | trailing
  | number (text : String) (fault : Text.IntegerFault)
  | literal (error : Json.LiteralError)
  | duplicateKey (key : String)
  | base64 (fault : Base64.Fault)
  | bytesKind (found : Kind)
  | reservedKind (found : Kind)
deriving DecidableEq, Repr

def Fault.message : Fault → String
  | .grammar => "Failed to parse json: syntax error"
  | .empty => "Expected a JSON value, found empty document"
  | .trailing => "Unexpected trailing value"
  | .number text fault => "Failed to parse number '" ++ text ++ "': " ++ fault.message
  | .literal error => "Invalid string literal: " ++ error.message
  | .duplicateKey key => "Duplicate key " ++ key
  | .base64 fault => "Invalid base64 in bytes: " ++ fault.message
  | .bytesKind found => "Expected base64 String for bytes, found " ++ found.name
  | .reservedKind found =>
    "Reserved key \"/\" must hold a link String or a bytes Map, found " ++ found.name

/-- A fault and the part of the text it lies in; a text that breaks the grammar is at fault as a
whole. -/
structure DecodeError where
  fault : Fault
  span : Option Json.Span
deriving DecidableEq, Repr

def DecodeError.message (e : DecodeError) : String := e.fault.message

def faultAt {α : Type} (fault : Fault) (span : Json.Span) : Except DecodeError α :=
  .error ⟨fault, some span⟩

/-- A number with a point or an exponent is a double, any other an integer. -/
def readNumber (text : List Char) (span : Json.Span) : Except DecodeError Node :=
  if text.any fun c => c == '.' || c == 'e' || c == 'E' then .ok (.float (Binary64.ofText text))
  else
    match Text.toInt64 text with
    | .ok i => .ok (.int i)
    | .error fault => faultAt (.number (String.ofList text) fault) span

def readString (literal : List Char) (span : Json.Span) : Except DecodeError String :=
  match Json.readLiteral literal with
  | .ok s => .ok s
  | .error error => faultAt (.literal error) span

/-- The link or byte string that an object with the reserved key alone stands for, given what the
key holds. -/
def readReserved (span : Json.Span) : Node → Except DecodeError Node
  | .string address => .ok (.link ⟨address⟩)
  | .map [("bytes", .string text)] =>
    match Base64.decode text.toUTF8.data.toList with
    | .ok bytes => .ok (.bytes bytes)
    | .error fault => faultAt (.base64 fault) span
  | .map [("bytes", other)] => faultAt (.bytesKind other.kind) span
  | other => faultAt (.reservedKind other.kind) span

def ofEntries (span : Json.Span) : List (String × Node) → Except DecodeError Node
  | [("/", value)] => readReserved span value
  | entries => .ok (.map entries)

mutual
def readTree : Json.Tree → Except DecodeError Node
  | .atom .null _ => .ok .null
  | .atom (.bool b) _ => .ok (.bool b)
  | .atom (.number text) span => readNumber text span
  | .atom (.string literal) span => (readString literal span).map .string
  | .array items _ => (readItems items).map .list
  | .object entries span => do
    let entries ← readEntries [] entries
    ofEntries span entries

def readItems : List Json.Tree → Except DecodeError (List Node)
  | [] => .ok []
  | t :: rest => do
    let n ← readTree t
    let ns ← readItems rest
    return n :: ns

/-- The entries behind those with the keys `seen`. A key is read and compared before its value is
looked at. -/
def readEntries (seen : List String) :
    List (Json.Key × Json.Tree) → Except DecodeError (List (String × Node))
  | [] => .ok []
  | (key, t) :: rest => do
    let k ← readString key.literal key.span
    if seen.contains k then faultAt (.duplicateKey k) key.span
    let n ← readTree t
    let ns ← readEntries (k :: seen) rest
    return (k, n) :: ns
end

/-- A mark of the byte order in front of a text is passed over. -/
def dropMark : List Char → Nat × List Char
  | '\ufeff' :: rest => (3, rest)
  | text => (0, text)

/-- Where an empty document lies: from its first comment, if it has one, to its end. -/
def emptySpan (lexemes : List Json.Lexeme) (stop : Nat) : Json.Span :=
  match lexemes with
  | [] => ⟨stop, stop⟩
  | first :: _ => ⟨first.span.start, stop⟩

/-- The node written by a text, which must hold exactly one value. -/
def decode (source : String) : Except DecodeError Node :=
  let (offset, text) := dropMark source.toList
  match Json.scan? .lenient offset text with
  | none => .error ⟨.grammar, none⟩
  | some lexemes =>
    match Json.trees? lexemes with
    | none => .error ⟨.grammar, none⟩
    | some [] => faultAt .empty (emptySpan lexemes source.utf8ByteSize)
    | some [t] => readTree t
    | some (_ :: extra :: _) => faultAt .trailing extra.span

end DagSelect.DagJson
