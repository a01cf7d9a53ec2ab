import DagSelect.Json.Tree
import DagSelect.Json.Value

/-! # Reading plain JSON

Standard JSON into values whose objects have their keys in rising order, the last of equal keys
counting. Integers of 64 bits, signed or not, stay integers; all other numbers become doubles and
must be finite. Containers may be nested to a bounded depth only.
-/

namespace DagSelect.Json

/-- Puts an entry where its key belongs, in place of one with the same key. -/
def insertEntry {α : Type} (key : String) (value : α) : List (String × α) → List (String × α)
  | [] => [(key, value)]
  | (k, v) :: rest =>
    if key < k then (key, value) :: (k, v) :: rest
    else if key = k then (key, value) :: rest
    else (k, v) :: insertEntry key value rest

/-- Entries in rising order of their keys; of equal keys the last counts. -/
def sortEntries {α : Type} (entries : List (String × α)) : List (String × α) :=
  entries.foldl (fun sorted e => insertEntry e.1 e.2 sorted) []

def finite? (x : Binary64) : Option Value := if x.isFinite then some (.float x) else none

/-- The value of a number. A negative zero is a double, since no integer is negative zero. -/
def numberValue? (text : List Char) : Option Value :=
  match Text.toInt? text with
  | none => finite? (Binary64.ofText text)
  | some i =>
    if i = 0 ∧ text.head? = some '-' then finite? (Binary64.ofText text)
    else if Int64.minValue.toInt ≤ i ∧ i < 0x10000000000000000 then some (.int i)
    else finite? (Binary64.ofText text)

def text? (literal : List Char) : Option String := (readLiteral literal).toOption

mutual
/-- The value written by a tree whose containers are nested at most `depth` deep. -/
def Tree.toValue? (depth : Nat) : Tree → Option Value
  | .atom .null _ => some .null
  | .atom (.bool b) _ => some (.bool b)
  | .atom (.number text) _ => numberValue? text
  | .atom (.string literal) _ => (text? literal).map .string
  | .array items _ => if depth = 0 then none else (itemsToValues? (depth - 1) items).map .array
  | .object entries _ =>
    if depth = 0 then none
    else (entriesToValues? (depth - 1) entries).map fun es => .object (sortEntries es)

def itemsToValues? (depth : Nat) : List Tree → Option (List Value)
  | [] => some []
  | t :: rest => do
    let v ← t.toValue? depth
    let vs ← itemsToValues? depth rest
    return v :: vs

def entriesToValues? (depth : Nat) : List (Key × Tree) → Option (List (String × Value))
  | [] => some []
  | (key, t) :: rest => do
    let k ← text? key.literal
    let v ← t.toValue? depth
    let vs ← entriesToValues? depth rest
    return (k, v) :: vs
end

/-! ## Text that is passed over -/

/-- Whether a literal is spelled correctly, whatever its code units mean. -/
def isSpelled : List Char → Bool
  | [] => true
  | '\\' :: 'u' :: rest => (codeUnit? rest).isSome && isSpelled rest
  | '\\' :: _ :: rest => isSpelled rest
  | c :: rest => 0x20 ≤ c.toNat && isSpelled rest

mutual
/-- Whether a tree can be passed over: its literals are spelled correctly. -/
def Tree.isSpelled : Tree → Bool
  | .atom (.string literal) _ => Json.isSpelled literal
  | .atom _ _ => true
  | .array items _ => itemsSpelled items
  | .object entries _ => entriesSpelled entries

def itemsSpelled : List Tree → Bool
  | [] => true
  | t :: rest => t.isSpelled && itemsSpelled rest

def entriesSpelled : List (Key × Tree) → Bool
  | [] => true
  | (key, t) :: rest => Json.isSpelled key.literal && t.isSpelled && entriesSpelled rest
end

/-- The tree of a text in standard JSON that holds exactly one value. -/
def readStrict? (source : String) : Option Tree := do
  let lexemes ← scan? .strict 0 source.toList
  match ← trees? lexemes with
  | [t] => some t
  | _ => none

end DagSelect.Json
