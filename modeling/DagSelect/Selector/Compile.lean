import DagSelect.Selector.Explore
import DagSelect.Selector.Wire
import DagSelect.Text.Quoted

/-! # Reading the written form

`compile` reads a selector from its written form and refuses everything that is no selector. An edge
belongs to the innermost recursion around it: one without a recursion is refused where it stands,
and a recursion whose sequence holds no edge of its own is refused once the sequence has been read
(`countedCompile` counts the edges on the way). Faults are found in the order of the form, so of two
faults the first one met is the one reported.
-/

namespace DagSelect

inductive CompileError where
  | notAMap (found : Kind)
  | notSingleEntry (length : Nat)
  | unknownSelector (key : String)
  | invalidBody (selector : String) (expected found : Kind)
  | missingField (selector field key : String)
  | invalidFieldKind (selector field : String) (expected found : Kind)
  | negative (selector field : String) (value : Int64)
  | emptyRange (start stop : Int64)
  | invalidFieldValue (name : String) (found : Kind)
  | duplicateField (name : String)
  | emptyUnion
  | limitNotAMap (found : Kind)
  | limitNotSingleEntry (length : Nat)
  | unknownLimit (key : String)
  | missingRecursiveEdge
  | edgeOutsideRecursion
deriving DecidableEq, Repr

namespace CompileError

def reason : CompileError → String
  | .notAMap found => "selector must be a Map, found " ++ found.name
  | .notSingleEntry length =>
    s!"selector is a keyed union and thus must be a map with a single entry, found {length} entries"
  | .unknownSelector key => "unknown selector key " ++ Text.quoted key
  | .invalidBody selector expected found =>
    selector ++ " body must be a " ++ expected.name ++ ", found " ++ found.name
  | .missingField selector field key =>
    selector ++ " is missing field " ++ field ++ " (key " ++ Text.quoted key ++ ")"
  | .invalidFieldKind selector field expected found =>
    field ++ " of " ++ selector ++ " must be a " ++ expected.name ++ ", found " ++ found.name
  | .negative selector field value =>
    field ++ " of " ++ selector ++ s!" must be non-negative, found {value.toInt}"
  | .emptyRange start stop =>
    s!"end of ExploreRange must be greater than start, found {start.toInt}..{stop.toInt}"
  | .invalidFieldValue name found =>
    "field " ++ Text.quoted name ++ " must map to a selector or true, found " ++ found.name
  | .duplicateField name => "field " ++ Text.quoted name ++ " selected more than once"
  | .emptyUnion => "ExploreUnion must have at least one member"
  | .limitNotAMap found => "limit of ExploreRecursive must be a Map, found " ++ found.name
  | .limitNotSingleEntry length =>
    "limit of ExploreRecursive is a keyed union and thus must be a map with a single entry, " ++
      s!"found {length} entries"
  | .unknownLimit key => "unknown recursion limit " ++ Text.quoted key
  | .missingRecursiveEdge => "ExploreRecursive must have at least one ExploreRecursiveEdge"
  | .edgeOutsideRecursion => "ExploreRecursiveEdge must be beneath ExploreRecursive"

def message (e : CompileError) : String := "selector spec parse rejected: " ++ e.reason

end CompileError

mutual
/-- Whether a selector has an edge that is not inside a further recursion. -/
def Selector.hasOwnEdge : Selector → Bool
  | .edge => true
  | .all next => next.hasOwnEdge
  | .fields selections => anyOwnEdgeSelected selections
  | .index _ next => next.hasOwnEdge
  | .range _ _ next => next.hasOwnEdge
  | .union members => anyOwnEdge members
  | .matcher => false
  | .recursive _ _ _ => false

def anyOwnEdgeSelected : List (String × Selector) → Bool
  | [] => false
  | (_, s) :: rest => s.hasOwnEdge || anyOwnEdgeSelected rest

def anyOwnEdge : List Selector → Bool
  | [] => false
  | s :: rest => s.hasOwnEdge || anyOwnEdge rest
end

@[simp] theorem anyOwnEdgeSelected_eq_any (selections : List (String × Selector)) :
    anyOwnEdgeSelected selections = selections.any fun e => e.2.hasOwnEdge := by
  induction selections with
  | nil => rfl
  | cons e rest ih => simp [anyOwnEdgeSelected, ih]

@[simp] theorem anyOwnEdge_eq_any (members : List Selector) :
    anyOwnEdge members = members.any Selector.hasOwnEdge := by
  induction members with
  | nil => rfl
  | cons s rest ih => simp [anyOwnEdge, ih]

namespace Compile

def natural (selector field : String) (value : Node) : Except CompileError Int64 :=
  match value with
  | .int i => if i < 0 then .error (.negative selector field i) else .ok i
  | other => .error (.invalidFieldKind selector field .int other.kind)

def naturalField (selector field key : String) (body : List (String × Node)) :
    Except CompileError Int64 :=
  match body.lookup key with
  | some value => natural selector field value
  | none => .error (.missingField selector field key)

def limit : Node → Except CompileError Limit
  | .map [(key, value)] =>
    if key = Wire.depth ∨ key = Wire.depthAlias then
      (natural "ExploreRecursive" "limit" value).map fun laps => .depth laps.toInt.toNat
    else if key = Wire.unbounded then .ok .unbounded
    else .error (.unknownLimit key)
  | .map entries => .error (.limitNotSingleEntry entries.length)
  | other => .error (.limitNotAMap other.kind)

/-- The limit of a recursion, under either of its keys. -/
def limitField (body : List (String × Node)) : Except CompileError Limit :=
  match (body.lookup Wire.limit).or (body.lookup Wire.limitAlias) with
  | some value => limit value
  | none => .error (.missingField "ExploreRecursive" "limit" Wire.limit)

/-- The kind of selector that a key names, and the kind of its body. -/
def expectedBody? (key : String) : Option (String × Kind) :=
  if key = Wire.matcher then some ("Matcher", .map)
  else if key = Wire.all then some ("ExploreAll", .map)
  else if key = Wire.fields then some ("ExploreFields", .map)
  else if key = Wire.index then some ("ExploreIndex", .map)
  else if key = Wire.range then some ("ExploreRange", .map)
  else if key = Wire.union then some ("ExploreUnion", .list)
  else if key = Wire.recursive then some ("ExploreRecursive", .map)
  else if key = Wire.edge then some ("ExploreRecursiveEdge", .map)
  else none

def misplaced (key : String) (found : Kind) : CompileError :=
  match expectedBody? key with
  | some (selector, expected) => .invalidBody selector expected found
  | none => .unknownSelector key

mutual
/-- The selector written by a node; `inside` tells whether a recursion lies around it. -/
def selector (inside : Bool) : Node → Except CompileError Selector
  | .map [(key, .map body)] =>
    if key = Wire.matcher then .ok .matcher
    else if key = Wire.all then do
      let next ← field "ExploreAll" "next" Wire.next inside body
      return .all next
    else if key = Wire.fields then do
      let selections ← selectionsField inside body
      return .fields selections
    else if key = Wire.index then do
      let position ← naturalField "ExploreIndex" "index" Wire.position body
      let next ← field "ExploreIndex" "next" Wire.next inside body
      return .index position next
    else if key = Wire.range then do
      let start ← naturalField "ExploreRange" "start" Wire.start body
      let stop ← naturalField "ExploreRange" "end" Wire.stop body
      if stop ≤ start then throw (.emptyRange start stop)
      let next ← field "ExploreRange" "next" Wire.next inside body
      return .range start stop next
    else if key = Wire.recursive then do
      let limit ← limitField body
      let sequence ← field "ExploreRecursive" "sequence" Wire.sequence true body
      if sequence.hasOwnEdge then return .recursion limit sequence else throw .missingRecursiveEdge
    else if key = Wire.edge then
      if inside then .ok .edge else .error .edgeOutsideRecursion
    else .error (misplaced key .map)
  | .map [(key, .list items)] =>
    if key = Wire.union then
      if items.isEmpty then .error .emptyUnion
      else do
        let members ← members inside items
        return .union members
    else .error (misplaced key .list)
  | .map [(key, body)] => .error (misplaced key body.kind)
  | .map entries => .error (.notSingleEntry entries.length)
  | other => .error (.notAMap other.kind)

def field (kind name key : String) (inside : Bool) :
    List (String × Node) → Except CompileError Selector
  | [] => .error (.missingField kind name key)
  | (k, v) :: rest => if key = k then selector inside v else field kind name key inside rest

def selectionsField (inside : Bool) :
    List (String × Node) → Except CompileError (List (String × Selector))
  | [] => .error (.missingField "ExploreFields" "fields" Wire.selections)
  | (k, v) :: rest =>
    if Wire.selections = k then
      match v with
      | .map entries => selections inside [] entries
      | other => .error (.invalidFieldKind "ExploreFields" "fields" .map other.kind)
    else selectionsField inside rest

/-- The selections behind those with the names `seen`; `true` selects the field itself. -/
def selections (inside : Bool) (seen : List String) :
    List (String × Node) → Except CompileError (List (String × Selector))
  | [] => .ok []
  | (name, v) :: rest => do
    if seen.contains name then throw (.duplicateField name)
    let s ← match v with
      | .bool true => .ok .matcher
      | .map _ => selector inside v
      | other => .error (.invalidFieldValue name other.kind)
    let others ← selections inside (name :: seen) rest
    return (name, s) :: others

def members (inside : Bool) : List Node → Except CompileError (List Selector)
  | [] => .ok []
  | n :: rest => do
    let s ← selector inside n
    let others ← members inside rest
    return s :: others
end

end Compile

def compile (n : Node) : Except CompileError Selector := Compile.selector false n

end DagSelect
