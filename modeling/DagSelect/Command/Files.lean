/-! # Files

What a command needs of a file system is one function, from the name of a file to its text or the
reason why it cannot be had. `FileTree` is a file system held in memory: names are followed one
component at a time from its top, and a component of the name has to be a directory as soon as
anything follows it. Names may lead outside the tree, where there are no files, only directories
that can be passed by going up.
-/

namespace DagSelect

inductive ReadError where
  | notFound
  | isDirectory
  | notDirectory
  | nameTooLong
  | nulInName
  | notText
  | other (message : String)
deriving DecidableEq, Repr

def ReadError.message : ReadError → String
  | .notFound => "No such file or directory (os error 2)"
  | .isDirectory => "Is a directory (os error 21)"
  | .notDirectory => "Not a directory (os error 20)"
  | .nameTooLong => "File name too long (os error 36)"
  | .nulInName => "file name contained an unexpected NUL byte"
  | .notText => "stream did not contain valid UTF-8"
  | .other message => message

abbrev Reader := String → Except ReadError String

inductive FileEntry where
  | file (bytes : List UInt8)
  | directory
deriving DecidableEq, Repr

/-- Files and directories by the components of their names. The directories above an entry are there
without being listed. -/
structure FileTree where
  entries : List (List String × FileEntry)
deriving Repr

namespace FileTree

/-- The components of a name, the empty and the current ones included. -/
def components (name : String) : List String := (name.splitOn "/")

def ofList (entries : List (String × FileEntry)) : FileTree :=
  ⟨entries.map fun e => ((components e.1).filter fun c => c != "" && c != ".", e.2)⟩

/-- What stands at a place; of two entries for one place the later one counts. -/
def get? (t : FileTree) (place : List String) : Option FileEntry :=
  if place.isEmpty then some .directory
  else
    match t.entries.reverse.lookup place with
    | some entry => some entry
    | none => if t.entries.any fun e => place.isPrefixOf e.1 then some .directory else none

/-- The longest name of one component, in bytes. -/
def maxComponent : Nat := 255

/-- The longest name as a whole, in bytes. -/
def maxName : Nat := 4095

/-- The place that a component leads to; what lies above the top or beside it is outside. -/
def step (t : FileTree) (place : Option (List String)) (c : String) :
    Except ReadError (Option (List String)) :=
  if c = "" ∨ c = "." then .ok place
  else if c = ".." then
    .ok (place.bind fun names => if names.isEmpty then none else some names.dropLast)
  else if maxComponent < c.utf8ByteSize then .error .nameTooLong
  else
    match place.map (· ++ [c]) with
    | none => .error .notFound
    | some names => if (t.get? names).isSome then .ok (some names) else .error .notFound

/-- What stands at a place; outside there are directories only. -/
def entryAt (t : FileTree) (place : Option (List String)) : FileEntry :=
  (place.bind t.get?).getD .directory

/-- Follows components from a place, which has to be a directory as long as any are left. -/
def follow (t : FileTree) : Option (List String) → List String → Except ReadError FileEntry
  | place, [] => .ok (t.entryAt place)
  | place, c :: rest =>
    match t.entryAt place with
    | .file _ => .error .notDirectory
    | .directory => do t.follow (← t.step place c) rest

/-- What stands under a name; one that begins with a slash begins outside. -/
def find (t : FileTree) (name : String) : Except ReadError FileEntry :=
  if name.toList.contains '\x00' then .error .nulInName
  else if name.isEmpty then .error .notFound
  else if maxName < name.utf8ByteSize then .error .nameTooLong
  else t.follow (if name.startsWith "/" then none else some []) (components name)

def read (t : FileTree) : Reader := fun name => do
  match ← t.find name with
  | .directory => .error .isDirectory
  | .file bytes =>
    match String.fromUTF8? ⟨bytes.toArray⟩ with
    | some text => .ok text
    | none => .error .notText

end FileTree

end DagSelect
