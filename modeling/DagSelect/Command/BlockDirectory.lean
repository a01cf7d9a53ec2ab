import DagSelect.Command.Files
import DagSelect.DagJson.Decode
import DagSelect.Walk.Config

/-! # Blocks in a directory

The block behind a link is the file in a directory that is named after it. A link that could lead
out of the directory, or to a hidden file, leads nowhere.
-/

namespace DagSelect.BlockDirectory

/-- Whether the text of a link can be the name of a file in the directory. -/
def isName (link : Link) : Bool :=
  !link.text.isEmpty && !link.text.toList.contains '/' && !link.text.toList.contains '\\' &&
    !link.text.startsWith "."

def join (directory name : String) : String :=
  if directory.isEmpty || directory.endsWith "/" then directory ++ name
  else directory ++ "/" ++ name

def fileName (directory : String) (link : Link) : String := join directory (link.text ++ ".json")

/-- The loader that reads blocks from a directory. Only a file that is not there counts as a missing
block. -/
def loader (read : Reader) (directory : String) : Loader := fun link _ =>
  if isName link then
    match read (fileName directory link) with
    | .error .notFound => .error (.notFound link)
    | .error cause => .error (.read link cause.message)
    | .ok source =>
      match DagJson.decode source with
      | .ok n => .ok n
      | .error e => .error (.decode link e.message)
  else .error (.notFound link)

end DagSelect.BlockDirectory
