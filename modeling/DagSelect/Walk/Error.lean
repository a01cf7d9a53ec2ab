import DagSelect.Walk.Progress
import DagSelect.Walk.Budget

/-! # Failures of a walk

Why a link does not lead to a block, and why a walk ends before its time. Each failure has a
message, and a list of the messages of what lies behind it, the nearest cause first.
-/

namespace DagSelect

inductive LoadError where
  | notFound (link : Link)
  /-- Not a failure: the branch is left out. -/
  | skip
  | decode (link : Link) (message : String)
  | read (link : Link) (cause : String)
deriving DecidableEq, Repr

namespace LoadError

def message : LoadError → String
  | .notFound link => "block " ++ link.text ++ " not found"
  | .skip => "block skipped"
  | .decode link message => "failed to decode block " ++ link.text ++ ": " ++ message
  | .read link _ => "failed to read block " ++ link.text

def chain (e : LoadError) : List String :=
  match e with
  | .read _ cause => [e.message, cause]
  | _ => [e.message]

end LoadError

inductive WalkError where
  | load (link : Link) (path : Path) (source : LoadError)
  | budgetExceeded (resource : Resource) (path : Path) (link : Option Link)
  | pathNotFound (path : Path)
  /-- The visitor has seen enough. -/
  | stopped
  /-- The visitor failed. -/
  | visitor (message : String)
deriving DecidableEq, Repr

namespace WalkError

def message : WalkError → String
  | .load link path _ => "failed to load " ++ link.text ++ " at \"" ++ path.text ++ "\""
  | .budgetExceeded resource path _ =>
    resource.name ++ " budget exceeded at \"" ++ path.text ++ "\""
  | .pathNotFound path => "no node at \"" ++ path.text ++ "\""
  | .stopped => "walk stopped"
  | .visitor message => message

/-- The messages of what lies behind a failure. -/
def causes : WalkError → List String
  | .load _ _ source => source.chain
  | _ => []

end WalkError

end DagSelect
