import DagSelect.DagJson.Decode
import DagSelect.Selector.Compile

/-! # Selectors in texts

The text of a selector is read in two steps, each of which may refuse it: as a node, and then as the
written form of a selector.
-/

namespace DagSelect

inductive TextError where
  | decode (error : DagJson.DecodeError)
  | compile (error : CompileError)
deriving DecidableEq, Repr

def TextError.message : TextError → String
  | .decode error => error.message
  | .compile error => error.message

def compileText (source : String) : Except TextError Selector :=
  match DagJson.decode source with
  | .error e => .error (.decode e)
  | .ok n =>
    match compile n with
    | .error e => .error (.compile e)
    | .ok s => .ok s

end DagSelect
