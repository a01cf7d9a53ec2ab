import DagSelect.Proofs.DagJson.Floats
import DagSelect.Proofs.Json.SpreadFloats

/-!
# The two texts of a node

Every node has two texts, and reading makes no difference between them. They have the same tokens,
unless a large float in the node makes both unreadable. So they denote one node, or they are refused
for one reason (`decode_encodePretty`). This is so of all nodes, whether or not either text denotes
the node that it was written for.
-/

namespace DagSelect.DagJson

open Node

/-- One result, or one fault, perhaps at different places. -/
theorem ok_or_error_of_outcome_eq {α : Type} {r r' : Except DecodeError α}
    (h : outcome r = outcome r') :
    (∃ a, r = .ok a ∧ r' = .ok a) ∨ ∃ e e', r = .error e ∧ r' = .error e' ∧ e.fault = e'.fault := by
  cases r with
  | ok a => exact .inl ⟨a, rfl, outcome_eq_ok_iff.1 h.symm⟩
  | error e =>
    cases r' with
    | ok a => cases h
    | error e' => exact .inr ⟨e, e', rfl, rfl, Except.error.inj h⟩

/-- The spread text of a value does not begin with a byte-order mark. -/
theorem dropMark_spread (v : Json.Value) : dropMark (v.spread 0 []) = (0, v.spread 0 []) := by
  cases v with
  | array items => cases items <;> exact dropMark_cons (by decide) _
  | object entries => cases entries <;> exact dropMark_cons (by decide) _
  | null => exact dropMark_compact .null
  | bool b => exact dropMark_compact (.bool b)
  | int i => exact dropMark_compact (.int i)
  | float x => exact dropMark_compact (.float x)
  | string s => exact dropMark_compact (.string s)

theorem decode_encodePretty_of_large {n : Node} (h : ¬ n.EveryFloat fun x => ¬ x.IsLarge) :
    decode (encodePretty n) = .error ⟨.grammar, none⟩ := by
  apply decode_of_breaks
  · rw [encodePretty, Json.Value.pretty, String.toList_ofList]
    exact dropMark_spread (toJson n)
  · rw [encodePretty, Json.Value.pretty, String.toList_ofList]
    exact Json.Value.breaks_spread (fun hsmall => h (everyFloat_of_toJson hsmall)) 0

theorem outcome_decode_encodePretty (n : Node) :
    outcome (decode (encode n)) = outcome (decode (encodePretty n)) := by
  by_cases h : n.EveryFloat fun x => ¬ x.IsLarge
  · have hscans := h.imp fun x => Json.Value.scans_floatText (x := x)
    rw [outcome_decode_encode hscans, outcome_decode (scans_encodePretty hscans)]
  · rw [decode_encode_of_large h, decode_encodePretty_of_large h]

/-- The compact and the spread text of a node are read as one node, or refused with one message. -/
theorem decode_encodePretty (n : Node) :
    (∃ m, decode (encode n) = .ok m ∧ decode (encodePretty n) = .ok m) ∨
      ∃ e e', decode (encode n) = .error e ∧ decode (encodePretty n) = .error e' ∧
        e.message = e'.message := by
  rcases ok_or_error_of_outcome_eq (outcome_decode_encodePretty n) with h | ⟨e, e', he, he', hfault⟩
  · exact .inl h
  · exact .inr ⟨e, e', he, he', congrArg Fault.message hfault⟩

end DagSelect.DagJson
