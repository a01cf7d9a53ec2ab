import DagSelect.DagJson.Decode

/-!
# One error at most

A reader may keep a list of errors and return nothing when it meets one: it adds the error to the
list, and whoever called it and is given nothing returns nothing too. Nothing in this keeps it from
returning nothing without an error, or from leaving several behind. `gather` reads that way, and
gives what `decode` gives, a node with no error or a single error (`gather_eq`).
-/

namespace DagSelect.DagJson

/-- What may return nothing, and keeps the errors met so far. -/
abbrev Gather := OptionT (StateM (List DecodeError))

namespace Gather

variable {α β : Type}

def push (e : DecodeError) : Gather α := do
  modify (· ++ [e])
  failure

def report : Except DecodeError α → Gather α
  | .ok a => pure a
  | .error e => push e

theorem report_bind (r : Except DecodeError α) (f : α → Except DecodeError β) :
    report (r >>= f) = report r >>= fun a => report (f a) := by
  cases r <;> rfl

theorem report_map (r : Except DecodeError α) (f : α → β) : report (r.map f) = f <$> report r := by
  cases r <;> rfl

end Gather

open Gather

mutual
def gatherTree : Json.Tree → Gather Node
  | .atom .null _ => pure .null
  | .atom (.bool b) _ => pure (.bool b)
  | .atom (.number text) span => report (readNumber text span)
  | .atom (.string literal) span => .string <$> report (readString literal span)
  | .array items _ => .list <$> gatherItems items
  | .object entries span => do
    let entries ← gatherEntries [] entries
    report (ofEntries span entries)

def gatherItems : List Json.Tree → Gather (List Node)
  | [] => pure []
  | t :: rest => do
    let n ← gatherTree t
    let ns ← gatherItems rest
    return n :: ns

def gatherEntries (seen : List String) :
    List (Json.Key × Json.Tree) → Gather (List (String × Node))
  | [] => pure []
  | (key, t) :: rest => do
    let k ← report (readString key.literal key.span)
    if seen.contains k then push ⟨.duplicateKey k, some key.span⟩
    let n ← gatherTree t
    let ns ← gatherEntries (k :: seen) rest
    return (k, n) :: ns
end

theorem gatherItems_eq {items : List Json.Tree}
    (h : ∀ t ∈ items, gatherTree t = report (readTree t)) :
    gatherItems items = report (readItems items) := by
  induction items with
  | nil => rfl
  | cons t rest ih =>
    obtain ⟨ht, hrest⟩ := List.forall_mem_cons.1 h
    rw [gatherItems, readItems, report_bind, ht, ih hrest]
    simp only [report_bind]
    rfl

theorem gatherEntries_eq {entries : List (Json.Key × Json.Tree)}
    (h : ∀ e ∈ entries, gatherTree e.2 = report (readTree e.2)) (seen : List String) :
    gatherEntries seen entries = report (readEntries seen entries) := by
  induction entries generalizing seen with
  | nil => rfl
  | cons e rest ih =>
    obtain ⟨key, t⟩ := e
    obtain ⟨ht, hrest⟩ := List.forall_mem_cons.1 h
    rw [gatherEntries, readEntries, report_bind]
    congr 1
    funext k
    split
    · rfl
    · rw [ht]
      simp only [report_bind, ih hrest]
      rfl

theorem gatherTree_eq (t : Json.Tree) : gatherTree t = report (readTree t) := by
  induction t with
  | atom a span =>
    cases a with
    | null | bool b => rfl
    | number text => rfl
    | string literal => rw [gatherTree, readTree, report_map]
  | array items span ih => rw [gatherTree, readTree, report_map, gatherItems_eq ih]
  | object entries span ih =>
    rw [gatherTree, readTree, report_bind, gatherEntries_eq ih]

/-- What a reader of texts that keeps a list of errors returns, and the errors it leaves. -/
def gather (source : String) : Option Node × List DecodeError :=
  let (offset, text) := dropMark source.toList
  match Json.scan? .lenient offset text with
  | none => push ⟨.grammar, none⟩ []
  | some lexemes =>
    match Json.trees? lexemes with
    | none => push ⟨.grammar, none⟩ []
    | some [] => push ⟨.empty, some (emptySpan lexemes source.utf8ByteSize)⟩ []
    | some [t] => gatherTree t []
    | some (_ :: extra :: _) => push ⟨.trailing, some extra.span⟩ []

theorem gather_eq (source : String) : gather source = report (decode source) [] := by
  unfold gather decode
  dsimp only
  cases Json.scan? .lenient (dropMark source.toList).1 (dropMark source.toList).2 with
  | none => rfl
  | some lexemes =>
    dsimp only
    cases Json.trees? lexemes with
    | none => rfl
    | some ts =>
      match ts with
      | [] => rfl
      | [t] => exact congrFun (gatherTree_eq t) []
      | _ :: extra :: _ => rfl

/-- There is a node and no error, or a single error and no node. -/
theorem gather_cases (source : String) :
    (∃ n, decode source = .ok n ∧ gather source = (some n, [])) ∨
      ∃ e, decode source = .error e ∧ gather source = (none, [e]) := by
  rw [gather_eq]
  cases decode source with
  | ok n => exact .inl ⟨n, rfl, rfl⟩
  | error e => exact .inr ⟨e, rfl, rfl⟩

end DagSelect.DagJson
