import DagSelect.DagJson.Decode
import DagSelect.Proofs.Except
import DagSelect.Proofs.Json.Build

/-!
# Reading does not depend on places

The place of a part matters only for where a fault is reported. `outcome` is the result of reading
without that, and it is the same for a tree and for the tree without places; so two texts with the
tokens of one value have one outcome (`outcome_decode`).
-/

namespace DagSelect.DagJson

variable {α β : Type}

/-- The result of reading without the place of a fault. -/
def outcome (r : Except DecodeError α) : Except Fault α := r.mapError DecodeError.fault

theorem outcome_eq_ok_iff {r : Except DecodeError α} {a : α} : outcome r = .ok a ↔ r = .ok a :=
  Except.mapError_eq_ok_iff

theorem outcome_bind (r : Except DecodeError α) (f : α → Except DecodeError β) :
    outcome (r >>= f) = outcome r >>= fun a => outcome (f a) := by
  cases r <;> rfl

theorem outcome_map (r : Except DecodeError α) (f : α → β) :
    outcome (r.map f) = (outcome r).map f := by
  cases r <;> rfl

theorem outcome_readNumber (text : List Char) (span span' : Json.Span) :
    outcome (readNumber text span) = outcome (readNumber text span') := by
  unfold readNumber
  split
  · rfl
  · split <;> rfl

theorem outcome_readString (literal : List Char) (span span' : Json.Span) :
    outcome (readString literal span) = outcome (readString literal span') := by
  unfold readString
  split <;> rfl

theorem outcome_readReserved (span span' : Json.Span) (value : Node) :
    outcome (readReserved span value) = outcome (readReserved span' value) := by
  unfold readReserved
  split
  · rfl
  · split <;> rfl
  · rfl
  · rfl

theorem outcome_ofEntries (span span' : Json.Span) (entries : List (String × Node)) :
    outcome (ofEntries span entries) = outcome (ofEntries span' entries) := by
  unfold ofEntries
  split
  · exact outcome_readReserved span span' _
  · rfl

theorem outcome_readItems {items : List Json.Tree}
    (h : ∀ t ∈ items, outcome (readTree t) = outcome (readTree t.strip)) :
    outcome (readItems items) = outcome (readItems (Json.stripItems items)) := by
  induction items with
  | nil => rfl
  | cons t rest ih =>
    have hrest := ih fun x hx => h x (by simp [hx])
    rw [Json.stripItems, readItems, readItems, outcome_bind, outcome_bind, h t (by simp)]
    simp only [outcome_bind, hrest]

theorem outcome_readEntries {entries : List (Json.Key × Json.Tree)} (seen : List String)
    (h : ∀ e ∈ entries, outcome (readTree e.2) = outcome (readTree e.2.strip)) :
    outcome (readEntries seen entries) =
      outcome (readEntries seen (Json.stripEntries entries)) := by
  induction entries generalizing seen with
  | nil => rfl
  | cons e rest ih =>
    obtain ⟨key, t⟩ := e
    have hrest (seen : List String) := ih seen fun x hx => h x (by simp [hx])
    have ht : outcome (readTree t) = outcome (readTree t.strip) := h (key, t) (by simp)
    rw [Json.stripEntries, readEntries, readEntries, outcome_bind, outcome_bind,
      outcome_readString key.literal key.span default]
    congr 1
    funext k
    split
    · rfl
    · simp only [outcome_bind, ht, hrest]

theorem outcome_readTree (t : Json.Tree) : outcome (readTree t) = outcome (readTree t.strip) := by
  induction t with
  | atom a span =>
    cases a with
    | null => rfl
    | bool b => rfl
    | number text => exact outcome_readNumber text span default
    | string literal =>
      rw [Json.Tree.strip, readTree, readTree, outcome_map, outcome_map,
        outcome_readString literal span default]
  | array items span ih =>
    rw [Json.Tree.strip, readTree, readTree, outcome_map, outcome_map, outcome_readItems ih]
  | object entries span ih =>
    rw [Json.Tree.strip, readTree, readTree, outcome_bind, outcome_bind, outcome_readEntries [] ih]
    congr 1
    funext es
    exact outcome_ofEntries span default es

/-- A text that scans does not begin with a byte-order mark. -/
theorem dropMark_of_scans {text : List Char} {ts : List Json.Token}
    (h : Json.Scans .lenient text ts) : dropMark text = (0, text) := by
  unfold dropMark
  split
  · next rest =>
    have hstart : (Json.Scanner.ofOffset 0).Between [] := ⟨⟨0, rfl⟩, rfl⟩
    obtain ⟨r, hr, -⟩ := h hstart
    rw [Json.Scanner.run?_cons] at hr
    cases hr
  · rfl

/-- A text with the tokens of a value is read as the tree of that value. -/
theorem outcome_decode {source : String} {v : Json.Value}
    (h : Json.Scans .lenient source.toList v.tokens) :
    outcome (decode source) = outcome (readTree v.tree) := by
  obtain ⟨lexemes, hscan, htokens⟩ := h.scan? 0
  obtain ⟨t, ht, htree⟩ := Json.Value.trees?_tokens htokens
  rw [decode, dropMark_of_scans h]
  simp only [hscan, ht]
  rw [outcome_readTree, htree]

end DagSelect.DagJson
