import DagSelect.Proofs.DagJson.Floats
import DagSelect.Proofs.Json.OneLine

/-!
# Plain values read as nodes

The text of a plain value is read as a node if everything in it that has the reserved form is a link
or a byte string. A large double makes the text unreadable, and one that is not finite is written as
null. So the floats of a node that was read from such a text are moderate, and it can be written and
read again as often as one likes (`IsRepeatable`).
-/

namespace DagSelect

namespace Node

/-- The node can be written and read back: it is one that texts denote, and its floats are
moderate. -/
def IsRepeatable (n : Node) : Prop := n.Written ∧ n.EveryFloat Binary64.IsModerate

theorem isRepeatable_iff {n : Node} :
    n.IsRepeatable ↔ n.Everywhere fun m =>
      (m.KeysDiffer ∧ m.Unreserved) ∧ ∀ x, m = .float x → Binary64.IsModerate x :=
  ⟨fun h => h.1.and h.2, fun h => ⟨h.mono fun _ hm => hm.1, h.mono fun _ hm => hm.2⟩⟩

theorem FloatFree.isRepeatable {n : Node} (hn : n.FloatFree) (hwritten : n.Written) :
    n.IsRepeatable :=
  ⟨hwritten, hn.everyFloat.imp fun _ => False.elim⟩

theorem isRepeatable_string (s : String) : (Node.string s).IsRepeatable :=
  ⟨written_string s, .leaf rfl (by rintro ⟨⟩)⟩

theorem IsRepeatable.map {entries : List (String × Node)} (distinct : (entries.map Prod.fst).Nodup)
    (unreserved : entries.map Prod.fst ≠ ["/"]) (values : ∀ e ∈ entries, e.2.IsRepeatable) :
    (Node.map entries).IsRepeatable :=
  ⟨written_map_iff.2 ⟨distinct, unreserved, fun e he => (values e he).1⟩,
    .map fun e he => (values e he).2⟩

end Node

namespace DagJson

open Node

/-! ## Written again -/

theorem decode_append_of_isRepeatable {n : Node} (hn : n.IsRepeatable) {blanks : String}
    (hblanks : ∀ c ∈ blanks.toList, c = ' ' ∨ c = '\n') : decode (encode n ++ blanks) = .ok n :=
  (decode_append (fun _ hx => Json.Value.scans_floatText (Binary64.isModerate_iff.1 hx).2)
    (fun _ hx => readTree_float hx.1) hn.1 hn.2 hblanks).1

theorem newline_notMem_encode (n : Node) : '\n' ∉ (encode n).toList := by
  have hfloats : (toJson n).EveryFloat fun x => '\n' ∉ Json.Value.floatText x :=
    everyFloat_toJson ((Node.everywhere_of_step (P := fun _ => True) (fun _ _ => trivial) n).mono
      fun _ _ x _ => Json.Value.newline_notMem_floatText x)
  rw [encode, Json.Value.text, String.toList_ofList]
  exact Json.Value.oneLine_compact hfloats [] List.not_mem_nil

/-! ## What is read of plain values -/

variable {P : Binary64 → Prop}

theorem everyFloat_of_readReserved {span : Json.Span} {value n : Node}
    (h : readReserved span value = .ok n) : n.EveryFloat P := by
  unfold readReserved at h
  split at h
  · cases h
    exact .leaf rfl (by rintro ⟨⟩)
  · split at h
    · cases h
      exact .leaf rfl (by rintro ⟨⟩)
    · cases h
  · cases h
  · cases h

theorem everyFloat_of_ofEntries {span : Json.Span} {entries : List (String × Node)} {n : Node}
    (h : ofEntries span entries = .ok n) (values : ∀ e ∈ entries, e.2.EveryFloat P) :
    n.EveryFloat P := by
  unfold ofEntries at h
  split at h
  · exact everyFloat_of_readReserved h
  · cases h
    exact .map values

/-- A float in what is read of a value is a double of the value, and it is finite. -/
theorem everyFloat_of_readTree {v : Json.Value} (hv : v.EveryFloat P) {n : Node}
    (h : readTree v.tree = .ok n) : n.EveryFloat fun x => x.isFinite = true ∧ P x := by
  induction v generalizing n with
  | null | bool b =>
    cases h
    exact .leaf rfl (by rintro ⟨⟩)
  | int i =>
    rw [Json.Value.tree, readTree, readNumber, any_mark_ofInt] at h
    cases hi : Text.toInt64 (Text.ofInt i) with
    | ok j =>
      rw [hi] at h
      cases h
      exact .leaf rfl (by rintro ⟨⟩)
    | error e =>
      rw [hi] at h
      cases h
  | float x =>
    by_cases hfinite : x.isFinite = true
    · rw [readTree_float hfinite] at h
      cases h
      cases hv with
      | float hx => exact .float ⟨hfinite, hx⟩
    · rw [readTree_float_of_not_finite hfinite] at h
      cases h
      exact .leaf rfl (by rintro ⟨⟩)
  | string s =>
    rw [Json.Value.tree, readTree, readString_writeLiteral] at h
    cases h
    exact .leaf rfl (by rintro ⟨⟩)
  | array items ih =>
    cases hv with
    | array hitems =>
      obtain ⟨ns, hns, rfl⟩ := Except.map_eq_ok_iff.1 h
      refine .list fun m hm => ?_
      obtain ⟨t, ht, hread⟩ := readItems_eq_ok hns m hm
      rw [Json.Value.itemsTree_eq_map] at ht
      obtain ⟨v, hv, rfl⟩ := List.mem_map.1 ht
      exact ih v hv (hitems v hv) hread
  | object entries ih =>
    cases hv with
    | object hentries =>
      simp only [Json.Value.tree, readTree, Except.bind_eq_ok_iff] at h
      obtain ⟨es, hes, hn⟩ := h
      refine everyFloat_of_ofEntries hn fun f hf => ?_
      obtain ⟨t, ht, hread⟩ := (readEntries_eq_ok hes).2 f hf
      rw [Json.Value.entriesTree_eq_map] at ht
      obtain ⟨e, he, rfl⟩ := List.mem_map.1 ht
      exact ih e he (hentries e he) hread

/-- What is read of the text of a plain value can be written and read again. -/
theorem isRepeatable_of_decode_text {v : Json.Value} {n : Node} (h : decode v.text = .ok n) :
    n.IsRepeatable := by
  refine ⟨written_of_decode h, ?_⟩
  have hsmall : v.EveryFloat fun x => ¬ x.IsLarge := by
    by_contra hlarge
    rw [decode_text_of_large hlarge] at h
    cases h
  have hscans : Json.Scans .lenient v.text.toList v.tokens := by
    rw [Json.Value.text, String.toList_ofList]
    exact Json.Value.scans_compact (hsmall.mono fun _ => Json.Value.scans_floatText)
  have htree : readTree v.tree = .ok n := by
    rw [← outcome_eq_ok_iff, ← outcome_decode hscans, outcome_eq_ok_iff, h]
  exact (everyFloat_of_readTree hsmall htree).imp fun x hx => Binary64.isModerate_iff.2 hx

end DagJson

end DagSelect
