import DagSelect.DagJson.Decode
import DagSelect.Proofs.Except
import DagSelect.Proofs.FreshKeys
import DagSelect.Proofs.Node.Everywhere

/-!
# What reading can give

A node that was read repeats no key, and none of its maps is the reserved form of a link or a byte
string, since a map with the reserved key alone is never left a map. This holds of every node that
some text denotes (`written_of_decode`), floats included.
-/

namespace DagSelect

namespace Node

/-- The node is no map whose only key is the reserved one. -/
def Unreserved (n : Node) : Prop := ∀ value, n ≠ .map [("/", value)]

instance : DecidablePred Unreserved := fun n =>
  match n with
  | .map [(k, v)] =>
    decidable_of_iff (k ≠ "/")
      ⟨fun h w heq => by cases heq; exact h rfl, fun h heq => by subst heq; exact h v rfl⟩
  | .map [] => isTrue fun _ => nofun
  | .map (_ :: _ :: _) => isTrue fun _ => nofun
  | .null | .bool _ | .int _ | .float _ | .string _ | .bytes _ | .link _ | .list _ =>
    isTrue fun _ => nofun

def NoneReserved (n : Node) : Prop := n.Everywhere Unreserved

instance (n : Node) : Decidable n.NoneReserved :=
  inferInstanceAs (Decidable (n.Everywhere Unreserved))

/-- What sets the nodes apart that are read from texts: keys differ, and the reserved key is never
alone. -/
def Written (n : Node) : Prop := n.Everywhere fun m => m.KeysDiffer ∧ m.Unreserved

theorem written_iff {n : Node} : n.Written ↔ n.DistinctKeys ∧ n.NoneReserved :=
  ⟨fun h => ⟨h.mono fun _ hm => hm.1, h.mono fun _ hm => hm.2⟩, fun h => h.1.and h.2⟩

theorem Written.scalar {n : Node} (hn : n.kind.isContainer = false) : n.Written := by
  refine (everywhere_iff_of_isContainer hn).2 ?_
  cases n with
  | map | list => cases hn
  | _ => exact ⟨trivial, fun _ => nofun⟩

theorem written_int (i : Int64) : (Node.int i).Written := .scalar rfl

theorem written_string (s : String) : (Node.string s).Written := .scalar rfl

theorem written_link (l : Link) : (Node.link l).Written := .scalar rfl

theorem written_map_iff {entries : List (String × Node)} :
    (Node.map entries).Written ↔ (entries.map Prod.fst).Nodup ∧ entries.map Prod.fst ≠ ["/"] ∧
      ∀ e ∈ entries, e.2.Written := by
  have hunreserved : (Node.map entries).Unreserved ↔ entries.map Prod.fst ≠ ["/"] := by
    constructor
    · intro h hkeys
      obtain ⟨⟨k, value⟩, rest, rfl, hk, hrest⟩ := List.map_eq_cons_iff.1 hkeys
      obtain rfl : k = "/" := hk
      obtain rfl := List.map_eq_nil_iff.1 hrest
      exact h value rfl
    · rintro h value ⟨⟩
      exact h rfl
  rw [Written, everywhere_map_iff, hunreserved, and_assoc]
  rfl

theorem written_list_iff {items : List Node} :
    (Node.list items).Written ↔ ∀ n ∈ items, n.Written := by
  rw [Written, everywhere_list_iff]
  exact and_iff_right ⟨trivial, fun _ => by rintro ⟨⟩⟩

end Node

namespace DagJson

open Node

theorem written_of_readNumber {text : List Char} {span : Json.Span} {n : Node}
    (h : readNumber text span = .ok n) : n.Written := by
  unfold readNumber at h
  split at h
  · cases h
    exact .scalar rfl
  · split at h
    · cases h
      exact .scalar rfl
    · cases h

theorem written_of_readReserved {span : Json.Span} {value n : Node}
    (h : readReserved span value = .ok n) : n.Written := by
  unfold readReserved at h
  split at h
  · cases h
    exact .scalar rfl
  · split at h
    · cases h
      exact .scalar rfl
    · cases h
  · cases h
  · cases h

/-- The reserved key alone makes no map, and any other entries make one with their keys. -/
theorem written_of_ofEntries {span : Json.Span} {entries : List (String × Node)} {n : Node}
    (h : ofEntries span entries = .ok n) (distinct : (entries.map Prod.fst).Nodup)
    (values : ∀ e ∈ entries, e.2.Written) : n.Written := by
  unfold ofEntries at h
  split at h
  · exact written_of_readReserved h
  · next hne =>
    cases h
    refine .map ⟨distinct, ?_⟩ values
    intro value heq
    exact hne value (by simpa using heq)

theorem readItems_eq_ok {items : List Json.Tree} {ns : List Node} (h : readItems items = .ok ns) :
    ∀ n ∈ ns, ∃ t ∈ items, readTree t = .ok n := by
  induction items generalizing ns with
  | nil =>
    cases h
    simp
  | cons t rest ih =>
    simp only [readItems, Except.bind_eq_ok_iff] at h
    obtain ⟨first, hfirst, others, hothers, hns⟩ := h
    cases hns
    intro n hn
    rcases List.mem_cons.1 hn with rfl | hn
    · exact ⟨t, by simp, hfirst⟩
    · obtain ⟨u, hu, hread⟩ := ih hothers n hn
      exact ⟨u, by simp [hu], hread⟩

theorem readEntries_eq_ok {entries : List (Json.Key × Json.Tree)} {seen : List String}
    {es : List (String × Node)} (h : readEntries seen entries = .ok es) :
    FreshKeys seen es ∧ ∀ e ∈ es, ∃ t ∈ entries, readTree t.2 = .ok e.2 := by
  induction entries generalizing seen es with
  | nil =>
    cases h
    exact ⟨freshKeys_nil seen, by simp⟩
  | cons entry rest ih =>
    obtain ⟨key, t⟩ := entry
    simp only [readEntries, Except.bind_eq_ok_iff] at h
    obtain ⟨k, -, h⟩ := h
    split at h
    · cases h
    · next hnew =>
      simp only [Except.bind_eq_ok_iff] at h
      obtain ⟨n, hn, others, hothers, hes⟩ := h
      cases hes
      obtain ⟨fresh, read⟩ := ih hothers
      have hk : k ∉ seen := by simpa using hnew
      constructor
      · exact freshKeys_cons_iff.2 ⟨hk, fresh⟩
      · intro e he
        rcases List.mem_cons.1 he with rfl | he
        · exact ⟨(key, t), by simp, hn⟩
        · obtain ⟨u, hu, hread⟩ := read e he
          exact ⟨u, by simp [hu], hread⟩

theorem written_of_readTree {t : Json.Tree} {n : Node} (h : readTree t = .ok n) : n.Written := by
  induction t generalizing n with
  | atom a span =>
    cases a with
    | null =>
      cases h
      exact .scalar rfl
    | bool b =>
      cases h
      exact .scalar rfl
    | number text => exact written_of_readNumber h
    | string literal =>
      obtain ⟨s, -, rfl⟩ := Except.map_eq_ok_iff.1 h
      exact .scalar rfl
  | array items span ih =>
    obtain ⟨ns, hns, rfl⟩ := Except.map_eq_ok_iff.1 h
    apply Everywhere.list ⟨trivial, fun _ => nofun⟩
    intro n hn
    obtain ⟨t, ht, hread⟩ := readItems_eq_ok hns n hn
    exact ih t ht hread
  | object entries span ih =>
    simp only [readTree, Except.bind_eq_ok_iff] at h
    obtain ⟨es, hes, hn⟩ := h
    obtain ⟨fresh, values⟩ := readEntries_eq_ok hes
    apply written_of_ofEntries hn fresh.1
    intro e he
    obtain ⟨t, ht, hread⟩ := values e he
    exact ih t ht hread

theorem written_of_decode {source : String} {n : Node} (h : decode source = .ok n) :
    n.Written := by
  simp only [decode] at h
  split at h
  · cases h
  · split at h
    · cases h
    · cases h
    · exact written_of_readTree h
    · cases h

end DagJson

end DagSelect
