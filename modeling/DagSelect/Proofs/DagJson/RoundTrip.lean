import DagSelect.DagJson.Encode
import DagSelect.Proofs.Base64
import DagSelect.Proofs.DagJson.Image
import DagSelect.Proofs.DagJson.Outcome
import DagSelect.Proofs.Json.Spread

/-!
# Nodes read back from their text

A node without floats is read back from its text exactly when its keys differ and the reserved key
is never alone in a map. One direction is the image of reading; for the other the node is followed
through its tree, where links and byte strings come back from the reserved form and no map is taken
for one.
-/

namespace DagSelect

namespace Node

def EveryFloat (P : Binary64 → Prop) (n : Node) : Prop :=
  n.Everywhere fun m => ∀ x, m = .float x → P x

instance {P : Binary64 → Prop} [DecidablePred P] (n : Node) : Decidable (n.EveryFloat P) :=
  haveI : DecidablePred fun m : Node => ∀ x, m = .float x → P x := fun m =>
    match m with
    | .float x => decidable_of_iff (P x) ⟨fun h _ hx => Node.float.inj hx ▸ h, fun h => h x rfl⟩
    | .null | .bool _ | .int _ | .string _ | .bytes _ | .link _ | .map _ | .list _ => isTrue nofun
  inferInstanceAs (Decidable (n.Everywhere fun m => ∀ x, m = .float x → P x))

theorem EveryFloat.float {P : Binary64 → Prop} {x : Binary64} (h : P x) :
    (Node.float x).EveryFloat P := by
  apply Everywhere.leaf rfl
  intro y hy
  obtain rfl := Node.float.inj hy
  exact h

theorem EveryFloat.leaf {P : Binary64 → Prop} {n : Node} (hn : n.children = [])
    (hkind : n.kind ≠ .float) : n.EveryFloat P := by
  apply Everywhere.leaf hn
  rintro x rfl
  exact absurd rfl hkind

theorem EveryFloat.map {P : Binary64 → Prop} {entries : List (String × Node)}
    (h : ∀ e ∈ entries, e.2.EveryFloat P) : (Node.map entries).EveryFloat P := by
  apply Everywhere.map _ h
  rintro x ⟨⟩

theorem EveryFloat.list {P : Binary64 → Prop} {items : List Node}
    (h : ∀ n ∈ items, n.EveryFloat P) : (Node.list items).EveryFloat P := by
  apply Everywhere.list _ h
  rintro x ⟨⟩

theorem EveryFloat.imp {P Q : Binary64 → Prop} {n : Node} (h : n.EveryFloat P)
    (himp : ∀ x, P x → Q x) : n.EveryFloat Q :=
  Everywhere.mono (fun _ hm x hx => himp x (hm x hx)) h

def FloatFree (n : Node) : Prop := n.Everywhere fun m => m.kind ≠ .float

instance (n : Node) : Decidable n.FloatFree :=
  inferInstanceAs (Decidable (n.Everywhere fun m => m.kind ≠ .float))

theorem floatFree_map_iff {entries : List (String × Node)} :
    (Node.map entries).FloatFree ↔ ∀ e ∈ entries, e.2.FloatFree := by
  rw [FloatFree, everywhere_map_iff]
  exact and_iff_right (by rintro ⟨⟩)

theorem floatFree_list_iff {items : List Node} :
    (Node.list items).FloatFree ↔ ∀ n ∈ items, n.FloatFree := by
  rw [FloatFree, everywhere_list_iff]
  exact and_iff_right (by rintro ⟨⟩)

theorem floatFree_string (s : String) : (Node.string s).FloatFree := .leaf rfl (by rintro ⟨⟩)

theorem floatFree_link (l : Link) : (Node.link l).FloatFree := .leaf rfl (by rintro ⟨⟩)

theorem floatFree_int (i : Int64) : (Node.int i).FloatFree := .leaf rfl (by rintro ⟨⟩)

theorem FloatFree.everyFloat {n : Node} (h : n.FloatFree) : n.EveryFloat fun _ => False := by
  apply h.mono
  rintro m hm x rfl
  exact hm rfl

end Node

namespace DagJson

open Node

theorem everyFloat_toJson {P : Binary64 → Prop} {n : Node} (h : n.EveryFloat P) :
    (toJson n).EveryFloat P := by
  induction n with
  | null => exact .null
  | bool b => exact .bool
  | int i => exact .int
  | float x => exact .float (h.here x rfl)
  | string s => exact .string
  | bytes b =>
    apply Json.Value.EveryFloat.object
    intro e he
    obtain rfl := List.mem_singleton.1 he
    apply Json.Value.EveryFloat.object
    intro f hf
    obtain rfl := List.mem_singleton.1 hf
    exact .string
  | link l =>
    apply Json.Value.EveryFloat.object
    intro e he
    obtain rfl := List.mem_singleton.1 he
    exact .string
  | map entries ih =>
    rw [toJson, entriesToJson_eq_map]
    apply Json.Value.EveryFloat.object
    intro e he
    obtain ⟨f, hf, rfl⟩ := List.mem_map.1 he
    exact ih f hf ((everywhere_map_iff.1 h).2 f hf)
  | list items ih =>
    rw [toJson, itemsToJson_eq_map]
    apply Json.Value.EveryFloat.array
    intro v hv
    obtain ⟨m, hm, rfl⟩ := List.mem_map.1 hv
    exact ih m hm ((everywhere_list_iff.1 h).2 m hm)

/-! ## Scalars -/

/-- Nothing in the text of an integer makes a float of it. -/
theorem any_mark_ofInt (i : Int) :
    ((Text.ofInt i).any fun c => c == '.' || c == 'e' || c == 'E') = false := by
  rw [List.any_eq_false]
  intro c hc
  rcases Text.mem_ofInt hc with rfl | hdigit
  · decide
  · have hdigits : ∀ k < 10, ¬(Nat.digitChar k == '.' || Nat.digitChar k == 'e' ||
        Nat.digitChar k == 'E') = true := by decide
    obtain ⟨k, hk, rfl⟩ := Json.exists_digitChar hdigit
    exact hdigits k hk

theorem readNumber_ofInt (i : Int64) (span : Json.Span) :
    readNumber (Text.ofInt i.toInt) span = .ok (.int i) := by
  rw [readNumber, any_mark_ofInt, Text.toInt64_ofInt_toInt]
  rfl

theorem readString_writeLiteral (s : String) (span : Json.Span) :
    readString (Json.writeLiteral s.toList) span = .ok s := by
  rw [readString, Json.readLiteral_writeLiteral, String.ofList_toList]

theorem readTree_string (s : String) : readTree (toJson (.string s)).tree = .ok (.string s) := by
  rw [toJson, Json.Value.tree, readTree, readString_writeLiteral]
  rfl

/-! ## Entries -/

theorem readEntries_entriesTree {entries : List (String × Node)} {seen : List String}
    (fresh : FreshKeys seen entries) (h : ∀ e ∈ entries, readTree (toJson e.2).tree = .ok e.2) :
    readEntries seen (Json.Value.entriesTree (entriesToJson entries)) = .ok entries := by
  induction entries generalizing seen with
  | nil => rfl
  | cons e rest ih =>
    obtain ⟨k, n⟩ := e
    obtain ⟨hnew, fresh⟩ := freshKeys_cons_iff.1 fresh
    have hseen : seen.contains k = false := by
      rw [List.contains_eq_mem, decide_eq_false hnew]
    have hrest : readEntries (k :: seen) (Json.Value.entriesTree (entriesToJson rest)) = .ok rest :=
      ih fresh fun f hf => h f (List.mem_cons_of_mem _ hf)
    have hn : readTree (toJson n).tree = .ok n := h (k, n) (by simp)
    rw [entriesToJson, Json.Value.entriesTree, readEntries, readString_writeLiteral]
    refine (if_neg (Bool.eq_false_iff.1 hseen)).trans ?_
    exact Except.bind_eq_ok_iff.2 ⟨n, hn, Except.bind_eq_ok_iff.2 ⟨rest, hrest, rfl⟩⟩

theorem readEntries_singleton (k : String) {n : Node} (h : readTree (toJson n).tree = .ok n) :
    readEntries [] (Json.Value.entriesTree (entriesToJson [(k, n)])) = .ok [(k, n)] := by
  apply readEntries_entriesTree (freshKeys_of_nodup (by simp))
  intro e he
  obtain rfl := List.mem_singleton.1 he
  exact h

theorem readItems_itemsTree {items : List Node}
    (h : ∀ n ∈ items, readTree (toJson n).tree = .ok n) :
    readItems (Json.Value.itemsTree (itemsToJson items)) = .ok items := by
  induction items with
  | nil => rfl
  | cons n rest ih =>
    rw [itemsToJson, Json.Value.itemsTree, readItems, h n (by simp),
      ih fun m hm => h m (by simp [hm])]
    rfl

theorem ofEntries_of_unreserved {entries : List (String × Node)} (h : (Node.map entries).Unreserved)
    (span : Json.Span) : ofEntries span entries = .ok (.map entries) := by
  unfold ofEntries
  split
  · next value => exact absurd rfl (h value)
  · rfl

theorem readTree_toJson {P : Binary64 → Prop}
    (hfloat : ∀ x, P x → readTree (Json.Value.tree (.float x)) = .ok (.float x)) {n : Node}
    (hwritten : n.Written) (hn : n.EveryFloat P) : readTree (toJson n).tree = .ok n := by
  induction n with
  | null => rfl
  | bool b => rfl
  | int i => exact readNumber_ofInt i default
  | float x => exact hfloat x (hn.here x rfl)
  | string s => exact readTree_string s
  | bytes b =>
    let text : String := String.ofList (Base64.encode b)
    have hbody : readTree (toJson (.map [("bytes", .string text)])).tree =
        .ok (.map [("bytes", .string text)]) := by
      have hentries := readEntries_singleton "bytes" (readTree_string text)
      rw [toJson, Json.Value.tree, readTree, hentries]
      rfl
    have hentries := readEntries_singleton "/" hbody
    rw [toJson, Json.Value.tree, readTree]
    refine Except.bind_eq_ok_iff.2 ⟨_, hentries, ?_⟩
    have hreserved : readReserved default (.map [("bytes", .string text)]) = .ok (.bytes b) := by
      rw [readReserved, Base64.decode_bytes_encode]
    exact hreserved
  | link l =>
    have hentries := readEntries_singleton "/" (readTree_string l.text)
    rw [toJson, Json.Value.tree, readTree]
    exact Except.bind_eq_ok_iff.2 ⟨_, hentries, rfl⟩
  | map entries ih =>
    obtain ⟨⟨distinct, unreserved⟩, hvalues⟩ := everywhere_map_iff.1 hwritten
    obtain ⟨-, hfloats⟩ := everywhere_map_iff.1 hn
    have hentries := readEntries_entriesTree (freshKeys_of_nodup distinct)
      fun e he => ih e he (hvalues e he) (hfloats e he)
    rw [toJson, Json.Value.tree, readTree, hentries]
    exact ofEntries_of_unreserved unreserved default
  | list items ih =>
    have hitems := readItems_itemsTree fun m hm =>
      ih m hm ((everywhere_list_iff.1 hwritten).2 m hm) ((everywhere_list_iff.1 hn).2 m hm)
    rw [toJson, Json.Value.tree, readTree, hitems]
    rfl

/-! ## The round trip -/

section

variable {n : Node} (h : n.EveryFloat fun x =>
  Json.Scans .lenient (Json.Value.floatText x) [.atom (Json.Value.floatAtom x)])

include h

theorem scans_encode : Json.Scans .lenient (encode n).toList (toJson n).tokens := by
  rw [encode, Json.Value.text, String.toList_ofList]
  exact Json.Value.scans_compact (everyFloat_toJson h)

theorem scans_encodePretty : Json.Scans .lenient (encodePretty n).toList (toJson n).tokens := by
  rw [encodePretty, Json.Value.pretty, String.toList_ofList]
  exact Json.Value.scans_spread (everyFloat_toJson h) 0

/-- A node of which every float is one token is read back as its tree is. -/
theorem outcome_decode_encode :
    outcome (decode (encode n)) = outcome (readTree (toJson n).tree) :=
  outcome_decode (scans_encode h)

end

/-- Every text with the tokens of a node is read as the node. -/
theorem decode_of_scans {P : Binary64 → Prop}
    (hfloat : ∀ x, P x → readTree (Json.Value.tree (.float x)) = .ok (.float x)) {n : Node}
    (hwritten : n.Written) (hn : n.EveryFloat P) {source : String}
    (h : Json.Scans .lenient source.toList (toJson n).tokens) : decode source = .ok n := by
  rw [← outcome_eq_ok_iff, outcome_decode h, outcome_eq_ok_iff]
  exact readTree_toJson hfloat hwritten hn

/-- What is assumed of the floats is that their text is one token which is read as the float. -/
theorem decode_encode {P : Binary64 → Prop}
    (hscan : ∀ x, P x → Json.Scans .lenient (Json.Value.floatText x)
      [.atom (Json.Value.floatAtom x)])
    (hfloat : ∀ x, P x → readTree (Json.Value.tree (.float x)) = .ok (.float x)) {n : Node}
    (hwritten : n.Written) (hn : n.EveryFloat P) : decode (encode n) = .ok n :=
  decode_of_scans hfloat hwritten hn (scans_encode (hn.imp hscan))

/-- A node is then read back from either of its texts, whatever blanks come behind it. -/
theorem decode_append {P : Binary64 → Prop}
    (hscan : ∀ x, P x → Json.Scans .lenient (Json.Value.floatText x)
      [.atom (Json.Value.floatAtom x)])
    (hfloat : ∀ x, P x → readTree (Json.Value.tree (.float x)) = .ok (.float x)) {n : Node}
    (hwritten : n.Written) (hn : n.EveryFloat P) {blanks : String}
    (hblanks : ∀ c ∈ blanks.toList, c = ' ' ∨ c = '\n') :
    decode (encode n ++ blanks) = .ok n ∧ decode (encodePretty n ++ blanks) = .ok n := by
  constructor
  · refine decode_of_scans hfloat hwritten hn ?_
    rw [String.toList_append]
    exact (scans_encode (hn.imp hscan)).append_blanks hblanks
  · refine decode_of_scans hfloat hwritten hn ?_
    rw [String.toList_append]
    exact (scans_encodePretty (hn.imp hscan)).append_blanks hblanks

theorem decode_append_of_floatFree {n : Node} (hwritten : n.Written) (hn : n.FloatFree)
    {blanks : String} (hblanks : ∀ c ∈ blanks.toList, c = ' ' ∨ c = '\n') :
    decode (encode n ++ blanks) = .ok n ∧ decode (encodePretty n ++ blanks) = .ok n :=
  decode_append (fun _ => False.elim) (fun _ => False.elim) hwritten hn.everyFloat hblanks

/-- The nodes without floats that survive writing and reading, and what every reading gives. -/
theorem decode_encode_eq_ok_iff :
    (∀ n : Node, n.FloatFree → (decode (encode n) = .ok n ↔ n.DistinctKeys ∧ n.NoneReserved)) ∧
      ∀ (source : String) (n : Node), decode source = .ok n → n.DistinctKeys ∧ n.NoneReserved := by
  constructor
  · intro n hn
    constructor
    · intro h
      exact written_iff.1 (written_of_decode h)
    · intro h
      exact decode_encode (fun _ => False.elim) (fun _ => False.elim) (written_iff.2 h)
        hn.everyFloat
  · intro source n h
    exact written_iff.1 (written_of_decode h)

/-- Controls and quotes in keys and strings, the least integer, bytes and a link. -/
theorem decode_encode_eq_ok_iff_nested :
    decode (encode (.map [
      ("", .list [.int Int64.minValue, .string "\x00\"\n"]), ("\t/", .bytes [0, 255]),
      ("k", .map [("/", .link ⟨"/"⟩), ("k", .null)])])) =
      .ok (.map [("", .list [.int Int64.minValue, .string "\x00\"\n"]), ("\t/", .bytes [0, 255]),
        ("k", .map [("/", .link ⟨"/"⟩), ("k", .null)])]) := by
  refine (decode_encode_eq_ok_iff.1 _ ?_).2 ⟨?_, ?_⟩
  · decide
  · decide
  · decide

end DagJson

end DagSelect
