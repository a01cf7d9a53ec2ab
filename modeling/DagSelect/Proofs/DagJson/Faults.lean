import DagSelect.Proofs.DagJson.Gather
import DagSelect.Proofs.Except
import DagSelect.Proofs.Json.Parts
import DagSelect.Proofs.Json.Slices
import Mathlib.Data.List.Nodup

/-!
# Errors and the text they point at

Reading a tree stops at the first part that is at fault, and the error names the place of that part
(`arisesIn_of_readTree`). The parts of the tree stand in the text, each where its span says. So an
error other than one of grammar points at the number, the literal, the repeated key, the second
value or the reserved object that is its cause, and there is never more than one error
(`decode_error_cases`).
-/

namespace DagSelect

namespace Json

def Key.Denotes (k : Key) (name : String) : Prop := readLiteral k.literal = .ok name

/-- The text from the one offset to the other; both lie between characters. -/
def Span.Covers (span : Span) (source part : String) : Prop :=
  ∃ before behind, source = before ++ part ++ behind ∧ span.start = before.utf8ByteSize ∧
    span.stop = (before ++ part).utf8ByteSize

theorem Span.Covers.le {span : Span} {source part : String} (h : span.Covers source part) :
    span.start ≤ span.stop ∧ span.stop ≤ source.utf8ByteSize := by
  obtain ⟨before, behind, rfl, hstart, hstop⟩ := h
  simp only [String.utf8ByteSize_append] at *
  omega

/-- What the tree's span covers, read by itself, is the tree. -/
def Tree.StandsIn (source : String) (t : Tree) : Prop :=
  ∃ part : String, t.span.Covers source part ∧
    (scan? .lenient t.span.start part.toList).bind trees? = some [t]

end Json

namespace DagJson

open Json (Tree Key Span)

/-! ## Faults in trees -/

/-- What in a tree a fault at a place is about. -/
def Fault.ArisesIn (t : Tree) (span : Span) : Fault → Prop
  | .grammar | .empty | .trailing => False
  | .number text _ => t.Has (.atom (.number text.toList) span)
  | .literal error => ∃ u literal, t.Has u ∧ ⟨.atom (.string literal), span⟩ ∈ u.ownLexemes ∧
      Json.readLiteral literal = .error error
  | .duplicateKey name => ∃ earlier key value later place, ∃ names : List String,
      t.Has (.object (earlier ++ (key, value) :: later) place) ∧ key.span = span ∧
      key.Denotes name ∧ (earlier.map fun e => Json.readLiteral e.1.literal) = names.map .ok ∧
      names.Nodup ∧ name ∈ names
  | .base64 _ | .bytesKind _ | .reservedKind _ => ∃ key value,
      t.Has (.object [(key, value)] span) ∧ key.Denotes "/"

/-- The error names a place, and its fault is about what is there. -/
def DecodeError.ArisesIn (t : Tree) (e : DecodeError) : Prop :=
  ∃ span, e.span = some span ∧ e.fault.ArisesIn t span

theorem Fault.ArisesIn.of_has {t u : Tree} {span : Span} {fault : Fault} (h : fault.ArisesIn u span)
    (hu : t.Has u) : fault.ArisesIn t span := by
  cases fault with
  | grammar | empty | trailing => exact h
  | number text fault => exact hu.trans h
  | literal error =>
    obtain ⟨v, literal, hv, h⟩ := h
    exact ⟨v, literal, hu.trans hv, h⟩
  | duplicateKey name =>
    obtain ⟨earlier, key, value, later, place, names, hv, h⟩ := h
    exact ⟨earlier, key, value, later, place, names, hu.trans hv, h⟩
  | base64 fault | bytesKind found | reservedKind found =>
    obtain ⟨key, value, hv, h⟩ := h
    exact ⟨key, value, hu.trans hv, h⟩

theorem DecodeError.ArisesIn.of_has {t u : Tree} {e : DecodeError} (h : e.ArisesIn u)
    (hu : t.Has u) : e.ArisesIn t := by
  obtain ⟨span, hspan, h⟩ := h
  exact ⟨span, hspan, h.of_has hu⟩

theorem arisesIn_of_readNumber {text : List Char} {span : Span} {e : DecodeError}
    (h : readNumber text span = .error e) : e.ArisesIn (.atom (.number text) span) := by
  unfold readNumber at h
  split at h
  · cases h
  · split at h
    · cases h
    · obtain rfl := Except.error.inj h
      refine ⟨span, rfl, ?_⟩
      rw [Fault.ArisesIn, String.toList_ofList]
      exact .self _

theorem arisesIn_of_readString {literal : List Char} {span : Span} {e : DecodeError} {t : Tree}
    (h : readString literal span = .error e) (ht : ⟨.atom (.string literal), span⟩ ∈ t.ownLexemes) :
    e.ArisesIn t := by
  unfold readString at h
  split at h
  · cases h
  · next error herror =>
    obtain rfl := Except.error.inj h
    exact ⟨span, rfl, t, literal, .self t, ht, herror⟩

theorem readString_eq_ok {literal : List Char} {span : Span} {s : String}
    (h : readString literal span = .ok s) : Json.readLiteral literal = .ok s := by
  unfold readString at h
  split at h
  · rwa [← Except.ok.inj h]
  · cases h

theorem exists_of_readItems_eq_error {items : List Tree} {e : DecodeError}
    (h : readItems items = .error e) : ∃ t ∈ items, readTree t = .error e := by
  induction items with
  | nil => cases h
  | cons t rest ih =>
    rw [readItems] at h
    obtain ht | ⟨n, -, hrest⟩ := Except.bind_eq_error_iff.1 h
    · exact ⟨t, List.mem_cons_self, ht⟩
    · obtain hrest | ⟨ns, -, hdone⟩ := Except.bind_eq_error_iff.1 hrest
      · obtain ⟨u, hu, he⟩ := ih hrest
        exact ⟨u, List.mem_cons_of_mem t hu, he⟩
      · cases hdone

/-- The keys that are read in front of a fault differ. -/
theorem exists_of_readEntries_eq_error {entries : List (Key × Tree)} {seen : List String}
    {e : DecodeError} (h : readEntries seen entries = .error e) (distinct : seen.Nodup) :
    (∃ x ∈ entries, readString x.1.literal x.1.span = .error e) ∨
      (∃ x ∈ entries, readTree x.2 = .error e) ∨
      ∃ earlier key value later, ∃ names : List String, ∃ name,
        entries = earlier ++ (key, value) :: later ∧
        e = ⟨.duplicateKey name, some key.span⟩ ∧ key.Denotes name ∧
        (earlier.map fun x => Json.readLiteral x.1.literal) = names.map .ok ∧
        (names.reverse ++ seen).Nodup ∧ name ∈ names.reverse ++ seen := by
  induction entries generalizing seen with
  | nil => cases h
  | cons x rest ih =>
    obtain ⟨key, t⟩ := x
    rw [readEntries] at h
    obtain hkey | ⟨k, hk, h⟩ := Except.bind_eq_error_iff.1 h
    · exact .inl ⟨(key, t), List.mem_cons_self, hkey⟩
    split at h
    · next hseen =>
      obtain rfl := Except.error.inj h
      refine .inr (.inr ⟨[], key, t, rest, [], k, rfl, rfl, readString_eq_ok hk, rfl, distinct, ?_⟩)
      simpa using hseen
    · next hseen =>
      have hnew : (k :: seen).Nodup := List.nodup_cons.2 ⟨by simpa using hseen, distinct⟩
      obtain ht | ⟨n, -, h⟩ := Except.bind_eq_error_iff.1 h
      · exact .inr (.inl ⟨(key, t), List.mem_cons_self, ht⟩)
      obtain hrest | ⟨ns, -, hdone⟩ := Except.bind_eq_error_iff.1 h
      · obtain ⟨x, hx, he⟩ | ⟨x, hx, he⟩ | ⟨earlier, key', value, later, names, name,
            rfl, rfl, hname, hearlier, hnames, hmem⟩ := ih hrest hnew
        · exact .inl ⟨x, List.mem_cons_of_mem _ hx, he⟩
        · exact .inr (.inl ⟨x, List.mem_cons_of_mem _ hx, he⟩)
        · refine .inr (.inr ⟨(key, t) :: earlier, key', value, later, k :: names, name, rfl, rfl,
            hname, ?_, ?_, ?_⟩)
          · rw [List.map_cons, List.map_cons, hearlier, readString_eq_ok hk]
          · simpa using hnames
          · simpa using hmem
      · cases hdone

/-- The entries that are read have the keys that the literals denote. -/
theorem map_readLiteral_of_readEntries {entries : List (Key × Tree)} {seen : List String}
    {es : List (String × Node)} (h : readEntries seen entries = .ok es) :
    (entries.map fun x => Json.readLiteral x.1.literal) = (es.map Prod.fst).map .ok := by
  induction entries generalizing seen es with
  | nil =>
    obtain rfl := Except.ok.inj h
    rfl
  | cons x rest ih =>
    obtain ⟨key, t⟩ := x
    rw [readEntries] at h
    obtain ⟨k, hk, h⟩ := Except.bind_eq_ok_iff.1 h
    split at h
    · cases h
    · obtain ⟨n, -, h⟩ := Except.bind_eq_ok_iff.1 h
      obtain ⟨ns, hns, hdone⟩ := Except.bind_eq_ok_iff.1 h
      obtain rfl := Except.ok.inj hdone
      rw [List.map_cons, ih hns, readString_eq_ok hk]
      rfl

theorem arisesIn_of_ofEntries {entries : List (Key × Tree)} {span : Span}
    {es : List (String × Node)} {e : DecodeError} (hes : readEntries [] entries = .ok es)
    (h : ofEntries span es = .error e) : e.ArisesIn (.object entries span) := by
  unfold ofEntries at h
  split at h
  · next value =>
    have hkeys := map_readLiteral_of_readEntries hes
    obtain ⟨⟨key, t⟩, rest, rfl, hkey, hrest⟩ := List.map_eq_cons_iff.1 hkeys
    obtain rfl := List.map_eq_nil_iff.1 hrest
    have hat {fault : Fault} (hfault : fault.ArisesIn (.object [(key, t)] span) span) :
        (⟨fault, some span⟩ : DecodeError).ArisesIn (.object [(key, t)] span) :=
      ⟨span, rfl, hfault⟩
    have hobject :
        ∃ k v, (Tree.object [(key, t)] span).Has (.object [(k, v)] span) ∧ k.Denotes "/" :=
      ⟨key, t, .self _, hkey⟩
    unfold readReserved at h
    split at h
    · cases h
    · split at h
      · cases h
      · obtain rfl := Except.error.inj h
        exact hat hobject
    · obtain rfl := Except.error.inj h
      exact hat hobject
    · obtain rfl := Except.error.inj h
      exact hat hobject
  · cases h

/-- Every error of a reading is about a part of the tree that was read. -/
theorem arisesIn_of_readTree {t : Tree} {e : DecodeError} (h : readTree t = .error e) :
    e.ArisesIn t := by
  induction t generalizing e with
  | atom a span =>
    cases a with
    | null | bool b => cases h
    | number text => exact arisesIn_of_readNumber h
    | string literal =>
      rw [readTree] at h
      exact arisesIn_of_readString (Except.map_eq_error_iff.1 h) List.mem_cons_self
  | array items span ih =>
    rw [readTree] at h
    obtain ⟨t, ht, he⟩ := exists_of_readItems_eq_error (Except.map_eq_error_iff.1 h)
    exact (ih t ht he).of_has (.item ht (.self t))
  | object entries span ih =>
    rw [readTree] at h
    obtain h | ⟨es, hes, h⟩ := Except.bind_eq_error_iff.1 h
    · obtain ⟨x, hx, he⟩ | ⟨x, hx, he⟩ | ⟨earlier, key, value, later, names, name, rfl, rfl, hname,
        hearlier, hnames, hmem⟩ := exists_of_readEntries_eq_error h List.nodup_nil
      · exact arisesIn_of_readString he (List.mem_map_of_mem hx)
      · exact (ih x hx he).of_has (.value hx (.self _))
      · refine ⟨key.span, rfl, earlier, key, value, later, span, names, .self _, rfl, hname,
          hearlier, ?_, ?_⟩
        · rwa [List.append_nil, List.nodup_reverse] at hnames
        · rwa [List.append_nil, List.mem_reverse] at hmem
    · exact arisesIn_of_ofEntries hes h

/-! ## Faults in texts -/

/-- The values that a text holds, one behind the other. -/
def values? (source : String) : Option (List Tree) :=
  (Json.scan? .lenient (dropMark source.toList).1 (dropMark source.toList).2).bind Json.trees?

/-- What a fault says of the text at its place. -/
def Fault.LiesIn (source : String) (span : Span) : Fault → Prop
  | .grammar => False
  | .empty => values? source = some []
  | .trailing => ∃ first extra rest, values? source = some (first :: extra :: rest) ∧
      extra.span = span ∧ extra.StandsIn source
  | .number text _ => span.Covers source text
  | .literal error => ∃ literal : String, span.Covers source literal ∧
      Json.readLiteral literal.toList = .error error
  | .duplicateKey name => ∃ earlier key value later place, ∃ names : List String,
      (Tree.object (earlier ++ (key, value) :: later) place).StandsIn source ∧
      span.Covers source (String.ofList key.literal) ∧ key.span = span ∧ key.Denotes name ∧
      (earlier.map fun e => Json.readLiteral e.1.literal) = names.map .ok ∧
      names.Nodup ∧ name ∈ names
  | .base64 _ | .bytesKind _ | .reservedKind _ => ∃ key value,
      (Tree.object [(key, value)] span).StandsIn source ∧ key.Denotes "/"

open String (utf8Len)

theorem exists_mark (text : List Char) :
    ∃ mark, text = mark ++ (dropMark text).2 ∧ (dropMark text).1 = utf8Len mark := by
  unfold dropMark
  split
  · exact ⟨['\ufeff'], rfl, rfl⟩
  · exact ⟨[], rfl, rfl⟩

section

variable {source : String} {lexemes : List Json.Lexeme}

theorem covers_of_prefix {pre part : List Char} {span : Span}
    (h : pre ++ part <+: (dropMark source.toList).2)
    (hstart : span.start = (dropMark source.toList).1 + utf8Len pre)
    (hstop : span.stop = (dropMark source.toList).1 + utf8Len (pre ++ part)) :
    span.Covers source (String.ofList part) := by
  obtain ⟨mark, htext, hoffset⟩ := exists_mark source.toList
  obtain ⟨rest, hrest⟩ := h
  rw [← hrest] at htext
  refine ⟨String.ofList (mark ++ pre), String.ofList rest, ?_, ?_, ?_⟩
  · rw [← String.toList_inj, htext]
    simp
  · rw [hstart, hoffset, String.utf8ByteSize_ofList, String.utf8Len_append]
  · rw [hstop, hoffset, ← String.ofList_append, String.utf8ByteSize_ofList, List.append_assoc,
      String.utf8Len_append mark]

variable (hscan : Json.scan? .lenient (dropMark source.toList).1 (dropMark source.toList).2 =
  some lexemes)

include hscan

theorem covers_lexeme {l : Json.Lexeme} (hl : l ∈ lexemes) :
    ∃ read, l.token.Reads read ∧ l.span.Covers source (String.ofList read) := by
  obtain ⟨before, behind, rfl⟩ := List.append_of_mem hl
  obtain ⟨pre, read, hprefix, hread, hstart, hstop⟩ := Json.scan?_text hscan
  exact ⟨read, hread, covers_of_prefix hprefix hstart hstop⟩

theorem standsIn_of_stands {t : Tree} (h : t.Stands lexemes) : t.StandsIn source := by
  obtain ⟨before, mid, behind, first, last, rfl, hfirst, hlast, hspan, htree⟩ := h.alone
  obtain ⟨pre, part, hprefix, hstart, hstop, -, hmid⟩ := Json.scan?_slice hscan hfirst hlast
  rw [Json.Tree.StandsIn, hspan]
  refine ⟨String.ofList part, covers_of_prefix hprefix hstart hstop, ?_⟩
  rw [String.toList_ofList, hmid]
  exact htree

theorem covers_emptySpan :
    ∃ part, (emptySpan lexemes source.utf8ByteSize).Covers source part := by
  cases lexemes with
  | nil => exact ⟨"", source, "", by simp, rfl, by simp [emptySpan]⟩
  | cons l rest =>
    obtain ⟨pre, part, htext, hstart, -, -⟩ :=
      Json.scan?_start (hscan.trans (congrArg some (List.nil_append _).symm))
    obtain ⟨mark, hmark, hoffset⟩ := exists_mark source.toList
    refine ⟨String.ofList part, covers_of_prefix (htext ▸ List.prefix_rfl) hstart ?_⟩
    rw [emptySpan, ← htext, hoffset, ← String.utf8Len_append, ← hmark, ← String.utf8ByteSize_ofList,
      String.ofList_toList]

/-- What a fault says of a tree that stands in the text it says of the text. -/
theorem Fault.ArisesIn.liesIn {t : Tree} {span : Span} {fault : Fault} (h : fault.ArisesIn t span)
    (ht : t.StandsWhole lexemes) :
    (∃ part, span.Covers source part) ∧ fault.LiesIn source span := by
  cases fault with
  | grammar | empty | trailing => exact h.elim
  | number text fault =>
    obtain ⟨read, hread, hcovers⟩ := covers_lexeme hscan ((ht _ h).own _ List.mem_cons_self)
    obtain rfl : text.toList = read := hread
    rw [String.ofList_toList] at hcovers
    exact ⟨⟨text, hcovers⟩, hcovers⟩
  | literal error =>
    obtain ⟨u, literal, hu, hown, herror⟩ := h
    obtain ⟨read, hread, hcovers⟩ := covers_lexeme hscan ((ht u hu).own _ hown)
    obtain rfl : literal = read := hread
    exact ⟨⟨_, hcovers⟩, String.ofList literal, hcovers, by rwa [String.toList_ofList]⟩
  | duplicateKey name =>
    obtain ⟨earlier, key, value, later, place, names, hu, rfl, h⟩ := h
    have hown : key.lexeme ∈ (Tree.object (earlier ++ (key, value) :: later) place).ownLexemes :=
      List.mem_map.2 ⟨(key, value), by simp, rfl⟩
    obtain ⟨read, hread, hcovers⟩ := covers_lexeme hscan ((ht _ hu).own _ hown)
    obtain rfl : key.literal = read := hread
    exact ⟨⟨_, hcovers⟩, earlier, key, value, later, place, names,
      standsIn_of_stands hscan (ht _ hu), hcovers, rfl, h⟩
  | base64 fault | bytesKind found | reservedKind found =>
    obtain ⟨key, value, hu, hkey⟩ := h
    have hstands := standsIn_of_stands hscan (ht _ hu)
    obtain ⟨part, hcovers, -⟩ := id hstands
    exact ⟨⟨part, hcovers⟩, key, value, hstands, hkey⟩

end

/-- A text denotes a node, or there is one error: the text breaks the grammar, or what the fault
says is so of the part of the text that the error names. -/
theorem decode_error_cases (source : String) :
    (∃ n, decode source = .ok n ∧ gather source = (some n, [])) ∨
      ∃ e, decode source = .error e ∧ gather source = (none, [e]) ∧
        (e.fault = .grammar ∨ ∃ span part, e.span = some span ∧ span.start ≤ span.stop ∧
          span.stop ≤ source.utf8ByteSize ∧ span.Covers source part ∧
          e.fault.LiesIn source span) := by
  obtain h | ⟨e, he, hgather⟩ := gather_cases source
  · exact .inl h
  refine .inr ⟨e, he, hgather, ?_⟩
  have hplace {span : Span} (hspan : e.span = some span)
      (h : (∃ part, span.Covers source part) ∧ e.fault.LiesIn source span) :
      ∃ span part, e.span = some span ∧ span.start ≤ span.stop ∧
        span.stop ≤ source.utf8ByteSize ∧ span.Covers source part ∧ e.fault.LiesIn source span := by
    obtain ⟨⟨part, hcovers⟩, hlies⟩ := h
    exact ⟨span, part, hspan, hcovers.le.1, hcovers.le.2, hcovers, hlies⟩
  rw [decode] at he
  cases hscan : Json.scan? .lenient (dropMark source.toList).1 (dropMark source.toList).2 with
  | none =>
    simp only [hscan] at he
    exact .inl (by rw [← Except.error.inj he])
  | some lexemes =>
    simp only [hscan] at he
    have hvalues : values? source = Json.trees? lexemes := by
      rw [values?, hscan]
      rfl
    match htrees : Json.trees? lexemes with
    | none =>
      simp only [htrees] at he
      exact .inl (by rw [← Except.error.inj he])
    | some [] =>
      simp only [htrees] at he
      obtain rfl := Except.error.inj he
      exact .inr (hplace rfl ⟨covers_emptySpan hscan, hvalues.trans htrees⟩)
    | some [t] =>
      simp only [htrees] at he
      obtain ⟨span, hspan, harises⟩ := arisesIn_of_readTree he
      have ht := Json.standsWhole_of_trees? htrees List.mem_cons_self
      exact .inr (hplace hspan (harises.liesIn hscan ht))
    | some (first :: extra :: rest) =>
      simp only [htrees] at he
      obtain rfl := Except.error.inj he
      have ht := Json.standsWhole_of_trees? htrees (List.mem_cons_of_mem first List.mem_cons_self)
      have hstands := standsIn_of_stands hscan (ht extra (.self extra))
      obtain ⟨part, hcovers, -⟩ := id hstands
      exact .inr (hplace rfl
        ⟨⟨part, hcovers⟩, first, extra, rest, hvalues.trans htrees, rfl, hstands⟩)

/-- Two spellings of one key. -/
example : decode "\x7b\"a\": 1, \"\\u0061\": 2\x7d" =
    .error ⟨.duplicateKey "a", some ⟨9, 17⟩⟩ := by
  cbv

end DagJson

end DagSelect
