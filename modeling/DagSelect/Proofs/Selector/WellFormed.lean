import DagSelect.Selector.Compile
import DagSelect.Proofs.Except
import DagSelect.Proofs.FreshKeys
import DagSelect.Proofs.Node.Everywhere

/-!
# Well-formed selectors

Which selectors the compiler can give. A recursion stands at its beginning and holds an edge of its
own, an edge stands inside a recursion, numbers make sense, unions have members and names differ.
`WellFormedIn inside` carries along whether a recursion lies around, as the compiler does, so a
selector is well formed when it is so with nothing around it. Everything that compiles is
(`wellFormed_of_compile`).

What is to be shown of all that compiles is shown for one kind of selector after the other
(`Compile.Compositional`), so the compiler is gone through only once.
-/

namespace DagSelect

namespace Selector

/-- There is an edge that is not inside a further recursion. -/
inductive HasOwnEdge : Selector → Prop
  | edge : HasOwnEdge .edge
  | all {next : Selector} : HasOwnEdge next → HasOwnEdge (.all next)
  | fields {selections : List (String × Selector)} {e : String × Selector} :
      e ∈ selections → HasOwnEdge e.2 → HasOwnEdge (.fields selections)
  | index {position : Int64} {next : Selector} : HasOwnEdge next → HasOwnEdge (.index position next)
  | range {start stop : Int64} {next : Selector} :
      HasOwnEdge next → HasOwnEdge (.range start stop next)
  | union {members : List Selector} {m : Selector} :
      m ∈ members → HasOwnEdge m → HasOwnEdge (.union members)

theorem hasOwnEdge_iff {s : Selector} : s.hasOwnEdge = true ↔ s.HasOwnEdge := by
  induction s with
  | matcher => exact ⟨nofun, nofun⟩
  | edge => exact ⟨fun _ => .edge, fun _ => rfl⟩
  | all next ih =>
    rw [hasOwnEdge, ih]
    exact ⟨.all, fun | .all h => h⟩
  | index i next ih =>
    rw [hasOwnEdge, ih]
    exact ⟨.index, fun | .index h => h⟩
  | range start stop next ih =>
    rw [hasOwnEdge, ih]
    exact ⟨.range, fun | .range h => h⟩
  | fields selections ih =>
    rw [hasOwnEdge, anyOwnEdgeSelected_eq_any, List.any_eq_true]
    exact ⟨fun ⟨e, he, h⟩ => .fields he ((ih e he).1 h),
      fun | .fields he h => ⟨_, he, (ih _ he).2 h⟩⟩
  | union members ih =>
    rw [hasOwnEdge, anyOwnEdge_eq_any, List.any_eq_true]
    exact ⟨fun ⟨m, hm, h⟩ => .union hm ((ih m hm).1 h), fun | .union hm h => ⟨_, hm, (ih _ hm).2 h⟩⟩
  | recursive limit sequence current _ _ => exact ⟨nofun, nofun⟩

end Selector

/-- The limit has a written form of its own: its laps are an integer of 64 bits. -/
def Limit.Writable : Limit → Prop
  | .depth laps => (laps : Int) ≤ Int64.maxValue.toInt
  | .unbounded => True

namespace Selector

/-- A selector is well formed, where `inside` tells whether a recursion lies around it. -/
inductive WellFormedIn : Bool → Selector → Prop
  | matcher {inside : Bool} : WellFormedIn inside .matcher
  | all {inside : Bool} {next : Selector} (rest : WellFormedIn inside next) :
      WellFormedIn inside (.all next)
  | fields {inside : Bool} {selections : List (String × Selector)}
      (distinct : (selections.map Prod.fst).Nodup)
      (each : ∀ e ∈ selections, WellFormedIn inside e.2) : WellFormedIn inside (.fields selections)
  | index {inside : Bool} {position : Int64} {next : Selector} (natural : 0 ≤ position)
      (rest : WellFormedIn inside next) : WellFormedIn inside (.index position next)
  | range {inside : Bool} {start stop : Int64} {next : Selector} (natural : 0 ≤ start)
      (rising : start < stop) (rest : WellFormedIn inside next) :
      WellFormedIn inside (.range start stop next)
  | union {inside : Bool} {members : List Selector} (nonempty : members ≠ [])
      (each : ∀ m ∈ members, WellFormedIn inside m) : WellFormedIn inside (.union members)
  | recursive {inside : Bool} {limit : Limit} {sequence : Selector} (writable : limit.Writable)
      (returns : sequence.HasOwnEdge) (rest : WellFormedIn true sequence) :
      WellFormedIn inside (.recursive limit sequence sequence)
  | edge : WellFormedIn true .edge

def WellFormed (s : Selector) : Prop := WellFormedIn false s

end Selector

/-! ## What compiles -/

namespace Compile

open Selector

theorem natural_eq_ok {selector field : String} {value : Node} {i : Int64}
    (h : natural selector field value = .ok i) : value = .int i ∧ 0 ≤ i := by
  unfold natural at h
  split at h
  · split at h
    · cases h
    · next hi =>
      cases h
      exact ⟨rfl, Int64.not_lt.1 hi⟩
  · cases h

theorem naturalField_eq_ok {selector field key : String} {body : List (String × Node)} {i : Int64}
    (h : naturalField selector field key body = .ok i) : 0 ≤ i := by
  unfold naturalField at h
  split at h
  · exact (natural_eq_ok h).2
  · cases h

theorem writable_of_limit {n : Node} {l : Limit} (h : limit n = .ok l) : l.Writable := by
  unfold limit at h
  split at h
  · split at h
    · obtain ⟨laps, hlaps, rfl⟩ := Except.map_eq_ok_iff.1 h
      have hnonneg : 0 ≤ laps.toInt := Int64.le_iff_toInt_le.1 (natural_eq_ok hlaps).2
      rw [Limit.Writable, Int.toNat_of_nonneg hnonneg]
      exact Int64.toInt_le laps
    · split at h
      · cases h
        trivial
      · cases h
  · cases h
  · cases h

theorem writable_of_limitField {body : List (String × Node)} {l : Limit}
    (h : limitField body = .ok l) : l.Writable := by
  unfold limitField at h
  split at h
  · exact writable_of_limit h
  · cases h

theorem field_eq_ok {kind name key : String} {inside : Bool} {body : List (String × Node)}
    {s : Selector} (h : field kind name key inside body = .ok s) :
    ∃ e ∈ body, selector inside e.2 = .ok s := by
  induction body with
  | nil => cases h
  | cons e rest ih =>
    rw [field] at h
    split at h
    · exact ⟨e, by simp, h⟩
    · obtain ⟨f, hf, hs⟩ := ih h
      exact ⟨f, by simp [hf], hs⟩

theorem members_eq_ok {inside : Bool} {items : List Node} {ms : List Selector}
    (h : members inside items = .ok ms) :
    ms.length = items.length ∧ ∀ m ∈ ms, ∃ n ∈ items, selector inside n = .ok m := by
  induction items generalizing ms with
  | nil =>
    cases h
    simp
  | cons n rest ih =>
    simp only [members, Except.bind_eq_ok_iff] at h
    obtain ⟨s, hs, others, hothers, hms⟩ := h
    cases hms
    obtain ⟨hlength, heach⟩ := ih hothers
    constructor
    · rw [List.length_cons, List.length_cons, hlength]
    · intro m hm
      rcases List.mem_cons.1 hm with rfl | hm
      · exact ⟨n, by simp, hs⟩
      · obtain ⟨k, hk, hread⟩ := heach m hm
        exact ⟨k, by simp [hk], hread⟩

/-- The selector for one field: the shorthand `true` is a matcher. -/
def selected (inside : Bool) (name : String) : Node → Except CompileError Selector
  | .bool true => .ok .matcher
  | .map entries => selector inside (.map entries)
  | other => .error (.invalidFieldValue name other.kind)

theorem selections_cons (inside : Bool) (seen : List String) (name : String) (v : Node)
    (rest : List (String × Node)) :
    selections inside seen ((name, v) :: rest) =
      if name ∈ seen then .error (.duplicateField name)
      else (selected inside name v).bind fun s =>
        (selections inside (name :: seen) rest).map fun others => (name, s) :: others := by
  by_cases hseen : name ∈ seen
  · rw [if_pos hseen]
    cases v with
    | bool b => cases b <;> simp [selections, hseen] <;> rfl
    | _ => simp [selections, hseen]; rfl
  · rw [if_neg hseen]
    cases v with
    | bool b => cases b <;> simp [selections, selected, hseen] <;> rfl
    | _ => simp [selections, selected, hseen]; rfl

theorem selections_eq_ok {inside : Bool} {entries : List (String × Node)} {seen : List String}
    {ss : List (String × Selector)} (h : selections inside seen entries = .ok ss) :
    FreshKeys seen ss ∧ ss.map Prod.fst = entries.map Prod.fst ∧
      ∀ e ∈ ss, ∃ f ∈ entries, selected inside e.1 f.2 = .ok e.2 := by
  induction entries generalizing seen ss with
  | nil =>
    cases h
    exact ⟨freshKeys_nil seen, rfl, by simp⟩
  | cons entry rest ih =>
    obtain ⟨name, v⟩ := entry
    rw [selections_cons] at h
    split at h
    · cases h
    · next hnew =>
      obtain ⟨s, hs, h⟩ := Except.bind_eq_ok_iff.1 h
      obtain ⟨others, hothers, rfl⟩ := Except.map_eq_ok_iff.1 h
      obtain ⟨fresh, names, each⟩ := ih hothers
      refine ⟨freshKeys_cons_iff.2 ⟨hnew, fresh⟩, congrArg (name :: ·) names, fun e he => ?_⟩
      rcases List.mem_cons.1 he with rfl | he
      · exact ⟨(name, v), by simp, hs⟩
      · obtain ⟨f, hf, hread⟩ := each e he
        exact ⟨f, by simp [hf], hread⟩

theorem selectionsField_eq_ok {inside : Bool} {body : List (String × Node)}
    {ss : List (String × Selector)} (h : selectionsField inside body = .ok ss) :
    ∃ k entries, (k, .map entries) ∈ body ∧ selections inside [] entries = .ok ss := by
  induction body with
  | nil => cases h
  | cons e rest ih =>
    obtain ⟨k, v⟩ := e
    unfold selectionsField at h
    split at h
    · split at h
      · next entries => exact ⟨k, entries, by simp, h⟩
      · cases h
    · obtain ⟨k', entries, hmem, hs⟩ := ih h
      exact ⟨k', entries, by simp [hmem], hs⟩

/-- The property is true of a node and the selector that is read from it, where `inside` tells
whether a recursion lies around, if it is true of the nodes inside and the selectors that are read
from these. -/
structure Compositional (P : Bool → Node → Selector → Prop) : Prop where
  matcher {inside : Bool} {n : Node} : P inside n .matcher
  all {inside : Bool} {key : String} {body : List (String × Node)} {e : String × Node}
    {next : Selector} (mem : e ∈ body) (rest : P inside e.2 next) :
    P inside (.map [(key, .map body)]) (.all next)
  fields {inside : Bool} {key k : String} {body entries : List (String × Node)}
    {selections : List (String × Selector)} (mem : (k, .map entries) ∈ body)
    (names : selections.map Prod.fst = entries.map Prod.fst)
    (distinct : (selections.map Prod.fst).Nodup)
    (each : ∀ e ∈ selections, ∃ f ∈ entries, P inside f.2 e.2) :
    P inside (.map [(key, .map body)]) (.fields selections)
  index {inside : Bool} {key : String} {body : List (String × Node)} {e : String × Node}
    {position : Int64} {next : Selector} (mem : e ∈ body) (natural : 0 ≤ position)
    (rest : P inside e.2 next) : P inside (.map [(key, .map body)]) (.index position next)
  range {inside : Bool} {key : String} {body : List (String × Node)} {e : String × Node}
    {start stop : Int64} {next : Selector} (mem : e ∈ body) (natural : 0 ≤ start)
    (rising : start < stop) (rest : P inside e.2 next) :
    P inside (.map [(key, .map body)]) (.range start stop next)
  union {inside : Bool} {key : String} {items : List Node} {members : List Selector}
    (nonempty : members ≠ []) (each : ∀ m ∈ members, ∃ n ∈ items, P inside n m) :
    P inside (.map [(key, .list items)]) (.union members)
  recursive {inside : Bool} {key : String} {body : List (String × Node)} {e : String × Node}
    {limit : Limit} {sequence : Selector} (mem : e ∈ body) (writable : limit.Writable)
    (returns : sequence.HasOwnEdge) (rest : P true e.2 sequence) :
    P inside (.map [(key, .map body)]) (.recursion limit sequence)
  edge {n : Node} : P true n .edge

namespace Compositional

variable {P : Bool → Node → Selector → Prop} (hP : Compositional P) {inside : Bool} {key : String}

/-- The property is true of all that is read from the node. -/
def Reads (P : Bool → Node → Selector → Prop) (n : Node) : Prop :=
  ∀ ⦃inside s⦄, selector inside n = .ok s → P inside n s

include hP

theorem of_selected {name : String} {n : Node} {s : Selector} (hn : Reads P n)
    (h : selected inside name n = .ok s) : P inside n s := by
  unfold selected at h
  split at h
  · cases h
    exact hP.matcher
  · exact hn h
  · cases h

theorem of_selectionsField {body : List (String × Node)} {ss : List (String × Selector)}
    (below : ∀ e ∈ body, e.2.Everywhere (Reads P)) (h : selectionsField inside body = .ok ss) :
    P inside (.map [(key, .map body)]) (.fields ss) := by
  obtain ⟨k, entries, hmem, hread⟩ := selectionsField_eq_ok h
  obtain ⟨fresh, names, each⟩ := selections_eq_ok hread
  refine hP.fields hmem names fresh.1 fun e he => ?_
  obtain ⟨f, hf, hselected⟩ := each e he
  have hentries := (Node.everywhere_map_iff.1 (below _ hmem)).2
  exact ⟨f, hf, hP.of_selected (hentries f hf).here hselected⟩

theorem of_body {body : List (String × Node)} {s : Selector}
    (below : ∀ e ∈ body, e.2.Everywhere (Reads P))
    (h : selector inside (.map [(key, .map body)]) = .ok s) :
    P inside (.map [(key, .map body)]) s := by
  have hfield {kind name field' : String} {inside : Bool} {s : Selector}
      (h : field kind name field' inside body = .ok s) : ∃ e ∈ body, P inside e.2 s := by
    obtain ⟨e, he, hread⟩ := field_eq_ok h
    exact ⟨e, he, (below e he).here hread⟩
  rw [selector] at h
  split at h
  · cases h
    exact hP.matcher
  split at h
  · obtain ⟨next, hnext, hs⟩ := Except.bind_eq_ok_iff.1 h
    cases hs
    obtain ⟨e, he, hrest⟩ := hfield hnext
    exact hP.all he hrest
  split at h
  · obtain ⟨ss, hss, hs⟩ := Except.bind_eq_ok_iff.1 h
    cases hs
    exact hP.of_selectionsField below hss
  split at h
  · obtain ⟨position, hposition, h⟩ := Except.bind_eq_ok_iff.1 h
    obtain ⟨next, hnext, hs⟩ := Except.bind_eq_ok_iff.1 h
    cases hs
    obtain ⟨e, he, hrest⟩ := hfield hnext
    exact hP.index he (naturalField_eq_ok hposition) hrest
  split at h
  · obtain ⟨start, hstart, h⟩ := Except.bind_eq_ok_iff.1 h
    obtain ⟨stop, hstop, h⟩ := Except.bind_eq_ok_iff.1 h
    simp only [] at h
    split at h
    · cases h
    · next hrising =>
      obtain ⟨next, hnext, hs⟩ := Except.bind_eq_ok_iff.1 h
      cases hs
      obtain ⟨e, he, hrest⟩ := hfield hnext
      exact hP.range he (naturalField_eq_ok hstart) (Int64.not_le.1 hrising) hrest
  split at h
  · obtain ⟨limit, hlimit, h⟩ := Except.bind_eq_ok_iff.1 h
    obtain ⟨sequence, hsequence, h⟩ := Except.bind_eq_ok_iff.1 h
    split at h
    · next hreturns =>
      cases h
      obtain ⟨e, he, hrest⟩ := hfield hsequence
      exact hP.recursive he (writable_of_limitField hlimit) (hasOwnEdge_iff.1 hreturns) hrest
    · cases h
  split at h
  · split at h
    · next hinside =>
      cases h
      rw [hinside]
      exact hP.edge
    · cases h
  · cases h

theorem of_items {items : List Node} {s : Selector} (below : ∀ n ∈ items, Reads P n)
    (h : selector inside (.map [(key, .list items)]) = .ok s) :
    P inside (.map [(key, .list items)]) s := by
  rw [selector] at h
  split at h
  · split at h
    · cases h
    · next hitems =>
      obtain ⟨ms, hms, hs⟩ := Except.bind_eq_ok_iff.1 h
      cases hs
      obtain ⟨hlength, heach⟩ := members_eq_ok hms
      refine hP.union ?_ fun m hm => ?_
      · rintro rfl
        rw [List.isEmpty_iff_length_eq_zero, ← hlength] at hitems
        exact hitems rfl
      · obtain ⟨n, hn, hread⟩ := heach m hm
        exact ⟨n, hn, below n hn hread⟩
  · cases h

theorem reads (n : Node) : Reads P n := by
  suffices h : n.Everywhere (Reads P) from h.here
  refine Node.everywhere_of_step (fun n below inside s h => ?_) n
  unfold selector at h
  split at h
  · next key body =>
    have hbody := below (.key key, .map body) (by simp [Node.children])
    refine hP.of_body (fun e he => ?_) (by rw [selector]; exact h)
    exact hbody.child (Node.mem_children_map.2 ⟨e.1, rfl, he⟩)
  · next key items =>
    have hitems := below (.key key, .list items) (by simp [Node.children])
    refine hP.of_items (fun n hn => ?_) (by rw [selector]; exact h)
    exact (Node.everywhere_list_iff.1 hitems).2 n hn |>.here
  · cases h
  · cases h
  · cases h

theorem of_compile {n : Node} {s : Selector} (h : compile n = .ok s) : P false n s := hP.reads n h

end Compositional

theorem compositional_wellFormedIn : Compositional fun inside _ s => WellFormedIn inside s where
  matcher := .matcher
  all _ rest := .all rest
  fields _ _ distinct each := .fields distinct fun e he => (each e he).choose_spec.2
  index _ natural rest := .index natural rest
  range _ natural rising rest := .range natural rising rest
  union nonempty each := .union nonempty fun m hm => (each m hm).choose_spec.2
  recursive _ writable returns rest := .recursive writable returns rest
  edge := .edge

end Compile

/-- What compiles is well formed. -/
theorem wellFormed_of_compile {n : Node} {s : Selector} (h : compile n = .ok s) : s.WellFormed :=
  Compile.compositional_wellFormedIn.of_compile h

end DagSelect
