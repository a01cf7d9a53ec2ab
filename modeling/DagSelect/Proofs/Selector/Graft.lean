import DagSelect.Proofs.Selector.EdgeDistance
import Mathlib.Data.List.Basic

/-!
# Grafting

`graft leaf s` puts a selector in the place of every edge of `s`, however far away it is. Exploring
rewrites only the edges that come up at once. So where no edge comes up at once exploring and
grafting commute (`explore?_graft`), and where every edge does (`Near`), grafting and rewriting come
to the same (`Near.explore?_graft`, `Near.isMatch_graft`).

A recursion hides the edges inside it, and a step may bring them to light. What is said of single
steps is therefore said of selectors without recursions.
-/

namespace DagSelect.Selector

/-! ## Selectors without recursions -/

inductive RecursionFree : Selector → Prop
  | matcher : RecursionFree .matcher
  | all {next : Selector} : RecursionFree next → RecursionFree (.all next)
  | fields {selections : List (String × Selector)} :
      (∀ e ∈ selections, RecursionFree e.2) → RecursionFree (.fields selections)
  | index {position : Int64} {next : Selector} :
      RecursionFree next → RecursionFree (.index position next)
  | range {start stop : Int64} {next : Selector} :
      RecursionFree next → RecursionFree (.range start stop next)
  | union {members : List Selector} :
      (∀ m ∈ members, RecursionFree m) → RecursionFree (.union members)
  | edge : RecursionFree .edge

theorem hereditary_recursionFree : Hereditary RecursionFree where
  all := fun (.all h) => h
  fields := fun (.fields h) => h
  index := fun (.index h) => h
  range := fun (.range h) => h
  member := fun (.union h) => h
  sequence := nofun
  current := nofun
  union := fun _ => .union
  moved := nofun
  decrement := nofun

theorem RecursionFree.endsEvenly {t : Selector} (ht : t.RecursionFree) : t.EndsEvenly := by
  induction ht with
  | matcher => exact .matcher
  | all _ ih => exact .all ih
  | fields _ ih => exact .fields ih
  | index _ ih => exact .index ih
  | range _ ih => exact .range ih
  | union _ ih => exact .union ih
  | edge => exact .edge

/-- Every edge gets nearer by one with every step. -/
theorem RecursionFree.edgeAt_succ {parent : Node} {s : Segment} {t u : Selector} {k : Nat}
    (ht : t.RecursionFree) (hu : t.explore? parent s = some u) (h : u.EdgeAt k) :
    t.EdgeAt (k + 1) :=
  (ht.endsEvenly.explore? hu).2 k h

/-! ## Rewriting edges -/

/-- Where there is an edge to put something in for, something comes of it. -/
theorem exists_replaceEdges? {t : Selector} (ht : t.hasEdge = true) (r : Selector) :
    ∃ u, t.replaceEdges? (some r) = some u := by
  induction t with
  | edge => exact ⟨r, rfl⟩
  | union members ih =>
    rw [hasEdge, anyEdge_eq_any, List.any_eq_true] at ht
    obtain ⟨m, hm, hedge⟩ := ht
    obtain ⟨u, hu⟩ := ih m hm hedge
    rw [replaceEdges?, replaceEdgesIn_eq_filterMap]
    exact exists_collapse?_of_ne_nil (List.ne_nil_of_mem (List.mem_filterMap.2 ⟨m, hm, hu⟩))
  | _ => cases ht

/-! ## Grafting -/

mutual
/-- Puts a selector in the place of every edge that is not inside a recursion. -/
def graft (leaf : Selector) : Selector → Selector
  | .edge => leaf
  | .matcher => .matcher
  | .all next => .all (graft leaf next)
  | .fields selections => .fields (graftSelections leaf selections)
  | .index position next => .index position (graft leaf next)
  | .range start stop next => .range start stop (graft leaf next)
  | .union members => .union (graftMembers leaf members)
  | .recursive limit sequence current => .recursive limit sequence current

def graftSelections (leaf : Selector) : List (String × Selector) → List (String × Selector)
  | [] => []
  | (name, s) :: rest => (name, graft leaf s) :: graftSelections leaf rest

def graftMembers (leaf : Selector) : List Selector → List Selector
  | [] => []
  | m :: rest => graft leaf m :: graftMembers leaf rest
end

@[simp] theorem graftSelections_eq_map (leaf : Selector) (selections : List (String × Selector)) :
    graftSelections leaf selections = selections.map fun e => (e.1, graft leaf e.2) := by
  induction selections with
  | nil => rfl
  | cons e rest ih => rw [graftSelections, ih, List.map_cons]

@[simp] theorem graftMembers_eq_map (leaf : Selector) (members : List Selector) :
    graftMembers leaf members = members.map (graft leaf) := by
  induction members with
  | nil => rfl
  | cons m rest ih => rw [graftMembers, ih, List.map_cons]

theorem graft_union (leaf : Selector) (members : List Selector) :
    graft leaf (.union members) = .union (members.map (graft leaf)) := by
  rw [graft, graftMembers_eq_map]

/-- Where there are no edges, or they stay edges, nothing changes. -/
theorem graft_eq_self {leaf t : Selector} (h : ∀ k, t.EdgeAt k → leaf = .edge) :
    graft leaf t = t := by
  induction t with
  | edge => exact h 0 .edge
  | all next ih => rw [graft, ih fun k hk => h (k + 1) (.all hk)]
  | fields selections ih =>
    have each : selections.map (fun e => (e.1, graft leaf e.2)) = selections.map id :=
      List.map_congr_left fun e he => by rw [ih e he fun k hk => h (k + 1) (.fields he hk), id]
    rw [graft, graftSelections_eq_map, each, List.map_id]
  | index i next ih => rw [graft, ih fun k hk => h (k + 1) (.index hk)]
  | range start stop next ih => rw [graft, ih fun k hk => h (k + 1) (.range hk)]
  | union members ih =>
    have each : members.map (graft leaf) = members.map id :=
      List.map_congr_left fun m hm => ih m hm fun k hk => h k (.union hm hk)
    rw [graft_union, each, List.map_id]
  | _ => rfl

theorem graft_edge (t : Selector) : graft .edge t = t := graft_eq_self fun _ _ => rfl

/-- An edge comes up at once only if one did before and another was grafted on there. -/
theorem hasEdge_of_graft {leaf t : Selector} (h : (graft leaf t).hasEdge = true) :
    t.hasEdge = true ∧ leaf.hasEdge = true := by
  induction t with
  | edge => exact ⟨rfl, h⟩
  | union members ih =>
    rw [graft_union, hasEdge, anyEdge_eq_any, List.any_map, List.any_eq_true] at h
    obtain ⟨m, hm, hedge⟩ := h
    obtain ⟨hmedge, hleaf⟩ := ih m hm hedge
    rw [hasEdge, anyEdge_eq_any, List.any_eq_true]
    exact ⟨⟨m, hm, hmedge⟩, hleaf⟩
  | _ => cases h

/-! ## Edges that are out of sight -/

theorem hasEdge_of_mem_union {members : List Selector} {m : Selector}
    (h : (Selector.union members).hasEdge = false) (hm : m ∈ members) : m.hasEdge = false := by
  rw [hasEdge, anyEdge_eq_any] at h
  exact Bool.eq_false_iff.2 (List.any_eq_false.1 h m hm)

theorem isMatch_graft {t : Selector} (ht : t.hasEdge = false) (leaf : Selector) :
    (graft leaf t).isMatch = t.isMatch := by
  induction t with
  | edge => cases ht
  | union members ih =>
    rw [graft_union, isMatch, isMatch, anyMatch_eq_any, anyMatch_eq_any, List.any_map,
      Bool.eq_iff_iff, List.any_eq_true, List.any_eq_true]
    refine exists_congr fun m => and_congr_right fun hm => ?_
    rw [Function.comp_apply, ih m hm (hasEdge_of_mem_union ht hm)]
  | _ => rfl

theorem lookup_graftSelections (leaf : Selector) (selections : List (String × Selector))
    (name : String) :
    (graftSelections leaf selections).lookup name = (selections.lookup name).map (graft leaf) := by
  induction selections with
  | nil => rfl
  | cons e rest ih =>
    rw [graftSelections, List.lookup_cons, List.lookup_cons, ih]
    cases name == e.1 <;> rfl

/-- Exploring takes along what was grafted on further down. -/
theorem explore?_graft {t : Selector} (hfree : t.RecursionFree) (ht : t.hasEdge = false)
    (leaf : Selector) (parent : Node) (s : Segment) :
    (graft leaf t).explore? parent s = (t.explore? parent s).map (graft leaf) := by
  induction t with
  | edge => cases ht
  | recursive => cases hfree
  | matcher | all => rfl
  | fields selections => exact lookup_graftSelections leaf selections s.text
  | index i next =>
    rw [graft, explore?, explore?]
    split <;> rfl
  | range start stop next =>
    rw [graft, explore?, explore?]
    split
    · split <;> rfl
    · rfl
  | union members ih =>
    rw [graft_union, explore?, explore?, exploreIn_eq_filterMap, exploreIn_eq_filterMap,
      List.filterMap_map, ← collapse?_map (graft_union leaf), List.map_filterMap]
    refine congrArg collapse? (List.filterMap_congr fun m hm => ?_)
    exact ih m hm (hereditary_recursionFree.member hfree m hm) (hasEdge_of_mem_union ht hm)

/-! ## Edges that come up at once -/

def Near (t : Selector) : Prop := ∀ k, t.EdgeAt k → k = 0

theorem Near.of_mem_union {members : List Selector} {m : Selector}
    (h : (Selector.union members).Near) (hm : m ∈ members) : m.Near :=
  fun k hk => h k (.union hm hk)

/-- What is no union and no edge has no edge to graft on when all its edges come up at once. -/
theorem Near.graft_eq_self {t : Selector} (ht : t.Near) (hedge : t.hasEdge = false)
    (leaf : Selector) : graft leaf t = t := by
  refine Selector.graft_eq_self fun k h => ?_
  obtain rfl := ht k h
  exact absurd (edgeAt_zero_iff.1 h) (Bool.eq_false_iff.1 hedge)

/-- What is grafted below an edge may be grafted before or after the edge is rewritten. -/
theorem Near.replaceEdges?_graft {t : Selector} (ht : t.Near) (leaf r : Selector) :
    t.replaceEdges? (some (graft leaf r)) = (t.replaceEdges? (some r)).map (graft leaf) := by
  induction t with
  | edge => rfl
  | union members ih =>
    rw [replaceEdges?, replaceEdges?, replaceEdgesIn_eq_filterMap, replaceEdgesIn_eq_filterMap,
      ← collapse?_map (graft_union leaf), List.map_filterMap]
    exact congrArg collapse? (List.filterMap_congr fun m hm => ih m hm (ht.of_mem_union hm))
  | _ => exact congrArg some (ht.graft_eq_self rfl leaf).symm

theorem collapse?_bind_explore? (members : List Selector) (parent : Node) (s : Segment) :
    (collapse? members).bind (explore? parent s) =
      collapse? (members.filterMap (explore? parent s)) := by
  match members with
  | [] => rfl
  | [m] =>
    rw [List.filterMap_cons, List.filterMap_nil]
    cases h : m.explore? parent s <;> simp [collapse?, h]
  | m :: n :: rest => exact congrArg collapse? (exploreIn_eq_filterMap parent s (m :: n :: rest))

/-- Grafting on at once and rewriting lead on in the same way. -/
theorem Near.explore?_graft {t : Selector} (ht : t.Near) (r : Selector) (parent : Node)
    (s : Segment) :
    (graft r t).explore? parent s = (t.replaceEdges? (some r)).bind (explore? parent s) := by
  induction t with
  | edge => rfl
  | union members ih =>
    rw [graft_union, explore?, replaceEdges?, exploreIn_eq_filterMap, replaceEdgesIn_eq_filterMap,
      collapse?_bind_explore?, List.filterMap_map, List.filterMap_filterMap]
    exact congrArg collapse? (List.filterMap_congr fun m hm => ih m hm (ht.of_mem_union hm))
  | _ =>
    rw [ht.graft_eq_self rfl]
    rfl

theorem any_isMatch_collapse? (members : List Selector) :
    (collapse? members).any isMatch = members.any isMatch := by
  match members with
  | [] => rfl
  | [m] => exact (Bool.or_false _).symm
  | m :: n :: rest => exact anyMatch_eq_any (m :: n :: rest)

/-- Grafting on at once and rewriting make the same nodes results. -/
theorem Near.isMatch_graft {t : Selector} (ht : t.Near) (r : Selector) :
    (graft r t).isMatch = (t.replaceEdges? (some r)).any isMatch := by
  induction t with
  | edge => rfl
  | union members ih =>
    rw [graft_union, isMatch, anyMatch_eq_any, replaceEdges?, replaceEdgesIn_eq_filterMap,
      any_isMatch_collapse?, List.any_map, List.any_filterMap, Bool.eq_iff_iff, List.any_eq_true,
      List.any_eq_true]
    refine exists_congr fun m => and_congr_right fun hm => ?_
    rw [Function.comp_apply, ih m hm (ht.of_mem_union hm)]
    cases m.replaceEdges? (some r) <;> rfl
  | _ =>
    rw [ht.graft_eq_self rfl]
    rfl

end DagSelect.Selector
