import DagSelect.Proofs.Selector.Along
import Mathlib.Data.List.Basic

/-!
# Selectors with the places they come from

Exploring copies parts of a selector around, so that of an edge met on the way one cannot tell which
recursion it was written in. `Tagged` is a selector whose recursions carry their place in the
selector they were written in, and whose edges carry the place of the nearest recursion around them
there. Exploring hands the tags on; only when a recursion ends, with its last lap, are the edges
left over from it marked as stray. Erasing the tags gives back exploring as it is
(`Tagged.erase_exploreAlong?`).
-/

namespace DagSelect

/-- A place in a selector: which part is taken at each level, outermost first. -/
abbrev Place := List Nat

/-- Which recursion an edge was written in, and whether that recursion has ended without it. -/
structure EdgeTag where
  owner : Option Place
  stray : Bool
deriving DecidableEq, Repr

inductive Tagged where
  | matcher
  | all (next : Tagged)
  | fields (selections : List (String × Tagged))
  | index (position : Int64) (next : Tagged)
  | range (start stop : Int64) (next : Tagged)
  | union (members : List Tagged)
  | recursive (place : Place) (limit : Limit) (sequence current : Tagged)
  | edge (tag : EdgeTag)

namespace Tagged

@[induction_eliminator]
theorem induct {P : Tagged → Prop} (matcher : P .matcher) (all : ∀ next, P next → P (.all next))
    (fields : ∀ selections, (∀ e ∈ selections, P e.2) → P (.fields selections))
    (index : ∀ i next, P next → P (.index i next))
    (range : ∀ start stop next, P next → P (.range start stop next))
    (union : ∀ members, (∀ m ∈ members, P m) → P (.union members))
    (recursive : ∀ place limit sequence current, P sequence → P current →
      P (.recursive place limit sequence current))
    (edge : ∀ tag, P (.edge tag)) : ∀ t, P t := by
  intro t
  refine Tagged.rec (motive_1 := P) (motive_2 := fun es => ∀ e ∈ es, P e.2)
    (motive_3 := fun ms => ∀ m ∈ ms, P m) (motive_4 := fun e => P e.2)
    matcher all fields index range union recursive edge ?_ ?_ ?_ ?_ ?_ t
  · simp
  · intro e es he hes x hx
    rcases List.mem_cons.1 hx with rfl | h
    · exact he
    · exact hes _ h
  · simp
  · intro x xs hx hxs y hy
    rcases List.mem_cons.1 hy with rfl | h
    · exact hx
    · exact hxs _ h
  · intro _ _ h
    exact h

/-! ## Tagging and erasing -/

mutual
/-- The selector at `place`, with the recursion around it there. A recursion starts with its point
at the sequence, so both get the same tags. -/
def tag (around : Option Place) (place : Place) : Selector → Tagged
  | .matcher => .matcher
  | .all next => .all (tag around (place ++ [0]) next)
  | .fields selections => .fields (tagSelections around place 0 selections)
  | .index position next => .index position (tag around (place ++ [0]) next)
  | .range start stop next => .range start stop (tag around (place ++ [0]) next)
  | .union members => .union (tagMembers around place 0 members)
  | .recursive limit sequence current =>
    .recursive place limit (tag (some place) (place ++ [0]) sequence)
      (tag (some place) (place ++ [0]) current)
  | .edge => .edge ⟨around, false⟩

def tagSelections (around : Option Place) (place : Place) (i : Nat) :
    List (String × Selector) → List (String × Tagged)
  | [] => []
  | (name, s) :: rest =>
    (name, tag around (place ++ [i]) s) :: tagSelections around place (i + 1) rest

def tagMembers (around : Option Place) (place : Place) (i : Nat) : List Selector → List Tagged
  | [] => []
  | s :: rest => tag around (place ++ [i]) s :: tagMembers around place (i + 1) rest
end

theorem mem_tagSelections {around : Option Place} {place : Place} {i : Nat}
    {selections : List (String × Selector)} {f : String × Tagged}
    (hf : f ∈ tagSelections around place i selections) :
    ∃ e ∈ selections, ∃ j, f = (e.1, tag around (place ++ [j]) e.2) := by
  induction selections generalizing i with
  | nil => cases hf
  | cons e rest ih =>
    rcases List.mem_cons.1 hf with rfl | hf
    · exact ⟨e, by simp, i, rfl⟩
    · obtain ⟨g, hg, j, rfl⟩ := ih hf
      exact ⟨g, List.mem_cons_of_mem e hg, j, rfl⟩

theorem mem_tagMembers {around : Option Place} {place : Place} {i : Nat} {members : List Selector}
    {t : Tagged} (ht : t ∈ tagMembers around place i members) :
    ∃ m ∈ members, ∃ j, t = tag around (place ++ [j]) m := by
  induction members generalizing i with
  | nil => cases ht
  | cons m rest ih =>
    rcases List.mem_cons.1 ht with rfl | ht
    · exact ⟨m, by simp, i, rfl⟩
    · obtain ⟨n, hn, j, rfl⟩ := ih ht
      exact ⟨n, List.mem_cons_of_mem m hn, j, rfl⟩

def ofSelector (s : Selector) : Tagged := tag none [] s

mutual
def erase : Tagged → Selector
  | .matcher => .matcher
  | .all next => .all (erase next)
  | .fields selections => .fields (eraseSelections selections)
  | .index position next => .index position (erase next)
  | .range start stop next => .range start stop (erase next)
  | .union members => .union (eraseMembers members)
  | .recursive _ limit sequence current => .recursive limit (erase sequence) (erase current)
  | .edge _ => .edge

def eraseSelections : List (String × Tagged) → List (String × Selector)
  | [] => []
  | (name, t) :: rest => (name, erase t) :: eraseSelections rest

def eraseMembers : List Tagged → List Selector
  | [] => []
  | t :: rest => erase t :: eraseMembers rest
end

theorem eraseSelections_eq_map (selections : List (String × Tagged)) :
    eraseSelections selections = selections.map fun e => (e.1, e.2.erase) := by
  induction selections with
  | nil => rfl
  | cons e rest ih => rw [eraseSelections, ih, List.map_cons]

theorem eraseMembers_eq_map (members : List Tagged) : eraseMembers members = members.map erase := by
  induction members with
  | nil => rfl
  | cons t rest ih => rw [eraseMembers, ih, List.map_cons]

theorem erase_tag (s : Selector) (around : Option Place) (place : Place) :
    (tag around place s).erase = s := by
  induction s generalizing around place with
  | matcher => rfl
  | edge => rfl
  | all next ih => rw [tag, erase, ih]
  | index i next ih => rw [tag, erase, ih]
  | range start stop next ih => rw [tag, erase, ih]
  | recursive limit sequence current ihs ihc => rw [tag, erase, ihs, ihc]
  | fields selections ih =>
    suffices h : ∀ i, eraseSelections (tagSelections around place i selections) = selections by
      rw [tag, erase, h]
    induction selections with
    | nil => exact fun _ => rfl
    | cons e rest ihrest =>
      intro i
      rw [tagSelections, eraseSelections, ih e (by simp), ihrest fun f hf => ih f (by simp [hf])]
  | union members ih =>
    suffices h : ∀ i, eraseMembers (tagMembers around place i members) = members by
      rw [tag, erase, h]
    induction members with
    | nil => exact fun _ => rfl
    | cons m rest ihrest =>
      intro i
      rw [tagMembers, eraseMembers, ih m (by simp), ihrest fun x hx => ih x (by simp [hx])]

/-! ## Exploring with tags -/

def collapse? : List Tagged → Option Tagged
  | [] => none
  | [t] => some t
  | members => some (.union members)

mutual
/-- The edges that the recursion around this selector takes as its own: the one at the top and those
among the members of unions at the top. -/
def edges : Tagged → List EdgeTag
  | .edge tag => [tag]
  | .union members => edgesIn members
  | _ => []

def edgesIn : List Tagged → List EdgeTag
  | [] => []
  | m :: rest => edges m ++ edgesIn rest
end

theorem edgesIn_eq_flatMap (members : List Tagged) : edgesIn members = members.flatMap edges := by
  induction members with
  | nil => rfl
  | cons m rest ih => rw [edgesIn, ih, List.flatMap_cons]

mutual
def replaceEdges? (replacement : Option Tagged) : Tagged → Option Tagged
  | .edge _ => replacement
  | .union members => collapse? (replaceEdgesIn replacement members)
  | t => some t

def replaceEdgesIn (replacement : Option Tagged) : List Tagged → List Tagged
  | [] => []
  | m :: rest => (replaceEdges? replacement m).toList ++ replaceEdgesIn replacement rest
end

theorem replaceEdgesIn_eq_filterMap (replacement : Option Tagged) (members : List Tagged) :
    replaceEdgesIn replacement members = members.filterMap (replaceEdges? replacement) := by
  induction members with
  | nil => rfl
  | cons m rest ih =>
    rw [replaceEdgesIn, ih, List.filterMap_cons]
    cases replaceEdges? replacement m <;> rfl

mutual
def leave : Tagged → Tagged
  | .matcher => .matcher
  | .all next => .all (leave next)
  | .fields selections => .fields (leaveSelections selections)
  | .index position next => .index position (leave next)
  | .range start stop next => .range start stop (leave next)
  | .union members => .union (leaveMembers members)
  | .recursive place limit sequence current => .recursive place limit sequence current
  | .edge tag => .edge ⟨tag.owner, true⟩

def leaveSelections : List (String × Tagged) → List (String × Tagged)
  | [] => []
  | (name, t) :: rest => (name, leave t) :: leaveSelections rest

def leaveMembers : List Tagged → List Tagged
  | [] => []
  | t :: rest => leave t :: leaveMembers rest
end

theorem leaveSelections_eq_map (selections : List (String × Tagged)) :
    leaveSelections selections = selections.map fun e => (e.1, e.2.leave) := by
  induction selections with
  | nil => rfl
  | cons e rest ih => rw [leaveSelections, ih, List.map_cons]

theorem leaveMembers_eq_map (members : List Tagged) : leaveMembers members = members.map leave := by
  induction members with
  | nil => rfl
  | cons t rest ih => rw [leaveMembers, ih, List.map_cons]

/-- As for selectors; what is left after the last lap goes on without its recursion. -/
def advance? (place : Place) (limit : Limit) (sequence next : Tagged) : Option Tagged :=
  if next.edges = [] then some (.recursive place limit sequence next)
  else if limit.isLast then (next.replaceEdges? none).map leave
  else (next.replaceEdges? (some sequence)).map fun current =>
    .recursive place limit.decrement sequence current

mutual
def explore? (parent : Node) (s : Segment) : Tagged → Option Tagged
  | .matcher => none
  | .edge _ => none
  | .all next => some next
  | .fields selections => selections.lookup s.text
  | .index position next =>
    if parent.kind = .list ∧ s.index? = some position.toInt then some next else none
  | .range start stop next =>
    match parent.kind, s.index? with
    | .list, some i => if start.toInt ≤ i ∧ i < stop.toInt then some next else none
    | _, _ => none
  | .union members => collapse? (exploreIn parent s members)
  | .recursive place limit sequence current =>
    (explore? parent s current).bind (advance? place limit sequence)

def exploreIn (parent : Node) (s : Segment) : List Tagged → List Tagged
  | [] => []
  | m :: rest => (explore? parent s m).toList ++ exploreIn parent s rest
end

theorem exploreIn_eq_filterMap (parent : Node) (s : Segment) (members : List Tagged) :
    exploreIn parent s members = members.filterMap (explore? parent s) := by
  induction members with
  | nil => rfl
  | cons m rest ih =>
    rw [exploreIn, ih, List.filterMap_cons]
    cases explore? parent s m <;> rfl

mutual
/-- What the recursions replace or drop in a step: each with the tag of an edge that it takes. -/
def rewritings (parent : Node) (s : Segment) : Tagged → List (Place × EdgeTag)
  | .union members => rewritingsIn parent s members
  | .recursive place _ _ current =>
    rewritings parent s current ++
      match explore? parent s current with
      | some next => next.edges.map (Prod.mk place)
      | none => []
  | _ => []

def rewritingsIn (parent : Node) (s : Segment) : List Tagged → List (Place × EdgeTag)
  | [] => []
  | m :: rest => rewritings parent s m ++ rewritingsIn parent s rest
end

theorem rewritingsIn_eq_flatMap (parent : Node) (s : Segment) (members : List Tagged) :
    rewritingsIn parent s members = members.flatMap (rewritings parent s) := by
  induction members with
  | nil => rfl
  | cons m rest ih => rw [rewritingsIn, ih, List.flatMap_cons]

def exploreAlong? (t : Tagged) (steps : List (Node × Segment)) : Option Tagged :=
  steps.foldlM (fun t step => t.explore? step.1 step.2) t

/-! ## Forgetting the tags -/

theorem erase_collapse? (members : List Tagged) :
    (collapse? members).map erase = Selector.collapse? (members.map erase) := by
  match members with
  | [] => rfl
  | [t] => rfl
  | t :: u :: rest => exact congrArg (some ∘ Selector.union) (eraseMembers_eq_map (t :: u :: rest))

theorem hasEdge_erase (t : Tagged) : t.erase.hasEdge = true ↔ t.edges ≠ [] := by
  induction t with
  | union members ih =>
    rw [erase, eraseMembers_eq_map, Selector.hasEdge, Selector.anyEdge_eq_any, List.any_eq_true,
      edges, edgesIn_eq_flatMap, ne_eq, List.flatMap_eq_nil_iff]
    constructor
    · rintro ⟨s, hs, hedge⟩ hnone
      obtain ⟨m, hm, rfl⟩ := List.mem_map.1 hs
      exact (ih m hm).1 hedge (hnone m hm)
    · intro hsome
      obtain ⟨m, hm⟩ := Classical.not_forall.1 hsome
      obtain ⟨hmem, hedges⟩ := Classical.not_imp.1 hm
      exact ⟨m.erase, List.mem_map_of_mem hmem, (ih m hmem).2 hedges⟩
  | edge tag => exact ⟨fun _ => nofun, fun _ => rfl⟩
  | _ => exact ⟨nofun, fun h => absurd rfl h⟩

/-- A union is explored and rewritten member by member, and forgetting the tags passes through. -/
theorem erase_filterMap {f : Tagged → Option Tagged} {g : Selector → Option Selector}
    {members : List Tagged} (h : ∀ m ∈ members, (f m).map erase = g m.erase) :
    (members.filterMap f).map erase = (members.map erase).filterMap g := by
  rw [List.map_filterMap, List.filterMap_map]
  exact List.filterMap_congr h

theorem erase_replaceEdges? (replacement : Option Tagged) (t : Tagged) :
    (t.replaceEdges? replacement).map erase = t.erase.replaceEdges? (replacement.map erase) := by
  induction t with
  | union members ih =>
    rw [replaceEdges?, erase_collapse?, replaceEdgesIn_eq_filterMap, erase_filterMap ih, erase,
      eraseMembers_eq_map, Selector.replaceEdges?, Selector.replaceEdgesIn_eq_filterMap]
  | _ => rfl

theorem erase_leave (t : Tagged) : t.leave.erase = t.erase := by
  induction t with
  | all next ih => rw [leave, erase, erase, ih]
  | index i next ih => rw [leave, erase, erase, ih]
  | range start stop next ih => rw [leave, erase, erase, ih]
  | fields selections ih =>
    rw [leave, leaveSelections_eq_map, erase, eraseSelections_eq_map, erase, eraseSelections_eq_map,
      List.map_map]
    congr 1
    exact List.map_congr_left fun e he => congrArg (Prod.mk e.1) (ih e he)
  | union members ih =>
    rw [leave, leaveMembers_eq_map, erase, eraseMembers_eq_map, erase, eraseMembers_eq_map,
      List.map_map]
    congr 1
    exact List.map_congr_left ih
  | _ => rfl

theorem erase_advance? (place : Place) (limit : Limit) (sequence next : Tagged) :
    (advance? place limit sequence next).map erase =
      Selector.advance? limit sequence.erase next.erase := by
  rw [advance?, Selector.advance?]
  by_cases hedges : next.edges = []
  · rw [if_pos hedges, if_neg fun h => hasEdge_erase next |>.1 h hedges]
    rfl
  · rw [if_neg hedges, if_pos ((hasEdge_erase next).2 hedges)]
    by_cases hlast : limit.isLast = true
    · rw [if_pos hlast, if_pos hlast, Option.map_map]
      have hleave : erase ∘ leave = erase := funext erase_leave
      rw [hleave, erase_replaceEdges?]
      rfl
    · rw [if_neg hlast, if_neg hlast, Option.map_map]
      have hreplace := erase_replaceEdges? (some sequence) next
      rw [Option.map_some] at hreplace
      rw [← hreplace, Option.map_map]
      rfl

theorem erase_lookup (selections : List (String × Tagged)) (name : String) :
    (selections.lookup name).map erase = (eraseSelections selections).lookup name := by
  induction selections with
  | nil => rfl
  | cons e rest ih =>
    rw [eraseSelections, List.lookup_cons, List.lookup_cons]
    split
    · rfl
    · exact ih

theorem erase_explore? (t : Tagged) (parent : Node) (s : Segment) :
    (t.explore? parent s).map erase = t.erase.explore? parent s := by
  induction t with
  | matcher => rfl
  | edge tag => rfl
  | all next => rfl
  | fields selections => exact erase_lookup selections s.text
  | index i next =>
    rw [explore?, erase, Selector.explore?, apply_ite (Option.map erase)]
    rfl
  | range start stop next =>
    rw [explore?, erase, Selector.explore?]
    generalize parent.kind = kind
    generalize s.index? = index
    cases kind with
    | list =>
      cases index with
      | none => rfl
      | some i => exact apply_ite (Option.map erase) _ _ _
    | _ => rfl
  | union members ih =>
    rw [explore?, erase_collapse?, exploreIn_eq_filterMap, erase_filterMap ih, erase,
      eraseMembers_eq_map, Selector.explore?, Selector.exploreIn_eq_filterMap]
  | recursive place limit sequence current _ ih =>
    rw [explore?, erase, Selector.explore?, ← ih, Option.map_bind, Option.bind_map]
    congr 1
    funext next
    exact erase_advance? place limit sequence next

theorem erase_exploreAlong? (s : Selector) (steps : List (Node × Segment)) :
    ((ofSelector s).exploreAlong? steps).map erase = s.exploreAlong? steps := by
  have h := List.map_foldlM (f := fun t step => t.explore? step.1 step.2)
    (g := fun (s : Selector) step => s.explore? step.1 step.2) (m := erase)
    (fun t step => erase_explore? t step.1 step.2) steps (ofSelector s)
  rw [ofSelector, erase_tag] at h
  exact h

end Tagged

end DagSelect
