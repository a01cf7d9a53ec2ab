import DagSelect.Proofs.Selector.Along
import DagSelect.Proofs.Selector.Step

/-!
# What comes of a run

`outcome? s steps` is what is seen from outside of a run of steps: whether every step leads on, and
if so whether the node at the end is a result. What comes of a union comes of its members one by one
(`outcome?_union`), so the way unions are nested, and whether a member alone is wrapped in one,
makes no difference; `alternatives` opens all the unions at the top.
-/

namespace DagSelect.Selector

/-- Nothing if some step does not lead on, and otherwise whether the node at the end is a result. -/
def outcome? (t : Selector) (steps : List (Node × Segment)) : Option Bool :=
  (t.exploreAlong? steps).map isMatch

theorem outcome?_nil (t : Selector) : t.outcome? [] = some t.isMatch := rfl

theorem outcome?_cons (t : Selector) (parent : Node) (s : Segment) (rest : List (Node × Segment)) :
    t.outcome? ((parent, s) :: rest) =
      (t.explore? parent s).bind fun next => next.outcome? rest := by
  rw [outcome?, exploreAlong?, List.foldlM_cons]
  exact Option.map_bind

/-! ## Of several runs -/

/-- What comes of several runs together: nothing only if none of them leads on. -/
def anyOutcome : List (Option Bool) → Option Bool
  | [] => none
  | o :: rest => o.merge (· || ·) (anyOutcome rest)

theorem anyOutcome_append (os ps : List (Option Bool)) :
    anyOutcome (os ++ ps) = (anyOutcome os).merge (· || ·) (anyOutcome ps) := by
  induction os with
  | nil => cases h : anyOutcome ps <;> simp [anyOutcome, h]
  | cons o os ih =>
    rw [List.cons_append, anyOutcome, anyOutcome, ih]
    cases o <;> cases anyOutcome os <;> cases anyOutcome ps <;> simp [Option.merge, Bool.or_assoc]

theorem anyOutcome_flatMap {α : Type} (xs : List α) (f : α → List (Option Bool)) :
    anyOutcome (xs.flatMap f) = anyOutcome (xs.map fun x => anyOutcome (f x)) := by
  induction xs with
  | nil => rfl
  | cons x xs ih => rw [List.flatMap_cons, anyOutcome_append, List.map_cons, anyOutcome, ih]

/-- Members that do not lead on are of no account. -/
theorem anyOutcome_filterMap {α β : Type} (xs : List α) (f : α → Option β) (g : β → Option Bool) :
    anyOutcome ((xs.filterMap f).map g) = anyOutcome (xs.map fun x => (f x).bind g) := by
  induction xs with
  | nil => rfl
  | cons x xs ih =>
    rw [List.map_cons, anyOutcome, ← ih, List.filterMap_cons]
    cases f x with
    | none => exact (Option.merge_none_left).symm
    | some y => rfl

theorem anyOutcome_map_some {members : List Selector} (h : members ≠ []) :
    anyOutcome (members.map fun m => some m.isMatch) = some (members.any isMatch) := by
  induction members with
  | nil => exact absurd rfl h
  | cons m rest ih =>
    rw [List.map_cons, anyOutcome, List.any_cons]
    by_cases hrest : rest = []
    · subst hrest
      simp [anyOutcome]
    · rw [ih hrest]
      rfl

/-! ## Of unions -/

theorem collapse?_bind_outcome?_of_union {steps : List (Node × Segment)}
    (union : ∀ ms : List Selector, ms ≠ [] →
      (Selector.union ms).outcome? steps = anyOutcome (ms.map fun m => m.outcome? steps))
    (members : List Selector) :
    ((collapse? members).bind fun t => t.outcome? steps) =
      anyOutcome (members.map fun m => m.outcome? steps) := by
  match members with
  | [] => rfl
  | [m] =>
    change m.outcome? steps = (m.outcome? steps).merge (· || ·) none
    cases m.outcome? steps <;> rfl
  | m :: n :: rest => exact union (m :: n :: rest) nofun

/-- What comes of a union comes of its members. -/
theorem outcome?_union {members : List Selector} (h : members ≠ [])
    (steps : List (Node × Segment)) :
    (Selector.union members).outcome? steps =
      anyOutcome (members.map fun m => m.outcome? steps) := by
  induction steps generalizing members with
  | nil =>
    simp only [outcome?_nil]
    rw [anyOutcome_map_some h, isMatch, anyMatch_eq_any]
  | cons step rest ih =>
    obtain ⟨parent, s⟩ := step
    rw [outcome?_cons, explore?, collapse?_bind_outcome?_of_union (fun ms hms => ih hms),
      exploreIn_eq_filterMap, anyOutcome_filterMap]
    simp only [outcome?_cons]

theorem collapse?_bind_outcome? (members : List Selector) (steps : List (Node × Segment)) :
    ((collapse? members).bind fun t => t.outcome? steps) =
      anyOutcome (members.map fun m => m.outcome? steps) :=
  collapse?_bind_outcome?_of_union (fun _ hms => outcome?_union hms steps) members

/-! ## Alternatives -/

mutual
/-- What a selector comes to when the unions at the top are opened. -/
def alternatives : Selector → List Selector
  | .union members => alternativesIn members
  | s => [s]

def alternativesIn : List Selector → List Selector
  | [] => []
  | m :: rest => alternatives m ++ alternativesIn rest
end

theorem alternativesIn_eq_flatMap (members : List Selector) :
    alternativesIn members = members.flatMap alternatives := by
  induction members with
  | nil => rfl
  | cons m rest ih => rw [alternativesIn, ih, List.flatMap_cons]

/-- What is to be shown of an alternative is shown of whatever is no union, and for unions it is
shown of a member. -/
theorem mem_alternatives_rec {P : Selector → Selector → Prop}
    (self : ∀ t, t.alternatives = [t] → P t t)
    (member : ∀ members, ∀ n ∈ members, ∀ m, P n m → P (.union members) m) {t m : Selector}
    (hm : m ∈ t.alternatives) : P t m := by
  induction t with
  | union members ih =>
    rw [alternatives, alternativesIn_eq_flatMap, List.mem_flatMap] at hm
    obtain ⟨n, hn, hmn⟩ := hm
    exact member members n hn m (ih n hn hmn)
  | _ =>
    obtain rfl := List.mem_singleton.1 hm
    exact self _ rfl

theorem edge_mem_alternatives_iff {t : Selector} : .edge ∈ t.alternatives ↔ t.hasEdge = true := by
  induction t with
  | union members ih =>
    rw [alternatives, alternativesIn_eq_flatMap, List.mem_flatMap, hasEdge, anyEdge_eq_any,
      List.any_eq_true]
    exact exists_congr fun m => and_congr_right (ih m)
  | _ => simp [alternatives, hasEdge]

/-- Dropping edges leaves the alternatives that are no edges. -/
theorem replaceEdges?_none_bind_outcome? (t : Selector) (steps : List (Node × Segment)) :
    ((t.replaceEdges? none).bind fun u => u.outcome? steps) =
      anyOutcome ((t.alternatives.filter (· ≠ .edge)).map fun u => u.outcome? steps) := by
  induction t with
  | edge => rfl
  | union members ih =>
    rw [replaceEdges?, collapse?_bind_outcome?, replaceEdgesIn_eq_filterMap, anyOutcome_filterMap,
      alternatives, alternativesIn_eq_flatMap, List.filter_flatMap, List.map_flatMap,
      anyOutcome_flatMap]
    congr 1
    exact List.map_congr_left ih
  | _ =>
    simp only [replaceEdges?, alternatives, ne_eq, reduceCtorEq, not_false_eq_true, decide_true,
      List.filter_cons_of_pos, List.filter_nil, List.map_cons, List.map_nil, anyOutcome,
      Option.bind_some, Option.merge_none_right]

end DagSelect.Selector
