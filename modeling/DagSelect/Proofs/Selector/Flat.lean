import DagSelect.Proofs.Selector.Graft
import DagSelect.Proofs.Selector.Outcome
import DagSelect.Proofs.Selector.UnderWay
import Mathlib.Data.List.Induction

/-!
# Unions laid flat

How unions are nested makes no difference to where a run leads. `flat t` is the list of what a
selector comes to when its unions are opened, those at the points of its recursions as well as those
at the top. A run takes the members of that list one by one (`UnderWay.flatAlong_eq_flatMap`), and
rewriting edges does so too (`flat_replaceEdges?`).

A union without members would be nothing to lay flat and yet lead on; selectors under way have none.
-/

namespace DagSelect.Selector

mutual
/-- What a selector comes to when the unions at the top and at the points of recursions are
opened. -/
def flat : Selector → List Selector
  | .union members => flatMembers members
  | .recursive limit sequence current => [.recursive limit sequence (.union (flat current))]
  | s => [s]

def flatMembers : List Selector → List Selector
  | [] => []
  | m :: rest => flat m ++ flatMembers rest
end

theorem flatMembers_eq_flatMap (members : List Selector) :
    flatMembers members = members.flatMap flat := by
  induction members with
  | nil => rfl
  | cons m rest ih => rw [flatMembers, ih, List.flatMap_cons]

theorem flat_union (members : List Selector) :
    (Selector.union members).flat = members.flatMap flat := by
  rw [flat, flatMembers_eq_flatMap]

theorem length_flat (t : Selector) : t.flat.length = t.alternatives.length := by
  induction t with
  | union members ih =>
    rw [flat_union, alternatives, alternativesIn_eq_flatMap, List.length_flatMap,
      List.length_flatMap, List.map_congr_left ih]
  | _ => rfl

theorem count_edge_flat (t : Selector) : t.flat.count .edge = t.alternatives.count .edge := by
  induction t with
  | union members ih =>
    rw [flat_union, alternatives, alternativesIn_eq_flatMap, List.count_flatMap,
      List.count_flatMap]
    exact congrArg List.sum (List.map_congr_left ih)
  | _ => rfl

theorem edge_mem_flat_iff {t : Selector} : .edge ∈ t.flat ↔ t.hasEdge = true := by
  rw [← edge_mem_alternatives_iff, ← List.count_pos_iff, ← List.count_pos_iff, count_edge_flat]

/-- There is nothing more to open. -/
theorem flat_of_mem_flat {t m : Selector} (hm : m ∈ t.flat) : m.flat = [m] := by
  induction t generalizing m with
  | union members ih =>
    rw [flat_union, List.mem_flatMap] at hm
    obtain ⟨n, hn, hm⟩ := hm
    exact ih n hn hm
  | recursive limit sequence current _ ih =>
    obtain rfl := List.mem_singleton.1 hm
    rw [flat, flat_union, List.flatMap_congr fun n hn => ih hn, List.flatMap_singleton']
  | _ =>
    obtain rfl := List.mem_singleton.1 hm
    rfl

theorem flat_union_flat (t : Selector) : (Selector.union t.flat).flat = t.flat := by
  rw [flat_union, List.flatMap_congr fun m hm => flat_of_mem_flat hm, List.flatMap_singleton']

theorem flat_collapse? (members : List Selector) :
    (collapse? members).elim [] flat = members.flatMap flat := by
  match members with
  | [] => rfl
  | [m] => simp [collapse?]
  | m :: n :: rest => exact flat_union _

/-- Rewriting edges rewrites the members one by one. -/
theorem flat_replaceEdges? (replacement : Option Selector) (t : Selector) :
    (t.replaceEdges? replacement).elim [] flat =
      t.flat.flatMap fun m => if m = .edge then replacement.elim [] flat else [m] := by
  induction t with
  | edge => simp [replaceEdges?, flat]
  | union members ih =>
    have heach : ∀ m ∈ members, (m.replaceEdges? replacement).toList.flatMap flat =
        m.flat.flatMap fun m => if m = .edge then replacement.elim [] flat else [m] := by
      intro m hm
      rw [← ih m hm]
      cases m.replaceEdges? replacement <;> simp
    rw [replaceEdges?, flat_collapse?, replaceEdgesIn_eq_filterMap,
      List.filterMap_eq_flatMap_toList,
      List.flatMap_assoc, List.flatMap_congr heach, flat_union, List.flatMap_assoc]
  | _ => simp [replaceEdges?, flat]

theorem mem_flat_replaceEdges? {replacement : Option Selector} {t m : Selector}
    (hm : m ∈ (t.replaceEdges? replacement).elim [] flat) :
    m ∈ t.flat ∨ m ∈ replacement.elim [] flat := by
  rw [flat_replaceEdges?, List.mem_flatMap] at hm
  obtain ⟨n, hn, hm⟩ := hm
  split at hm
  · exact .inr hm
  · exact .inl (List.mem_singleton.1 hm ▸ hn)

/-- A recursion that moves on to points that are flat alike moves on alike. -/
theorem flat_advance?_congr (limit : Limit) (sequence : Selector) {next next' : Selector}
    (h : next.flat = next'.flat) :
    (advance? limit sequence next).elim [] flat = (advance? limit sequence next').elim [] flat := by
  have hedges : next.hasEdge = next'.hasEdge := by
    rw [Bool.eq_iff_iff, ← edge_mem_flat_iff, h, edge_mem_flat_iff]
  cases hedge : next.hasEdge with
  | false =>
    rw [advance?_within hedge, advance?_within (hedges.symm.trans hedge)]
    simp only [Option.elim_some, flat, h]
  | true =>
    have hedge' := hedges.symm.trans hedge
    cases hlast : limit.isLast with
    | true =>
      rw [advance?_last hedge hlast, advance?_last hedge' hlast, flat_replaceEdges?, h,
        flat_replaceEdges?]
    | false =>
      obtain ⟨point, hpoint⟩ := exists_replaceEdges? hedge sequence
      obtain ⟨point', hpoint'⟩ := exists_replaceEdges? hedge' sequence
      have hflat := flat_replaceEdges? (some sequence) next
      rw [h, ← flat_replaceEdges?, hpoint, hpoint', Option.elim_some, Option.elim_some] at hflat
      rw [advance?_round hedge hlast, advance?_round hedge' hlast, hpoint, hpoint']
      simp only [Option.map_some, Option.elim_some, flat, hflat]

/-! ## Selectors under way -/

theorem UnderWay.flat_ne_nil {t : Selector} (ht : t.UnderWay) : t.flat ≠ [] := by
  induction ht with
  | @union members nonempty _ ih =>
    obtain ⟨m, hm⟩ := List.exists_mem_of_ne_nil members nonempty
    obtain ⟨n, hn⟩ := List.exists_mem_of_ne_nil m.flat (ih m hm)
    rw [flat_union]
    exact List.ne_nil_of_mem (List.mem_flatMap.2 ⟨m, hm, hn⟩)
  | _ => exact List.cons_ne_nil _ _

theorem UnderWay.of_mem_flat {t m : Selector} (ht : t.UnderWay) (hm : m ∈ t.flat) : m.UnderWay := by
  induction ht generalizing m with
  | union nonempty _ ih =>
    rw [flat_union, List.mem_flatMap] at hm
    obtain ⟨n, hn, hm⟩ := hm
    exact ih n hn hm
  | recursive writable returns start rest ih =>
    obtain rfl := List.mem_singleton.1 hm
    exact .recursive writable returns start (.union rest.flat_ne_nil fun n hn => ih hn)
  | matcher => exact List.mem_singleton.1 hm ▸ .matcher
  | all rest => exact List.mem_singleton.1 hm ▸ .all rest
  | fields distinct each => exact List.mem_singleton.1 hm ▸ .fields distinct each
  | index natural rest => exact List.mem_singleton.1 hm ▸ .index natural rest
  | range natural rising rest => exact List.mem_singleton.1 hm ▸ .range natural rising rest
  | edge => exact List.mem_singleton.1 hm ▸ .edge

theorem UnderWay.union_flat {t : Selector} (ht : t.UnderWay) : (Selector.union t.flat).UnderWay :=
  .union ht.flat_ne_nil fun _ hm => ht.of_mem_flat hm

/-! ## One step -/

def flatChild (step : Node × Segment) (t : Selector) : List Selector :=
  (t.explore? step.1 step.2).elim [] flat

variable {step : Node × Segment} {t : Selector}

theorem flatChild_of_explore? {u : Selector} (hu : t.explore? step.1 step.2 = some u) :
    flatChild step t = u.flat := by
  rw [flatChild, hu, Option.elim_some]

theorem flatChild_edge (step : Node × Segment) : flatChild step .edge = [] := rfl

theorem flatChild_union (step : Node × Segment) (members : List Selector) :
    flatChild step (.union members) = members.flatMap (flatChild step) := by
  rw [flatChild, explore?, flat_collapse?, exploreIn_eq_filterMap,
    List.filterMap_eq_flatMap_toList, List.flatMap_assoc]
  refine List.flatMap_congr fun m _ => ?_
  rw [flatChild]
  cases m.explore? step.1 step.2 <;> simp

theorem UnderWay.flatChild_eq_nil_iff (ht : t.UnderWay) :
    flatChild step t = [] ↔ t.explore? step.1 step.2 = none := by
  rw [flatChild]
  cases hu : t.explore? step.1 step.2 with
  | none => exact iff_of_true rfl rfl
  | some u => exact iff_of_false (hereditary_underWay.explore? ht hu).flat_ne_nil nofun

/-- The step of a recursion depends only on what its point comes to. -/
theorem flatChild_recursive (limit : Limit) (sequence : Selector) {current : Selector}
    (hcurrent : current.UnderWay) (step : Node × Segment) :
    flatChild step (.recursive limit sequence current) =
      if flatChild step current = [] then []
      else (advance? limit sequence (.union (flatChild step current))).elim [] flat := by
  cases hnext : current.explore? step.1 step.2 with
  | none => rw [if_pos (hcurrent.flatChild_eq_nil_iff.2 hnext), flatChild, explore?, hnext]; rfl
  | some next =>
    rw [flatChild_of_explore? hnext,
      if_neg (hereditary_underWay.explore? hcurrent hnext).flat_ne_nil, flatChild, explore?, hnext]
    exact flat_advance?_congr limit sequence (flat_union_flat next).symm

/-- A step takes the members one by one. -/
theorem UnderWay.flatChild_eq_flatMap (ht : t.UnderWay) (step : Node × Segment) :
    flatChild step t = t.flat.flatMap (flatChild step) := by
  induction ht with
  | union _ _ ih =>
    rw [flatChild_union, flat_union, List.flatMap_assoc]
    exact List.flatMap_congr ih
  | recursive _ _ _ rest ih =>
    rw [flat, List.flatMap_singleton, flatChild_recursive _ _ rest,
      flatChild_recursive _ _ rest.union_flat, flatChild_union, ih]
  | _ => exact (List.flatMap_singleton _ _).symm

/-! ## Several steps -/

theorem exploreAlong?_append (t : Selector) (steps rest : List (Node × Segment)) :
    t.exploreAlong? (steps ++ rest) = (t.exploreAlong? steps).bind fun u => u.exploreAlong? rest :=
  List.foldlM_append

theorem exploreAlong?_concat (t : Selector) (steps : List (Node × Segment))
    (step : Node × Segment) :
    t.exploreAlong? (steps ++ [step]) =
      (t.exploreAlong? steps).bind fun u => u.explore? step.1 step.2 := by
  rw [exploreAlong?_append]
  cases t.exploreAlong? steps with
  | none => rfl
  | some u => exact bind_pure _

def flatAlong (t : Selector) (steps : List (Node × Segment)) : List Selector :=
  (t.exploreAlong? steps).elim [] flat

theorem flatAlong_nil (t : Selector) : t.flatAlong [] = t.flat := rfl

theorem exists_exploreAlong?_of_flatAlong {steps : List (Node × Segment)}
    (h : t.flatAlong steps ≠ []) :
    ∃ u, t.exploreAlong? steps = some u ∧ t.flatAlong steps = u.flat := by
  obtain ⟨u, hu⟩ := Option.ne_none_iff_exists'.1 fun hnone : t.exploreAlong? steps = none =>
    h (by rw [flatAlong, hnone, Option.elim_none])
  exact ⟨u, hu, by rw [flatAlong, hu, Option.elim_some]⟩

theorem UnderWay.flatAlong_concat (ht : t.UnderWay) (steps : List (Node × Segment))
    (step : Node × Segment) :
    t.flatAlong (steps ++ [step]) = (t.flatAlong steps).flatMap (flatChild step) := by
  rw [flatAlong, exploreAlong?_concat, flatAlong]
  cases hu : t.exploreAlong? steps with
  | none => rfl
  | some u => exact (hereditary_underWay.exploreAlong? ht hu).flatChild_eq_flatMap step

/-- A run takes the members one by one. -/
theorem UnderWay.flatAlong_eq_flatMap (ht : t.UnderWay) (steps : List (Node × Segment)) :
    t.flatAlong steps = t.flat.flatMap fun m => m.flatAlong steps := by
  induction steps using List.reverseRecOn with
  | nil =>
    simp only [flatAlong_nil]
    rw [List.flatMap_congr fun m hm => flat_of_mem_flat hm, List.flatMap_singleton']
  | append_singleton steps step ih =>
    rw [ht.flatAlong_concat, ih, List.flatMap_assoc]
    exact List.flatMap_congr fun m hm => ((ht.of_mem_flat hm).flatAlong_concat steps step).symm

end DagSelect.Selector
