import DagSelect.Proofs.Selector.Flat
import Mathlib.Data.Set.Finite.Lattice
import Mathlib.Data.Finite.Prod
import Mathlib.Data.Set.Finite.List

/-!
# Selectors with finitely many states

A selector has finitely many states when all its runs together come to finitely many selectors, with
unions laid flat. A union does if its members do (`finiteState_iff`), a selector that leads on to
some others does if these do (`finiteState_of_explore?`), and a recursion with a limit does if its
sequence does, whatever the sequence is: there are only so many laps
(`FiniteState.recursive_depth`).

An endless recursion may still have infinitely many.
-/

namespace DagSelect.Selector

/-- All the runs together come to finitely many selectors, with unions laid flat. -/
def FiniteState (t : Selector) : Prop := (Set.range t.flatAlong).Finite

variable {t u : Selector} {steps : List (Node × Segment)}

theorem FiniteState.of_exploreAlong? (ht : t.FiniteState) (hu : t.exploreAlong? steps = some u) :
    u.FiniteState := by
  refine ht.subset ?_
  rintro _ ⟨rest, rfl⟩
  refine ⟨steps ++ rest, ?_⟩
  rw [flatAlong, exploreAlong?_append, hu]
  rfl

/-! ## Members -/

theorem finite_range_flatMap_flatAlong {members : List Selector}
    (h : ∀ m ∈ members, m.FiniteState) :
    (Set.range fun steps => members.flatMap fun m => m.flatAlong steps).Finite := by
  induction members with
  | nil => exact (Set.finite_singleton []).subset (by rintro _ ⟨_, rfl⟩; rfl)
  | cons m rest ih =>
    have hrest := ih fun n hn => h n (List.mem_cons_of_mem m hn)
    refine (Set.Finite.image2 (· ++ ·) (h m List.mem_cons_self) hrest).subset ?_
    rintro _ ⟨steps, rfl⟩
    exact ⟨_, ⟨steps, rfl⟩, _, ⟨steps, rfl⟩, by simp only [List.flatMap_cons]⟩

theorem UnderWay.finiteState_iff (ht : t.UnderWay) :
    t.FiniteState ↔ ∀ m ∈ t.flat, m.FiniteState := by
  have halong : t.flatAlong = fun steps => t.flat.flatMap fun m => m.flatAlong steps :=
    funext ht.flatAlong_eq_flatMap
  constructor
  · intro h m hm
    refine (h.biUnion fun L _ => List.finite_toSet L.sublists).subset ?_
    rintro _ ⟨steps, rfl⟩
    refine Set.mem_biUnion (Set.mem_range_self steps) (List.mem_sublists.2 ?_)
    rw [halong]
    exact List.sublist_flatten_of_mem (List.mem_map_of_mem hm)
  · intro h
    rw [FiniteState, halong]
    exact finite_range_flatMap_flatAlong h

/-! ## Closed sets of states -/

theorem flat_of_mem_flatAlong {m : Selector} (hm : m ∈ t.flatAlong steps) : m.flat = [m] := by
  obtain ⟨u, -, hflat⟩ := exists_exploreAlong?_of_flatAlong (List.ne_nil_of_mem hm)
  exact flat_of_mem_flat (hflat ▸ hm)

/-- Finitely many states that are left only for others which have finitely many states
themselves. -/
theorem UnderWay.finiteState_of_closed {X Y : Set (List Selector)} (hX : X.Finite) (hY : Y.Finite)
    (closed : ∀ L ∈ X, ∀ step, L.flatMap (flatChild step) ∈ X ∪ Y)
    (each : ∀ L ∈ Y, ∀ m ∈ L, m.UnderWay ∧ m.FiniteState) (ht : t.UnderWay) (hstart : t.flat ∈ X) :
    t.FiniteState := by
  have hleft := hY.biUnion fun L hL => finite_range_flatMap_flatAlong fun m hm => (each L hL m hm).2
  refine (hX.union hleft).subset ?_
  rintro _ ⟨steps, rfl⟩
  simp only [Set.mem_union, Set.mem_iUnion, Set.mem_range, exists_prop]
  induction steps using List.reverseRecOn with
  | nil => exact .inl hstart
  | append_singleton steps step ih =>
    have hconcat := ht.flatAlong_concat steps step
    rcases ih with hmem | ⟨L, hL, rest, hrest⟩
    · rcases closed _ hmem step with hmem | hmem
      · exact .inl (hconcat ▸ hmem)
      · refine .inr ⟨_, hconcat ▸ hmem, [], ?_⟩
        simp only [flatAlong_nil]
        rw [List.flatMap_congr fun m hm => flat_of_mem_flatAlong hm, List.flatMap_singleton']
    · refine .inr ⟨L, hL, rest ++ [step], ?_⟩
      rw [hconcat, ← hrest, List.flatMap_assoc]
      exact List.flatMap_congr fun m hm => (each L hL m hm).1.flatAlong_concat rest step

/-- What leads on only to finitely many selectors that have finitely many states. -/
theorem UnderWay.finiteState_of_explore? (ht : t.UnderWay) (hflat : t.flat = [t]) {N : Set Selector}
    (hN : N.Finite) (leads : ∀ parent s u, t.explore? parent s = some u → u ∈ N)
    (each : ∀ u ∈ N, u.UnderWay ∧ u.FiniteState) : t.FiniteState := by
  refine ht.finiteState_of_closed (Set.finite_singleton t.flat)
    ((hN.image flat).insert []) ?_ ?_ rfl
  · rintro L rfl step
    refine .inr ?_
    rw [hflat, List.flatMap_singleton, flatChild]
    cases hu : t.explore? step.1 step.2 with
    | none => exact Set.mem_insert [] _
    | some u => exact Set.mem_insert_of_mem _ ⟨u, leads _ _ u hu, rfl⟩
  · rintro L (rfl | ⟨u, hu, rfl⟩) m hm
    · cases hm
    · exact ⟨(each u hu).1.of_mem_flat hm, ((each u hu).1.finiteState_iff).1 (each u hu).2 m hm⟩

/-! ## Recursions with a limit -/

def reached (t : Selector) : Set (List Selector) :=
  {L | ∃ steps, ∃ u ∈ t.exploreAlong? steps, u.flat = L}

theorem FiniteState.finite_reached (ht : t.FiniteState) : t.reached.Finite := by
  refine ht.subset ?_
  rintro _ ⟨steps, u, hu, rfl⟩
  exact ⟨steps, by rw [flatAlong, Option.mem_def.1 hu]; rfl⟩

section

variable {limit : Limit} {sequence current : Selector}

/-- Between two laps a recursion is at a point that is reached from the one at which the lap
began. -/
theorem flatChild_recursive_of_reached {L : List Selector} (hcurrent : current.UnderWay)
    (hL : L ∈ current.reached) (step : Node × Segment) :
    flatChild step (.recursive limit sequence (.union L)) = [] ∨
      ∃ K ∈ current.reached, flatChild step (.recursive limit sequence (.union L)) =
        if .edge ∈ K then (advance? limit sequence (.union K)).elim [] flat
        else [.recursive limit sequence (.union K)] := by
  obtain ⟨steps, u, hu, rfl⟩ := hL
  have hunder := hereditary_underWay.exploreAlong? hcurrent hu
  rw [flatChild_recursive _ _ hunder.union_flat, flatChild_union, ← hunder.flatChild_eq_flatMap]
  cases hv : u.explore? step.1 step.2 with
  | none => exact .inl (if_pos (hunder.flatChild_eq_nil_iff.2 hv))
  | some v =>
    have hreached : v.flat ∈ current.reached := by
      refine ⟨steps ++ [step], v, ?_, rfl⟩
      rw [Option.mem_def, exploreAlong?_concat, Option.mem_def.1 hu, Option.bind_some, hv]
    refine .inr ⟨v.flat, hreached, ?_⟩
    rw [flatChild_of_explore? hv, if_neg (hereditary_underWay.explore? hunder hv).flat_ne_nil]
    split
    · rfl
    · next hedge =>
      rw [← flat_union_flat, edge_mem_flat_iff, Bool.not_eq_true] at hedge
      rw [advance?_within hedge, Option.elim_some, flat, flat_union_flat]

/-- A recursion has finitely many states if the point it has reached has, and if what it goes on
with at the end of the lap has. -/
theorem UnderWay.finiteState_recursive
    (hunder : (Selector.recursive limit sequence current).UnderWay) (hcurrent : current.FiniteState)
    (laps : ∀ K ∈ current.reached, .edge ∈ K →
      ∀ m ∈ (advance? limit sequence (.union K)).elim [] flat, m.UnderWay ∧ m.FiniteState) :
    (Selector.recursive limit sequence current).FiniteState := by
  have hpoint : current.UnderWay := by
    cases hunder with
    | recursive _ _ _ rest => exact rest
  have hreached := hcurrent.finite_reached
  let within (L : List Selector) : List Selector := [.recursive limit sequence (.union L)]
  let ended (K : List Selector) : List Selector := (advance? limit sequence (.union K)).elim [] flat
  refine hunder.finiteState_of_closed (X := insert [] (within '' current.reached))
    (Y := ended '' {K ∈ current.reached | .edge ∈ K}) ((hreached.image within).insert [])
    ((hreached.sep _).image ended) ?_ ?_ ?_
  · rintro L (rfl | ⟨L, hL, rfl⟩) step
    · exact .inl (Set.mem_insert [] _)
    · rw [List.flatMap_singleton]
      rcases flatChild_recursive_of_reached hpoint hL step with h | ⟨K, hK, h⟩
      · rw [h]
        exact .inl (Set.mem_insert [] _)
      · rw [h]
        split
        · next hedge => exact .inr ⟨K, ⟨hK, hedge⟩, rfl⟩
        · exact .inl (Set.mem_insert_of_mem _ ⟨K, hK, rfl⟩)
  · rintro _ ⟨K, ⟨hK, hedge⟩, rfl⟩ m hm
    exact laps K hK hedge m hm
  · exact Set.mem_insert_of_mem _ ⟨current.flat, ⟨[], current, rfl, rfl⟩, rfl⟩

/-- However many laps it has left, a recursion with a limit has finitely many states if its sequence
and the point it has reached have. -/
theorem FiniteState.recursive_depth (hsequence : sequence.FiniteState) {laps : Nat}
    (hunder : (Selector.recursive (.depth laps) sequence current).UnderWay)
    (hcurrent : current.FiniteState) :
    (Selector.recursive (.depth laps) sequence current).FiniteState := by
  induction laps using Nat.strong_induction_on generalizing current with
  | _ laps ih =>
  cases hunder with
  | recursive writable returns start rest =>
  refine UnderWay.finiteState_recursive (.recursive writable returns start rest) hcurrent ?_
  rintro K ⟨steps, u, hu, rfl⟩ hedge m hm
  have hunder := hereditary_underWay.exploreAlong? rest hu
  have heach := hunder.finiteState_iff.1 (hcurrent.of_exploreAlong? hu)
  rw [← flat_union_flat, edge_mem_flat_iff] at hedge
  cases hlast : (Limit.depth laps).isLast with
  | true =>
    rw [advance?_last hedge hlast] at hm
    rcases mem_flat_replaceEdges? hm with hm | hm
    · rw [flat_union_flat] at hm
      exact ⟨hunder.of_mem_flat hm, heach m hm⟩
    · cases hm
  | false =>
    obtain ⟨point, hpoint⟩ := exists_replaceEdges? hedge sequence
    have hpointUnder := hereditary_underWay.replaceEdges? hunder.union_flat
      (by rintro r ⟨⟩; exact start.underWay) hpoint
    have hpointStates : point.FiniteState := by
      refine hpointUnder.finiteState_iff.2 fun n hn => ?_
      have hmem : n ∈ ((Selector.union u.flat).replaceEdges? (some sequence)).elim [] flat :=
        hpoint ▸ hn
      rcases mem_flat_replaceEdges? hmem with hn | hn
      · exact heach n (flat_union_flat u ▸ hn)
      · exact start.underWay.finiteState_iff.1 hsequence n hn
    have hmoved : (Selector.recursive (Limit.depth laps).decrement sequence point).UnderWay :=
      .recursive writable.decrement returns start hpointUnder
    have hlaps : ¬ laps < 2 := of_decide_eq_false hlast
    have hstates := ih (laps - 1) (by omega) hmoved hpointStates
    rw [advance?_round hedge hlast, hpoint] at hm
    exact ⟨hmoved.of_mem_flat hm, hmoved.finiteState_iff.1 hstates m hm⟩

end

end DagSelect.Selector
