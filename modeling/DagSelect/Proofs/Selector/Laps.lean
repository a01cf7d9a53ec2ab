import DagSelect.Proofs.Selector.FiniteState
import DagSelect.Proofs.Population
import Mathlib.Algebra.BigOperators.Group.Multiset.Basic
import Mathlib.Algebra.Order.BigOperators.Group.Finset
import Mathlib.Algebra.Order.Group.Multiset
import Mathlib.Data.Multiset.Bind

/-!
# The laps of an endless recursion

Every edge that an endless recursion comes to puts another copy of the sequence at its point, and
from there the copy goes on by itself, without edges, which begin copies of their own. So what is at
the point after a run is the sum, over all the beginnings of copies, of what is left of each
(`pointAfter_eq_sum`).

The steps made so far are listed with the latest first here.
-/

namespace DagSelect.Selector

/-! ## What is at the point -/

def onward (step : Node × Segment) : Multiset Selector →+ Multiset Selector where
  toFun M := M.bind fun m => ↑(flatChild step m)
  map_zero' := Multiset.zero_bind _
  map_add' M N := Multiset.add_bind M N _

/-- The same without the edges that come up. -/
def onwardWithin (step : Node × Segment) : Multiset Selector →+ Multiset Selector where
  toFun M := (onward step M).filter (· ≠ .edge)
  map_zero' := by rw [map_zero, Multiset.filter_zero]
  map_add' M N := by rw [map_add, Multiset.filter_add]

def restarted (sequence : Selector) : Multiset Selector →+ Multiset Selector where
  toFun M := M.bind fun m => if m = .edge then ↑sequence.flat else {m}
  map_zero' := Multiset.zero_bind _
  map_add' M N := Multiset.add_bind M N _

theorem onward_apply (step : Node × Segment) (M : Multiset Selector) :
    onward step M = M.bind fun m => ↑(flatChild step m) := rfl

theorem onwardWithin_apply (step : Node × Segment) (M : Multiset Selector) :
    onwardWithin step M = (onward step M).filter (· ≠ .edge) := rfl

theorem restarted_apply (sequence : Selector) (M : Multiset Selector) :
    restarted sequence M = M.bind fun m => if m = .edge then ↑sequence.flat else {m} := rfl

variable (sequence : Selector)

/-- What an endless recursion has at its point, laid flat, after it has started and made some
steps. -/
def pointAfter : List (Node × Segment) → Multiset Selector
  | [] => ↑sequence.flat
  | step :: past => restarted sequence (onward step (pointAfter past))

/-- How many copies of the sequence begin with the latest step. -/
def beginning : List (Node × Segment) → ℕ
  | [] => 1
  | step :: past => (onward step (pointAfter sequence past)).count .edge

/-- What is left of one copy that began before all of the steps. -/
def remains : List (Node × Segment) → Multiset Selector
  | [] => ↑sequence.flat
  | step :: past => onwardWithin step (remains past)

variable {sequence}

theorem restarted_singleton (sequence m : Selector) :
    restarted sequence {m} = if m = .edge then ↑sequence.flat else {m} :=
  Multiset.singleton_bind _ _

theorem restarted_eq (sequence : Selector) (M : Multiset Selector) :
    restarted sequence M = M.filter (· ≠ .edge) + M.count .edge • ↑sequence.flat := by
  induction M using Multiset.induction_on with
  | empty => rfl
  | cons m M ih =>
    rw [← Multiset.singleton_add, map_add, ih, Multiset.filter_add, Multiset.count_add, add_nsmul,
      restarted_singleton, Multiset.count_singleton, Multiset.filter_singleton]
    by_cases hm : m = .edge
    · subst hm
      simp only [if_true, ne_eq, not_true_eq_false, if_false, one_nsmul]
      rw [Multiset.empty_eq_zero, zero_add, add_left_comm]
    · rw [if_neg hm, if_pos hm, if_neg (Ne.symm hm), zero_nsmul, zero_add, add_assoc]

theorem pointAfter_cons (step : Node × Segment) (past : List (Node × Segment)) :
    pointAfter sequence (step :: past) =
      onwardWithin step (pointAfter sequence past) +
        beginning sequence (step :: past) • ↑sequence.flat :=
  restarted_eq _ _

/-- What is at the point is what is left of all the copies that have begun. -/
theorem pointAfter_eq_sum (past : List (Node × Segment)) :
    pointAfter sequence past = ∑ j ∈ Finset.range (past.length + 1),
      beginning sequence (past.drop j) • remains sequence (past.take j) := by
  induction past with
  | nil =>
    rw [List.length_nil, Finset.sum_range_one]
    exact (one_nsmul _).symm
  | cons step past ih =>
    rw [pointAfter_cons, ih, map_sum, List.length_cons, Finset.sum_range_succ' _ (past.length + 1)]
    simp only [map_nsmul, List.drop_succ_cons, List.take_succ_cons, List.drop_zero, List.take_zero,
      remains]

theorem card_pointAfter (past : List (Node × Segment)) :
    (pointAfter sequence past).card = ∑ j ∈ Finset.range (past.length + 1),
      beginning sequence (past.drop j) * (remains sequence (past.take j)).card := by
  rw [pointAfter_eq_sum, Multiset.card_sum]
  simp only [Multiset.card_nsmul]

theorem mem_pointAfter_iff {past : List (Node × Segment)} {m : Selector} :
    m ∈ pointAfter sequence past ↔
      ∃ v w, past = v ++ w ∧ 0 < beginning sequence w ∧ m ∈ remains sequence v := by
  rw [pointAfter_eq_sum, Multiset.mem_sum]
  simp only [Multiset.mem_nsmul, Finset.mem_range, Nat.lt_succ_iff]
  constructor
  · rintro ⟨j, -, hborn, hm⟩
    exact ⟨_, _, (List.take_append_drop j past).symm, Nat.pos_of_ne_zero hborn, hm⟩
  · rintro ⟨v, w, rfl, hborn, hm⟩
    refine ⟨v.length, by simp, ?_⟩
    rw [List.drop_left, List.take_left]
    exact ⟨hborn.ne', hm⟩

/-! ## Along a run -/

theorem onward_coe {t : Selector} (ht : t.UnderWay) (step : Node × Segment) :
    onward step ↑t.flat = ↑(flatChild step t) := by
  rw [ht.flatChild_eq_flatMap]
  exact Multiset.coe_bind _ _

theorem restarted_coe (sequence : Selector) (L : List Selector) :
    restarted sequence ↑L = ↑(L.flatMap fun m => if m = .edge then sequence.flat else [m]) := by
  rw [← Multiset.coe_bind, restarted_apply]
  refine Multiset.bind_congr fun m _ => ?_
  split <;> rfl

/-- An endless recursion moves on, with its sequence in the place of the edges that have come up. -/
theorem exists_advance?_endless (sequence next : Selector) :
    ∃ point, advance? .unbounded sequence next = some (.recursive .unbounded sequence point) ∧
      ↑point.flat = restarted sequence ↑next.flat := by
  rw [restarted_coe]
  cases hedge : next.hasEdge with
  | false =>
    refine ⟨next, advance?_within hedge, ?_⟩
    have hkept : ∀ m ∈ next.flat, (if m = .edge then sequence.flat else [m]) = [m] := by
      rintro m hm
      refine if_neg ?_
      rintro rfl
      exact Bool.eq_false_iff.1 hedge (edge_mem_flat_iff.1 hm)
    rw [List.flatMap_congr hkept, List.flatMap_singleton']
  | true =>
    obtain ⟨point, hpoint⟩ := exists_replaceEdges? hedge sequence
    refine ⟨point, by rw [advance?_round hedge rfl, hpoint]; rfl, ?_⟩
    have hflat := flat_replaceEdges? (some sequence) next
    rw [hpoint] at hflat
    exact congrArg _ hflat

/-- A run of an endless recursion comes to an end exactly when nothing is left at its point. -/
theorem exploreAlong?_endless (hunder : (recursion .unbounded sequence).UnderWay)
    (past : List (Node × Segment)) :
    ((recursion .unbounded sequence).exploreAlong? past.reverse = none ∧
        pointAfter sequence past = 0) ∨
      ∃ point, (recursion .unbounded sequence).exploreAlong? past.reverse =
          some (.recursive .unbounded sequence point) ∧
        point.UnderWay ∧ ↑point.flat = pointAfter sequence past := by
  induction past with
  | nil =>
    cases hunder with
    | recursive _ _ start _ => exact .inr ⟨sequence, rfl, start.underWay, rfl⟩
  | cons step past ih =>
    rw [List.reverse_cons, exploreAlong?_concat, pointAfter]
    rcases ih with ⟨hrun, hpoint⟩ | ⟨point, hrun, hpointUnder, hpoint⟩
    · rw [hrun, hpoint, map_zero, map_zero]
      exact .inl ⟨rfl, rfl⟩
    · rw [hrun, Option.bind_some, explore?, ← hpoint, onward_coe hpointUnder]
      cases hnext : point.explore? step.1 step.2 with
      | none =>
        rw [hpointUnder.flatChild_eq_nil_iff.2 hnext, Multiset.coe_nil, map_zero]
        exact .inl ⟨rfl, rfl⟩
      | some next =>
        obtain ⟨moved, hmoved, hflat⟩ := exists_advance?_endless sequence next
        have hnextUnder := hereditary_underWay.explore? hpointUnder hnext
        refine .inr ⟨moved, hmoved, ?_, flatChild_of_explore? hnext ▸ hflat⟩
        have hstep : (Selector.recursive .unbounded sequence point).explore? step.1 step.2 =
            some (.recursive .unbounded sequence moved) := by
          rw [explore?, hnext, Option.bind_some, hmoved]
        have hrunUnder := hereditary_underWay.exploreAlong? hunder hrun
        cases hereditary_underWay.explore? hrunUnder hstep with
        | recursive _ _ _ rest => exact rest

/-! ## What is left of a copy -/

/-- Edges are inert. -/
theorem onward_filter_edge (step : Node × Segment) (M : Multiset Selector) :
    onward step (M.filter (· ≠ .edge)) = onward step M := by
  have hedge : ∀ m ∈ M.filter (¬ · ≠ .edge), (↑(flatChild step m) : Multiset Selector) = 0 := by
    intro m hm
    rw [not_not.1 (Multiset.mem_filter.1 hm).2, flatChild_edge, Multiset.coe_nil]
  have hnone : onward step (M.filter (¬ · ≠ .edge)) = 0 :=
    (Multiset.bind_congr hedge).trans (Multiset.bind_zero _)
  rw [← add_zero (onward step _), ← hnone, ← map_add, Multiset.filter_add_not]

theorem onward_flatAlong {t : Selector} (ht : t.UnderWay) (step : Node × Segment)
    (past : List (Node × Segment)) :
    onward step ↑(t.flatAlong past.reverse) = ↑(t.flatAlong (step :: past).reverse) := by
  rw [List.reverse_cons, ht.flatAlong_concat]
  exact Multiset.coe_bind _ _

theorem onward_remains (hsequence : sequence.UnderWay) (step : Node × Segment)
    (past : List (Node × Segment)) :
    onward step (remains sequence past) = ↑(sequence.flatAlong (step :: past).reverse) := by
  induction past generalizing step with
  | nil => exact onward_flatAlong hsequence step []
  | cons last past ih =>
    rw [remains, onwardWithin_apply, onward_filter_edge, ih, onward_flatAlong hsequence]

/-- What is left of a copy is what its sequence comes to, without the edges that come up last. -/
theorem remains_cons (hsequence : sequence.UnderWay) (step : Node × Segment)
    (past : List (Node × Segment)) :
    remains sequence (step :: past) =
      ↑((sequence.flatAlong (step :: past).reverse).filter (· ≠ .edge)) := by
  rw [remains, onwardWithin_apply, onward_remains hsequence, Multiset.filter_coe]

theorem mem_flatAlong_of_mem_remains (hsequence : sequence.UnderWay) {past : List (Node × Segment)}
    {m : Selector} (hm : m ∈ remains sequence past) : m ∈ sequence.flatAlong past.reverse := by
  cases past with
  | nil => exact hm
  | cons step past =>
    rw [remains_cons hsequence] at hm
    exact List.mem_of_mem_filter hm

theorem mem_remains_of_mem_flatAlong (hsequence : sequence.UnderWay) {past : List (Node × Segment)}
    {m : Selector} (hm : m ∈ sequence.flatAlong past.reverse) (hedge : m ≠ .edge) :
    m ∈ remains sequence past := by
  cases past with
  | nil => exact hm
  | cons step past =>
    rw [remains_cons hsequence]
    exact List.mem_filter.2 ⟨hm, decide_eq_true hedge⟩

theorem card_remains_le (hsequence : sequence.UnderWay) (past : List (Node × Segment)) :
    (remains sequence past).card ≤ (sequence.flatAlong past.reverse).length := by
  cases past with
  | nil => exact Nat.le_refl _
  | cons step past =>
    rw [remains_cons hsequence]
    exact List.length_filter_le _ _

end DagSelect.Selector
