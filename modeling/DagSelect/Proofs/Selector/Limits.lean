import DagSelect.Proofs.Selector.Outcome

/-!
# More laps lose nothing

A recursion that may go round more often finds at least what it finds with fewer laps, although the
two stop to look alike as soon as the one with fewer laps is done: what is left of its sequence goes
on bare, while the other one goes on around the same remainder and around the sequence at its start
again.

That is why the comparison is not one of states but of what they find (`MatchesAlong`). Dropping
edges loses nothing, putting something in for them adds to what is found
(`exists_replaceEdges?_iff`), and so a recursion finds whatever the point finds that it has reached
(`MatchesAlong.recursive`), however many edges it takes for its own later.
-/

namespace DagSelect

/-! ## The order of limits -/

inductive Limit.Le : Limit → Limit → Prop
  | depth {laps laps' : Nat} (h : laps ≤ laps') : Le (.depth laps) (.depth laps')
  | unbounded (limit : Limit) : Le limit .unbounded

instance : LE Limit := ⟨Limit.Le⟩

namespace Limit

theorem Le.decrement {l l' : Limit} (h : l ≤ l') : l.decrement ≤ l'.decrement := by
  cases h with
  | depth h => exact .depth (Nat.sub_le_sub_right h 1)
  | unbounded l => exact .unbounded l.decrement

theorem Le.isLast {l l' : Limit} (h : l ≤ l') (hlast : l'.isLast = true) : l.isLast = true := by
  cases h with
  | depth h =>
    simp only [Limit.isLast, decide_eq_true_eq] at hlast ⊢
    omega
  | unbounded l => cases hlast

end Limit

namespace Selector

/-! ## What is found along some steps -/

def MatchesAlong (t : Selector) (steps : List (Node × Segment)) : Prop :=
  t.outcome? steps = some true

variable {t : Selector} {parent : Node} {s : Segment} {steps rest : List (Node × Segment)}

theorem matchesAlong_iff :
    t.MatchesAlong steps ↔ ∃ u, t.exploreAlong? steps = some u ∧ u.isMatch = true :=
  Option.map_eq_some_iff

theorem matchesAlong_nil : t.MatchesAlong [] ↔ t.isMatch = true := by
  rw [MatchesAlong, outcome?_nil, Option.some.injEq]

theorem matchesAlong_cons :
    t.MatchesAlong ((parent, s) :: rest) ↔ ∃ u ∈ t.explore? parent s, u.MatchesAlong rest := by
  rw [MatchesAlong, outcome?_cons, Option.bind_eq_some_iff]
  rfl

theorem not_matchesAlong_edge (steps : List (Node × Segment)) : ¬ MatchesAlong .edge steps := by
  cases steps with
  | nil => simp [matchesAlong_nil, isMatch]
  | cons step rest =>
    obtain ⟨parent, s⟩ := step
    simp [matchesAlong_cons, explore?]

/-- A union finds what any of its members finds. -/
theorem matchesAlong_union_iff (members : List Selector) :
    (Selector.union members).MatchesAlong steps ↔ ∃ m ∈ members, m.MatchesAlong steps := by
  induction steps generalizing members with
  | nil => simp only [matchesAlong_nil, isMatch, anyMatch_eq_any, List.any_eq_true]
  | cons step rest ih =>
    obtain ⟨parent, s⟩ := step
    have hleft := exists_collapse?_iff (P := fun u => u.MatchesAlong rest) fun ms _ => ih ms
    simp only [matchesAlong_cons, explore?, exploreIn_eq_filterMap, hleft, List.mem_filterMap]
    constructor
    · rintro ⟨u, ⟨m, hm, hu⟩, hrest⟩
      exact ⟨m, hm, u, hu, hrest⟩
    · rintro ⟨m, hm, u, hu, hrest⟩
      exact ⟨u, ⟨m, hm, hu⟩, hrest⟩

/-- Rewriting edges adds what is put in for them, and nothing is lost with the edges themselves. -/
theorem exists_replaceEdges?_iff (replacement : Option Selector) (t : Selector) :
    (∃ u ∈ t.replaceEdges? replacement, u.MatchesAlong steps) ↔
      t.MatchesAlong steps ∨ (t.hasEdge = true ∧ ∃ r ∈ replacement, r.MatchesAlong steps) := by
  induction t with
  | edge => simp [replaceEdges?, hasEdge, not_matchesAlong_edge]
  | union members ih =>
    have hleft := exists_collapse?_iff (P := fun u => u.MatchesAlong steps) fun ms _ =>
      matchesAlong_union_iff ms
    rw [replaceEdges?, hleft, replaceEdgesIn_eq_filterMap, matchesAlong_union_iff, hasEdge,
      anyEdge_eq_any, List.any_eq_true]
    simp only [List.mem_filterMap]
    constructor
    · rintro ⟨u, ⟨m, hm, hu⟩, hsteps⟩
      rcases (ih m hm).1 ⟨u, hu, hsteps⟩ with hmatch | ⟨hedge, hr⟩
      · exact .inl ⟨m, hm, hmatch⟩
      · exact .inr ⟨⟨m, hm, hedge⟩, hr⟩
    · rintro (⟨m, hm, hmatch⟩ | ⟨⟨m, hm, hedge⟩, hr⟩)
      · obtain ⟨u, hu, hsteps⟩ := (ih m hm).2 (.inl hmatch)
        exact ⟨u, ⟨m, hm, hu⟩, hsteps⟩
      · obtain ⟨u, hu, hsteps⟩ := (ih m hm).2 (.inr ⟨hedge, hr⟩)
        exact ⟨u, ⟨m, hm, hu⟩, hsteps⟩
  | _ => simp [replaceEdges?, hasEdge]

/-! ## Recursions -/

variable {limit limit' : Limit} {sequence current next : Selector}

theorem matchesAlong_recursive_cons :
    (Selector.recursive limit sequence current).MatchesAlong ((parent, s) :: rest) ↔
      ∃ next ∈ current.explore? parent s,
        ∃ u ∈ advance? limit sequence next, u.MatchesAlong rest := by
  simp only [matchesAlong_cons, explore?, Option.mem_def, Option.bind_eq_some_iff]
  constructor
  · rintro ⟨u, ⟨next, hnext, hu⟩, hrest⟩
    exact ⟨next, hnext, u, hu, hrest⟩
  · rintro ⟨next, hnext, u, hu, hrest⟩
    exact ⟨u, ⟨next, hnext, hu⟩, hrest⟩

/-- If a recursion finds whatever the point finds that it has reached, then it still does so when it
has moved on to another point. -/
theorem exists_advance?_of_matchesAlong (hnext : next.MatchesAlong rest)
    (h : ∀ limit current, current.MatchesAlong rest →
      (Selector.recursive limit sequence current).MatchesAlong rest) :
    ∃ u ∈ advance? limit sequence next, u.MatchesAlong rest := by
  have hkept (replacement : Option Selector) :=
    (exists_replaceEdges?_iff replacement next).2 (.inl hnext)
  cases hedge : next.hasEdge with
  | false => exact ⟨_, advance?_within hedge, h limit next hnext⟩
  | true =>
    cases hlast : limit.isLast with
    | true =>
      rw [advance?_last hedge hlast]
      exact hkept none
    | false =>
      obtain ⟨current, hcurrent, hrest⟩ := hkept (some sequence)
      rw [advance?_round hedge hlast, Option.mem_def.1 hcurrent]
      exact ⟨_, rfl, h limit.decrement current hrest⟩

/-- A recursion finds whatever the point finds that it has reached. -/
theorem MatchesAlong.recursive (h : current.MatchesAlong steps) :
    (Selector.recursive limit sequence current).MatchesAlong steps := by
  induction steps generalizing limit current with
  | nil => exact matchesAlong_nil.2 (matchesAlong_nil.1 h)
  | cons step rest ih =>
    obtain ⟨next, hnext, hrest⟩ := matchesAlong_cons.1 h
    exact matchesAlong_recursive_cons.2
      ⟨next, hnext, exists_advance?_of_matchesAlong hrest fun _ _ => ih⟩

/-- With a greater limit a recursion finds at the same point what it finds with a smaller one. -/
theorem MatchesAlong.of_limit_le (hlimit : limit ≤ limit')
    (h : (Selector.recursive limit sequence current).MatchesAlong steps) :
    (Selector.recursive limit' sequence current).MatchesAlong steps := by
  induction steps generalizing limit limit' current with
  | nil => exact h
  | cons step rest ih =>
    obtain ⟨next, hnext, u, hu, hrest⟩ := matchesAlong_recursive_cons.1 h
    refine matchesAlong_recursive_cons.2 ⟨next, hnext, ?_⟩
    rcases advance?_cases hu with ⟨hedge, rfl⟩ | ⟨hedge, hlast, hu⟩
      | ⟨hedge, hlast, point, hpoint, rfl⟩
    · exact ⟨_, advance?_within hedge, ih hlimit hrest⟩
    · -- the smaller limit is used up, so from here on the point is followed bare
      have hbare : next.MatchesAlong rest := by
        rcases (exists_replaceEdges?_iff none next).1 ⟨u, hu, hrest⟩ with hbare | ⟨-, r, ⟨⟩, -⟩
        exact hbare
      exact exists_advance?_of_matchesAlong hbare fun _ _ => MatchesAlong.recursive
    · have hlast' : limit'.isLast = false :=
        Bool.eq_false_iff.2 fun h => Bool.false_ne_true (hlast.symm.trans (hlimit.isLast h))
      rw [advance?_round hedge hlast', hpoint]
      exact ⟨_, rfl, ih hlimit.decrement hrest⟩

/-- Where a recursion comes to a result with a limit, it comes to one with any limit that allows no
fewer laps, along the same steps. -/
theorem exists_match_of_limit_le (sequence : Selector) {limit limit' : Limit}
    (hlimit : limit ≤ limit') (steps : List (Node × Segment)) {t : Selector}
    (ht : (Selector.recursion limit sequence).exploreAlong? steps = some t)
    (hmatch : t.isMatch = true) :
    ∃ t', (Selector.recursion limit' sequence).exploreAlong? steps = some t' ∧
      t'.isMatch = true := by
  have hfound : (Selector.recursion limit sequence).MatchesAlong steps :=
    matchesAlong_iff.2 ⟨t, ht, hmatch⟩
  exact matchesAlong_iff.1 (hfound.of_limit_le hlimit)

/-- Both edges of the sequence are near, a recursion inside leaves an edge of its own behind, and
the result lies two steps behind the last lap. -/
theorem exists_match_of_limit_le_stray_edge :
    let inner : Selector :=
      .recursion (.depth 1) (.all (.union [.edge, .all (.union [.edge, .all .matcher])]))
    let sequence : Selector := .union [.all .edge, .index 0 inner, .fields [("a", .all .edge)]]
    let parent : Node := .list [.list []]
    let steps := List.replicate 4 (parent, Segment.index 0)
    let run (limit : Limit) := (Selector.recursion limit sequence).exploreAlong? steps
    run (.depth 1) = some .matcher ∧ run (.depth 3) ≠ some .matcher ∧
      ∃ t, run (.depth 3) = some t ∧ t.isMatch = true := by
  intro inner sequence parent steps run
  have hrun : run (.depth 1) = some .matcher := by decide
  exact ⟨hrun, by decide, exists_match_of_limit_le sequence (.depth (by decide)) steps hrun rfl⟩

end Selector

end DagSelect
