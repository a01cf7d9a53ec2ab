import DagSelect.Proofs.Selector.Step

/-!
# Bounded selectors get lighter

A selector is bounded when every recursion in it has a limit, those inside others included.
Exploring may make such a selector larger, since an edge becomes a whole copy of the sequence, but
it never goes deeper than the laps that are left allow. `weight` counts the steps that are left: the
steps up to the end of the lap under way and those of the whole laps behind it. Every step spends
some of it (`Bounded.weight_explore?_lt`), and the selector it gives is bounded too
(`Bounded.explore?`).
-/

namespace DagSelect

/-- The number of laps behind the one under way; an endless recursion is not counted. -/
def Limit.lapsBehind : Limit → Nat
  | .depth laps => max laps 1 - 1
  | .unbounded => 0

namespace Selector

inductive Bounded : Selector → Prop
  | matcher : Bounded .matcher
  | all {next : Selector} : Bounded next → Bounded (.all next)
  | fields {selections : List (String × Selector)} :
      (∀ e ∈ selections, Bounded e.2) → Bounded (.fields selections)
  | index {position : Int64} {next : Selector} : Bounded next → Bounded (.index position next)
  | range {start stop : Int64} {next : Selector} : Bounded next → Bounded (.range start stop next)
  | union {members : List Selector} : (∀ m ∈ members, Bounded m) → Bounded (.union members)
  | recursive {laps : Nat} {sequence current : Selector} :
      Bounded sequence → Bounded current → Bounded (.recursive (.depth laps) sequence current)
  | edge : Bounded .edge

mutual
/-- How many steps a bounded selector can lead on for. -/
def weight : Selector → Nat
  | .matcher => 0
  | .edge => 0
  | .all next => 1 + weight next
  | .fields selections => 1 + weightSelections selections
  | .index _ next => 1 + weight next
  | .range _ _ next => 1 + weight next
  | .union members => weightMembers members
  | .recursive limit sequence current => weight current + limit.lapsBehind * weight sequence

def weightSelections : List (String × Selector) → Nat
  | [] => 0
  | (_, s) :: rest => max (weight s) (weightSelections rest)

def weightMembers : List Selector → Nat
  | [] => 0
  | s :: rest => max (weight s) (weightMembers rest)
end

theorem weightSelections_le_iff {selections : List (String × Selector)} {k : Nat} :
    weightSelections selections ≤ k ↔ ∀ e ∈ selections, e.2.weight ≤ k := by
  induction selections with
  | nil => simp [weightSelections]
  | cons e rest ih => rw [weightSelections, Nat.max_le, ih, List.forall_mem_cons]

theorem weightMembers_le_iff {members : List Selector} {k : Nat} :
    weightMembers members ≤ k ↔ ∀ m ∈ members, m.weight ≤ k := by
  induction members with
  | nil => simp [weightMembers]
  | cons m rest ih => rw [weightMembers, Nat.max_le, ih, List.forall_mem_cons]

theorem weight_le_of_mem_union {members : List Selector} {m : Selector} (hm : m ∈ members) :
    m.weight ≤ (Selector.union members).weight :=
  weightMembers_le_iff.1 (Nat.le_refl _) m hm

theorem weight_le_of_mem_fields {selections : List (String × Selector)} {e : String × Selector}
    (he : e ∈ selections) : e.2.weight < (Selector.fields selections).weight := by
  have := weightSelections_le_iff.1 (Nat.le_refl _) e he
  rw [weight]
  omega

theorem weight_collapse?_le {members : List Selector} {t : Selector} {k : Nat}
    (ht : collapse? members = some t) (h : ∀ m ∈ members, m.weight ≤ k) : t.weight ≤ k :=
  collapse?_rec ht h (weightMembers_le_iff.2 h)

/-! ## Rewriting edges -/

theorem weight_replaceEdges?_le {replacement : Option Selector} {t u : Selector} {k : Nat}
    (hu : t.replaceEdges? replacement = some u) (ht : t.weight ≤ k)
    (hr : ∀ r ∈ replacement, r.weight ≤ k) : u.weight ≤ k := by
  refine replaceEdges?_rec (P := fun t u => t.weight ≤ k → u.weight ≤ k) ?_ ?_ ?_ hu ht
  · intro r h _
    exact hr r h
  · intro t _ h
    exact h
  · intro members results u each hu h
    apply weight_collapse?_le hu
    intro r hrm
    obtain ⟨m, hm, hmr⟩ := each r hrm
    exact hmr (Nat.le_trans (weight_le_of_mem_union hm) h)

/-! ## Steps -/

theorem hereditary_bounded : Hereditary Bounded where
  all := fun (.all h) => h
  fields := fun (.fields h) => h
  index := fun (.index h) => h
  range := fun (.range h) => h
  member := fun (.union h) => h
  sequence := fun (.recursive h _) => h
  current := fun (.recursive _ h) => h
  union := fun _ => .union
  moved := fun (.recursive hsequence _) hnext => .recursive hsequence hnext
  decrement := fun _ (.recursive hsequence hcurrent) => .recursive hsequence hcurrent

theorem Bounded.explore? {parent : Node} {s : Segment} {t u : Selector} (ht : t.Bounded)
    (hu : t.explore? parent s = some u) : u.Bounded :=
  hereditary_bounded.explore? ht hu

/-- A lap that begins anew weighs no more than the lap behind the one under way. -/
theorem weight_advance?_lt {laps : Nat} {sequence current next u : Selector}
    (hnext : next.weight < current.weight) (hu : advance? (.depth laps) sequence next = some u) :
    u.weight < (Selector.recursive (.depth laps) sequence current).weight := by
  rcases advance?_cases hu with ⟨-, rfl⟩ | ⟨-, -, hrest⟩ | ⟨-, hlast, moved, hmoved, rfl⟩
  · rw [weight, weight]
    omega
  · have hle := weight_replaceEdges?_le hrest (Nat.le_refl _) nofun
    rw [weight]
    omega
  · have hle : moved.weight ≤ max next.weight sequence.weight := by
      refine weight_replaceEdges?_le hmoved (Nat.le_max_left _ _) ?_
      rintro r ⟨⟩
      exact Nat.le_max_right _ _
    have hlaps : ¬ laps < 2 := of_decide_eq_false hlast
    have hbehind : (Limit.depth laps).lapsBehind = (Limit.depth laps).decrement.lapsBehind + 1 := by
      simp only [Limit.decrement, Limit.lapsBehind]
      omega
    rw [weight, weight, hbehind, Nat.add_mul, Nat.one_mul]
    omega

/-- Every step spends weight, also the step that puts the sequence in the place of an edge. -/
theorem Bounded.weight_explore?_lt {parent : Node} {s : Segment} {t u : Selector} (ht : t.Bounded)
    (hu : t.explore? parent s = some u) : u.weight < t.weight := by
  refine explore?_rec (P := fun t u => t.Bounded → u.weight < t.weight) ?_ ?_ ?_ ?_ ?_ ?_ hu ht
  · intro next _
    rw [weight]
    omega
  · intro selections e he _
    exact weight_le_of_mem_fields he
  · intro i next _
    rw [weight]
    omega
  · intro start stop next _
    rw [weight]
    omega
  · rintro members results u each hu ⟨⟩
    next hmembers =>
      have hresults : ∀ r ∈ results, r.weight < (Selector.union members).weight := by
        intro r hr
        obtain ⟨m, hm, hmr⟩ := each r hr
        exact Nat.lt_of_lt_of_le (hmr (hmembers m hm)) (weight_le_of_mem_union hm)
      obtain ⟨r, hr⟩ := List.exists_mem_of_ne_nil _ (ne_nil_of_collapse?_eq_some hu)
      have := weight_collapse?_le hu fun r hr => Nat.le_sub_one_of_lt (hresults r hr)
      have := hresults r hr
      omega
  · rintro limit sequence current next u hnext hu ⟨⟩
    next hsequence hcurrent => exact weight_advance?_lt (hnext hcurrent) hu

theorem Bounded.length_add_weight_le {t u : Selector} (ht : t.Bounded)
    {steps : List (Node × Segment)} (hu : t.exploreAlong? steps = some u) :
    steps.length + u.weight ≤ t.weight := by
  induction steps generalizing t with
  | nil =>
    cases hu
    exact Nat.le_of_eq (Nat.zero_add _)
  | cons step rest ih =>
    rw [exploreAlong?, List.foldlM_cons] at hu
    obtain ⟨v, hv, hrest⟩ := Option.bind_eq_some_iff.1 hu
    have hlighter := ht.weight_explore?_lt hv
    have hleft := ih (ht.explore? hv) hrest
    rw [List.length_cons]
    omega

end Selector

end DagSelect
