import DagSelect.Proofs.Selector.Graft
import DagSelect.Proofs.Selector.Outcome

/-!
# Recursions and their unrollings

A recursion that goes round often enough does what the selector does that has its sequence written
out lap after lap. `unroll sequence laps` is that selector: a sequence at whose edges the next one
follows, and in the last one the edges are left. They mean that a child is not entered, which is how
`entered?` reads edges; it knows nothing of recursions, of limits or of rewriting.

The two agree on every run of steps when the edges of the sequence are all equally far away
(`outcome?_recursion`). A point that is reached within the recursion has then all its edges equally
far away too, so that all of them come up in the same step, and what stands for it in the unrolling
is that point with the laps that are left grafted on (`outcome?_recursive`, the simulation).
-/

namespace DagSelect.Selector

/-! ## Edges as children that are not entered -/

/-- What is left of a selector for a child when its edges are taken out, if there are any. -/
def enterable? (next : Selector) : Option Selector :=
  if .edge ∈ next.alternatives then
    match next.alternatives.filter (· ≠ .edge) with
    | [] => none
    | others => some (.union others)
  else some next

/-- Exploring, with edges meaning that the child is not entered. -/
def enter? (t : Selector) (parent : Node) (s : Segment) : Option Selector :=
  (t.explore? parent s).bind enterable?

/-- What comes of a run of such steps: nothing if one of them does not lead on, and otherwise
whether the node at the end is a result. -/
def entered? (t : Selector) : List (Node × Segment) → Option Bool
  | [] => some t.isMatch
  | (parent, s) :: rest => (t.enter? parent s).bind fun next => next.entered? rest

/-- The sequence written out for so many laps. -/
def unroll (sequence : Selector) : Nat → Selector
  | 0 => .edge
  | laps + 1 => graft (unroll sequence laps) sequence

theorem enterable?_of_hasEdge_eq_false {next : Selector} (h : next.hasEdge = false) :
    next.enterable? = some next := by
  rw [enterable?, if_neg]
  rw [edge_mem_alternatives_iff, h]
  exact Bool.false_ne_true

theorem enterable?_of_hasEdge {next : Selector} (h : next.hasEdge = true) :
    next.enterable? = match next.alternatives.filter (· ≠ .edge) with
      | [] => none
      | others => some (.union others) :=
  if_pos (edge_mem_alternatives_iff.2 h)

theorem enterable?_graft_of_hasEdge_eq_false {leaf next : Selector}
    (h : next.hasEdge = false ∨ leaf.hasEdge = false) :
    (graft leaf next).enterable? = some (graft leaf next) := by
  apply enterable?_of_hasEdge_eq_false
  rw [Bool.eq_false_iff]
  intro hgraft
  obtain ⟨hnext, hleaf⟩ := hasEdge_of_graft hgraft
  simp only [hnext, hleaf, Bool.true_eq_false, or_self] at h

/-! ## Without edges -/

/-- Where there are no edges it makes no difference what edges mean. -/
theorem entered?_eq_outcome? {t : Selector} (hfree : t.RecursionFree) (ht : ∀ k, ¬ t.EdgeAt k)
    (steps : List (Node × Segment)) : t.entered? steps = t.outcome? steps := by
  induction steps generalizing t with
  | nil => rfl
  | cons step rest ih =>
    obtain ⟨parent, s⟩ := step
    rw [entered?, enter?, outcome?_cons]
    cases hu : t.explore? parent s with
    | none => rfl
    | some u =>
      have hedges : ∀ k, ¬ u.EdgeAt k := fun k h => ht (k + 1) (hfree.edgeAt_succ hu h)
      have hedge : u.hasEdge = false := Bool.eq_false_iff.2 fun h => hedges 0 (edgeAt_zero_iff.2 h)
      rw [Option.bind_some, enterable?_of_hasEdge_eq_false hedge]
      exact ih (hereditary_recursionFree.explore? hfree hu) hedges

/-! ## The last lap -/

theorem RecursionFree.of_mem_alternatives {t m : Selector} (ht : t.RecursionFree)
    (hm : m ∈ t.alternatives) : m.RecursionFree := by
  refine mem_alternatives_rec (P := fun t m => t.RecursionFree → m.RecursionFree) ?_ ?_ hm ht
  · exact fun _ _ h => h
  · exact fun _ n hn _ ih h => ih (hereditary_recursionFree.member h n hn)

theorem EdgeAt.of_mem_alternatives {t m : Selector} {k : Nat} (hm : m ∈ t.alternatives)
    (h : m.EdgeAt k) : t.EdgeAt k := by
  refine mem_alternatives_rec (P := fun t m => m.EdgeAt k → t.EdgeAt k) ?_ ?_ hm h
  · exact fun _ _ h => h
  · exact fun _ n hn _ ih h => .union hn (ih h)

/-- An alternative that is no edge has no edge at the top. -/
theorem hasEdge_of_mem_alternatives {t m : Selector} (hm : m ∈ t.alternatives) (hne : m ≠ .edge) :
    m.hasEdge = false := by
  refine mem_alternatives_rec (P := fun _ m => m ≠ .edge → m.hasEdge = false) ?_ ?_ hm hne
  · intro t ht hne
    rw [Bool.eq_false_iff, Ne, ← edge_mem_alternatives_iff, ht, List.mem_singleton]
    exact hne.symm
  · exact fun _ _ _ _ ih => ih

/-- Dropping edges at the end of the last lap is not entering children there. -/
theorem Near.replaceEdges?_none_bind_outcome? {t : Selector} (hfree : t.RecursionFree)
    (ht : t.Near) (hedge : t.hasEdge = true) (steps : List (Node × Segment)) :
    ((t.replaceEdges? none).bind fun u => u.outcome? steps) =
      t.enterable?.bind fun u => u.entered? steps := by
  rw [Selector.replaceEdges?_none_bind_outcome?, enterable?_of_hasEdge hedge]
  have hothers : ∀ m ∈ t.alternatives.filter (· ≠ .edge),
      m.RecursionFree ∧ ∀ k, ¬ m.EdgeAt k := by
    intro m hm
    obtain ⟨hmem, hne⟩ := List.mem_filter.1 hm
    refine ⟨hfree.of_mem_alternatives hmem, fun k hk => ?_⟩
    obtain rfl := ht k (hk.of_mem_alternatives hmem)
    have := hasEdge_of_mem_alternatives hmem (of_decide_eq_true hne)
    rw [edgeAt_zero_iff.1 hk] at this
    cases this
  generalize t.alternatives.filter (· ≠ .edge) = others at hothers ⊢
  match others with
  | [] => rfl
  | m :: rest =>
    change _ = (Selector.union (m :: rest)).entered? steps
    rw [entered?_eq_outcome? (.union fun m hm => (hothers m hm).1),
      outcome?_union (List.cons_ne_nil m rest)]
    rintro k (_ | ⟨⟩)
    next h hm => exact (hothers _ hm).2 k h

/-! ## Another lap -/

/-- A lap of the unrolling that begins is the sequence, with one lap less grafted on. -/
theorem Near.entered?_graft {t u sequence : Selector} (ht : t.Near)
    (hu : t.replaceEdges? (some sequence) = some u) (leaf : Selector)
    (steps : List (Node × Segment)) :
    (graft (graft leaf sequence) t).entered? steps = (graft leaf u).entered? steps := by
  have hrewritten : t.replaceEdges? (some (graft leaf sequence)) = some (graft leaf u) := by
    rw [ht.replaceEdges?_graft, hu, Option.map_some]
  match steps with
  | [] =>
    rw [entered?, entered?, ht.isMatch_graft, hrewritten]
    rfl
  | (parent, s) :: rest =>
    rw [entered?, entered?, enter?, enter?, ht.explore?_graft, hrewritten]
    rfl

/-! ## The simulation -/

variable {sequence : Selector} {k : Nat}

theorem hasEdge_eq_false_of_edgeAt {t : Selector} {i : Nat} (hi : 1 ≤ i)
    (ht : ∀ j, t.EdgeAt j → j = i) : t.hasEdge = false := by
  rw [Bool.eq_false_iff]
  intro h
  have := ht 0 (edgeAt_zero_iff.2 h)
  omega

/-- A point of the recursion does what it does with the laps that are left grafted on. Endless
recursions have as many laps left as the run can get through. -/
theorem outcome?_recursive (hsequence : sequence.RecursionFree) (hk : 1 ≤ k)
    (hedges : ∀ j, sequence.EdgeAt j → j = k) (steps : List (Node × Segment)) :
    ∀ (limit : Limit) (current : Selector) (i laps : Nat),
      current.RecursionFree → 1 ≤ i → (∀ j, current.EdgeAt j → j = i) →
      (limit = .depth (laps + 1) ∨ limit = .unbounded ∧ steps.length < i + laps * k) →
      (Selector.recursive limit sequence current).outcome? steps =
        (graft (unroll sequence laps) current).entered? steps := by
  induction steps with
  | nil =>
    intro limit current i laps _ hi hcurrent _
    rw [outcome?_nil, entered?, isMatch, isMatch_graft (hasEdge_eq_false_of_edgeAt hi hcurrent)]
  | cons step rest ih =>
    intro limit current i laps hfree hi hcurrent hlimit
    obtain ⟨parent, s⟩ := step
    rw [outcome?_cons, explore?, entered?, enter?,
      explore?_graft hfree (hasEdge_eq_false_of_edgeAt hi hcurrent)]
    cases hnext : current.explore? parent s with
    | none => rfl
    | some next =>
      have hnextFree := hereditary_recursionFree.explore? hfree hnext
      have hnextEdges : ∀ j, next.EdgeAt j → j + 1 = i :=
        fun j hj => hcurrent (j + 1) (hfree.edgeAt_succ hnext hj)
      rw [List.length_cons] at hlimit
      rw [Option.bind_some, Option.map_some, Option.bind_some]
      cases hedge : next.hasEdge with
      | false =>
        rw [advance?_within hedge, enterable?_graft_of_hasEdge_eq_false (.inl hedge),
          Option.bind_some, Option.bind_some]
        by_cases hlap : 1 < i
        · refine ih limit next (i - 1) laps hnextFree (by omega) (fun j hj => ?_)
            (hlimit.imp_right (And.imp_right fun hshort => by omega))
          have := hnextEdges j hj
          omega
        · -- the edges that came up are gone, and without edges any distance will do
          refine ih limit next (rest.length + 1) laps hnextFree (by omega) (fun j hj => ?_)
            (hlimit.imp_right (And.imp_right fun _ => by omega))
          have := hnextEdges j hj
          obtain rfl : j = 0 := by omega
          rw [edgeAt_zero_iff.1 hj] at hedge
          cases hedge
      | true =>
        have hnear : next.Near := fun j hj => by
          have := hnextEdges j hj
          have := hnextEdges 0 (edgeAt_zero_iff.2 hedge)
          omega
        have hone := hnextEdges 0 (edgeAt_zero_iff.2 hedge)
        cases laps with
        | zero =>
          have hlast : limit = .depth 1 := hlimit.resolve_right fun hendless => by omega
          rw [hlast, advance?_last hedge rfl, unroll, graft_edge]
          exact hnear.replaceEdges?_none_bind_outcome? hnextFree hedge rest
        | succ laps =>
          obtain ⟨u, hu⟩ := exists_replaceEdges? hedge sequence
          have hlast : limit.isLast = false := by
            rcases hlimit with rfl | ⟨rfl, -⟩ <;> simp [Limit.isLast]
          have hsequenceEdge := hasEdge_eq_false_of_edgeAt hk hedges
          have hunrolled : (unroll sequence (laps + 1)).hasEdge = false :=
            Bool.eq_false_iff.2 fun h => Bool.eq_false_iff.1 hsequenceEdge (hasEdge_of_graft h).1
          rw [advance?_round hedge hlast, hu, enterable?_graft_of_hasEdge_eq_false (.inr hunrolled),
            Option.map_some, Option.bind_some, Option.bind_some, unroll, hnear.entered?_graft hu]
          have huFree := hereditary_recursionFree.replaceEdges? hnextFree
            (by rintro r ⟨⟩; exact hsequence) hu
          refine ih limit.decrement u k laps huFree hk (fun j hj => ?_) ?_
          · rcases hj.of_replaceEdges? hu with ⟨_, ⟨⟩, hj⟩ | ⟨hne, hj⟩
            · exact hedges j hj
            · exact absurd (hnear j hj) hne
          · rcases hlimit with rfl | ⟨rfl, hshort⟩
            · exact .inl rfl
            · refine .inr ⟨rfl, ?_⟩
              rw [Nat.add_mul] at hshort
              omega

/-- At its last lap a recursion without laps and one with a single lap are the same. -/
theorem outcome?_recursive_depth_zero (sequence current : Selector)
    (steps : List (Node × Segment)) :
    (Selector.recursive (.depth 0) sequence current).outcome? steps =
      (Selector.recursive (.depth 1) sequence current).outcome? steps := by
  induction steps generalizing current with
  | nil => rfl
  | cons step rest ih =>
    obtain ⟨parent, s⟩ := step
    rw [outcome?_cons, outcome?_cons, explore?, explore?]
    cases current.explore? parent s with
    | none => rfl
    | some next =>
      rw [Option.bind_some, Option.bind_some]
      cases hedge : next.hasEdge with
      | false =>
        rw [advance?_within hedge, advance?_within hedge]
        exact ih next
      | true => rw [advance?_last hedge rfl, advance?_last hedge rfl]

/-- A recursion is its unrolling. With a limit the two agree on every run of steps, no laps count as
one, and an endless recursion agrees with an unrolling up to the end of the laps written out. -/
theorem outcome?_recursion (hsequence : sequence.RecursionFree) (hk : 1 ≤ k)
    (hedges : ∀ j, sequence.EdgeAt j → j = k) :
    (∀ laps, 1 ≤ laps → ∀ steps,
      (recursion (.depth laps) sequence).outcome? steps = (unroll sequence laps).entered? steps) ∧
    (∀ steps, (recursion (.depth 0) sequence).outcome? steps =
      (recursion (.depth 1) sequence).outcome? steps) ∧
    ∀ laps, 1 ≤ laps → ∀ steps, steps.length < laps * k →
      (recursion .unbounded sequence).outcome? steps = (unroll sequence laps).entered? steps := by
  refine ⟨fun laps hlaps steps => ?_, outcome?_recursive_depth_zero sequence sequence,
    fun laps hlaps steps hshort => ?_⟩
  · obtain ⟨laps, rfl⟩ := Nat.exists_eq_add_of_le' hlaps
    exact outcome?_recursive hsequence hk hedges steps _ sequence k laps hsequence hk hedges
      (.inl rfl)
  · obtain ⟨laps, rfl⟩ := Nat.exists_eq_add_of_le' hlaps
    refine outcome?_recursive hsequence hk hedges steps _ sequence k laps hsequence hk hedges
      (.inr ⟨rfl, ?_⟩)
    rw [Nat.add_mul] at hshort
    omega

/-- Edges two steps away, in two members of a union: after two laps of two steps the run is at its
end, and a node on the way is a result. -/
theorem outcome?_recursion_two_steps_apart :
    let sequence : Selector := .all (.union [.matcher, .fields [("x", .edge)], .index 0 .edge])
    let list : Node × Segment := (.list [.null], .index 0)
    sequence.RecursionFree ∧ (∀ j, sequence.EdgeAt j → j = 2) ∧
      (∀ steps, (recursion (.depth 2) sequence).outcome? steps =
        (unroll sequence 2).entered? steps) ∧
      (recursion (.depth 2) sequence).outcome? [list, list, list] = some true ∧
      (unroll sequence 2).entered? [list, list, list, list] = none := by
  intro sequence list
  have hfree : sequence.RecursionFree := by
    refine .all (.union fun m hm => ?_)
    simp only [List.mem_cons, List.not_mem_nil, or_false] at hm
    rcases hm with rfl | rfl | rfl
    · exact .matcher
    · exact .fields fun e he => by rw [List.mem_singleton.1 he]; exact .edge
    · exact .index .edge
  have hedges : ∀ j, sequence.EdgeAt j → j = 2 := by
    intro j h
    simp only [sequence] at h
    cases h with
    | all h =>
      cases h with
      | union hm h =>
        simp only [List.mem_cons, List.not_mem_nil, or_false] at hm
        rcases hm with rfl | rfl | rfl
        · cases h
        · cases h with
          | fields he h =>
            rw [List.mem_singleton.1 he] at h
            cases h
            rfl
        · cases h with
          | index h =>
            cases h
            rfl
  have h := (outcome?_recursion hfree (by decide) hedges).1 2 (by decide)
  exact ⟨hfree, hedges, h, by rw [h]; rfl, by rw [← h]; rfl⟩

end DagSelect.Selector
