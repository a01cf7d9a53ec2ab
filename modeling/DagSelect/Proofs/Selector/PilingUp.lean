import DagSelect.Proofs.Selector.Laps
import DagSelect.Proofs.Selector.Weight
import Mathlib.Algebra.Order.BigOperators.Group.Finset

/-!
# Copies that pile up

The copies of its sequence that are at the point of an endless recursion pile up in two ways. Two
edges may come up in one step, so that one copy is followed by two. Or there are steps that can be
made over and over, such that every time an edge comes up at their end and the copies that began
before are not done. These are the only ways: what is at the point is bounded in number along all
runs exactly if copies do not pile up, provided that the sequence has finitely many states
(`exists_card_pointAfter_le`, `PilesUp.exists_lt_card_pointAfter`), and then the recursion has
finitely many states as well (`FiniteState.recursion_unbounded`).
-/

namespace DagSelect.Selector

/-- The last of the steps brings an endless recursion, which starts with the first, to so many of
its edges at once, or to more. -/
def ComesTo (sequence : Selector) (edges : ℕ) (steps : List (Node × Segment)) : Prop :=
  ∃ before parent s point next, steps = before ++ [(parent, s)] ∧
    (recursion .unbounded sequence).exploreAlong? before =
      some (.recursive .unbounded sequence point) ∧
    point.explore? parent s = some next ∧ edges ≤ next.alternatives.count .edge

/-- The copies of its sequence pile up at the point of an endless recursion. -/
inductive PilesUp (sequence : Selector) : Prop
  /-- Two edges come up at once. -/
  | together {steps : List (Node × Segment)} (two : ComesTo sequence 2 steps)
  /-- Steps that can be repeated for ever bring the recursion to an edge every time, and the
  sequence by itself leads on along them for ever. -/
  | behind (before loop : List (Node × Segment)) (nonempty : loop ≠ [])
      (again : ∀ k, ComesTo sequence 1 (before ++ repeated k loop))
      (leads : ∀ k, sequence.exploreAlong? (repeated k loop) ≠ none)

variable {sequence : Selector} {past v w : List (Node × Segment)}

theorem UnderWay.of_recursion (hunder : (recursion .unbounded sequence).UnderWay) :
    sequence.UnderWay := by
  cases hunder with
  | recursive _ _ start _ => exact start.underWay

theorem comesTo_reverse_iff (hunder : (recursion .unbounded sequence).UnderWay) {edges : ℕ}
    (hedges : 0 < edges) (step : Node × Segment) (past : List (Node × Segment)) :
    ComesTo sequence edges (step :: past).reverse ↔ edges ≤ beginning sequence (step :: past) := by
  have hcount {point next : Selector} (hpoint : point.UnderWay)
      (hflat : ↑point.flat = pointAfter sequence past)
      (hnext : point.explore? step.1 step.2 = some next) :
      beginning sequence (step :: past) = next.alternatives.count .edge := by
    rw [beginning, ← hflat, onward_coe hpoint, flatChild_of_explore? hnext, Multiset.coe_count,
      count_edge_flat]
  rw [List.reverse_cons]
  constructor
  · rintro ⟨before, parent, s, point, next, hsteps, hrun, hnext, hle⟩
    obtain ⟨rfl, hlast⟩ := List.append_inj' hsteps rfl
    obtain rfl := List.singleton_inj.1 hlast
    rcases exploreAlong?_endless hunder past with ⟨hnone, -⟩ | ⟨point', hrun', hpoint, hflat⟩
    · rw [hnone] at hrun
      cases hrun
    · rw [hrun'] at hrun
      cases hrun
      rwa [hcount hpoint hflat hnext]
  · intro hle
    rcases exploreAlong?_endless hunder past with ⟨-, hzero⟩ | ⟨point, hrun, hpoint, hflat⟩
    · rw [beginning, hzero, map_zero, Multiset.count_zero] at hle
      omega
    · cases hnext : point.explore? step.1 step.2 with
      | none =>
        rw [beginning, ← hflat, onward_coe hpoint, hpoint.flatChild_eq_nil_iff.2 hnext] at hle
        exact absurd hle (Nat.not_le.2 hedges)
      | some next =>
        exact ⟨past.reverse, step.1, step.2, point, next, rfl, hrun, hnext,
          hcount hpoint hflat hnext ▸ hle⟩

theorem ComesTo.ne_nil {edges : ℕ} {steps : List (Node × Segment)}
    (h : ComesTo sequence edges steps) : steps ≠ [] := by
  obtain ⟨before, -, -, -, -, rfl, -⟩ := h
  exact List.append_ne_nil_of_right_ne_nil before (List.cons_ne_nil _ _)

/-- The edges that come up are the beginnings of copies. -/
theorem comesTo_iff (hunder : (recursion .unbounded sequence).UnderWay) {edges : ℕ}
    (hedges : 0 < edges) {steps : List (Node × Segment)} (hne : steps ≠ []) :
    ComesTo sequence edges steps ↔ edges ≤ beginning sequence steps.reverse := by
  rw [← List.reverse_reverse steps]
  cases hpast : steps.reverse with
  | nil => exact absurd (List.reverse_eq_nil_iff.1 hpast) hne
  | cons step past => rw [comesTo_reverse_iff hunder hedges, List.reverse_reverse]

/-! ## Without piling up -/

theorem beginning_cons_pos_iff (hsequence : sequence.UnderWay) (step : Node × Segment)
    (past : List (Node × Segment)) :
    0 < beginning sequence (step :: past) ↔
      ∃ d ∈
        present (fun v => sequence.flatAlong v.reverse) (fun w => 0 < beginning sequence w) past,
        .edge ∈ d.flatMap (flatChild step) := by
  rw [beginning, Multiset.count_pos, onward_apply, Multiset.mem_bind]
  simp only [Multiset.mem_coe, List.mem_flatMap]
  constructor
  · rintro ⟨m, hm, hedge⟩
    obtain ⟨v, w, hpast, hborn, hm⟩ := mem_pointAfter_iff.1 hm
    exact ⟨_, ⟨v, w, hpast, hborn, rfl⟩, m, mem_flatAlong_of_mem_remains hsequence hm, hedge⟩
  · rintro ⟨_, ⟨v, w, hpast, hborn, rfl⟩, m, hm, hedge⟩
    refine ⟨m, mem_pointAfter_iff.2 ⟨v, w, hpast, hborn, ?_⟩, hedge⟩
    refine mem_remains_of_mem_flatAlong hsequence hm ?_
    rintro rfl
    cases hedge

def copies (hsequence : sequence.UnderWay) : Population (Node × Segment) (List Selector) where
  state v := sequence.flatAlong v.reverse
  born w := 0 < beginning sequence w
  alive d := d ≠ []
  state_cons step h := by
    rw [List.reverse_cons, List.reverse_cons, hsequence.flatAlong_concat,
      hsequence.flatAlong_concat, h]
  born_cons step h := by
    rw [beginning_cons_pos_iff hsequence, beginning_cons_pos_iff hsequence, h]
    exact id
  alive_of_cons h := by
    rw [List.reverse_cons, hsequence.flatAlong_concat] at h
    exact fun hnil => h (by rw [hnil]; rfl)

/-- A loop among the copies makes them pile up. -/
theorem PilesUp.of_loop (hunder : (recursion .unbounded sequence).UnderWay)
    {before x : List (Node × Segment)} (h : (copies hunder.of_recursion).Loop before x) :
    PilesUp sequence := by
  refine .behind (x ++ before).reverse x.reverse (by simpa using h.nonempty)
    (fun k => ?_) (fun k hnone => h.alive k ?_)
  · have hborn := h.born k
    rw [repeated_succ', List.append_assoc] at hborn
    rw [comesTo_iff hunder Nat.one_pos (by simp [h.nonempty]), ← reverse_repeated,
      ← List.reverse_append, List.reverse_reverse]
    exact hborn
  · change sequence.flatAlong _ = []
    rw [flatAlong, reverse_repeated, hnone]
    rfl

theorem beginning_le_one (hunder : (recursion .unbounded sequence).UnderWay)
    (h : ¬ PilesUp sequence) (past : List (Node × Segment)) : beginning sequence past ≤ 1 := by
  cases past with
  | nil => exact Nat.le_refl 1
  | cons step past =>
    by_contra hmore
    exact h (.together ((comesTo_reverse_iff hunder Nat.two_pos step past).2
      (Nat.lt_of_not_le hmore)))

theorem FiniteState.exists_length_le {t : Selector} (ht : t.FiniteState) :
    ∃ bound, ∀ steps, (t.flatAlong steps).length ≤ bound := by
  obtain ⟨bound, hbound⟩ := (ht.image List.length).bddAbove
  exact ⟨bound, fun steps => hbound ⟨_, ⟨steps, rfl⟩, rfl⟩⟩

/-- If copies do not pile up, then what is at the point is bounded in number. -/
theorem exists_card_pointAfter_le (hunder : (recursion .unbounded sequence).UnderWay)
    (hfinite : sequence.FiniteState) (h : ¬ PilesUp sequence) :
    ∃ bound, ∀ past, (pointAfter sequence past).card ≤ bound := by
  have hsequence := hunder.of_recursion
  have hstates : (Set.range (copies hsequence).state).Finite := by
    refine hfinite.subset ?_
    rintro _ ⟨v, rfl⟩
    exact ⟨v.reverse, rfl⟩
  obtain ⟨number, hnumber⟩ := (copies hsequence).card_alive_le_of_no_loop hstates
    fun _ _ hloop => h (.of_loop hunder hloop)
  obtain ⟨size, hsize⟩ := hfinite.exists_length_le
  refine ⟨number * size, fun past => ?_⟩
  let alive (j : ℕ) : Prop :=
    0 < beginning sequence (past.drop j) ∧ sequence.flatAlong (past.take j).reverse ≠ []
  classical
  let J := (Finset.range (past.length + 1)).filter alive
  have hJ : J.card ≤ number := by
    refine hnumber past J fun j hj => ?_
    obtain ⟨hj, halive⟩ := Finset.mem_filter.1 hj
    exact ⟨Nat.le_of_lt_succ (Finset.mem_range.1 hj), halive⟩
  have hterm : ∀ j, beginning sequence (past.drop j) * (remains sequence (past.take j)).card ≤
      if alive j then size else 0 := by
    intro j
    have hremains := card_remains_le hsequence (past.take j)
    split
    · calc _ ≤ 1 * size :=
            Nat.mul_le_mul (beginning_le_one hunder h _) (hremains.trans (hsize _))
        _ = size := Nat.one_mul size
    · next hdead =>
      rcases not_and_or.1 hdead with hborn | hnil
      · rw [Nat.eq_zero_of_not_pos hborn, Nat.zero_mul]
      · rw [not_not.1 hnil] at hremains
        rw [Nat.le_zero.1 hremains, Nat.mul_zero]
  calc (pointAfter sequence past).card
      = ∑ j ∈ Finset.range (past.length + 1),
          beginning sequence (past.drop j) * (remains sequence (past.take j)).card :=
        card_pointAfter past
    _ ≤ ∑ j ∈ Finset.range (past.length + 1), if alive j then size else 0 :=
        Finset.sum_le_sum fun j _ => hterm j
    _ = J.card * size := by rw [← Finset.sum_filter, Finset.sum_const, Nat.nsmul_eq_mul]
    _ ≤ number * size := Nat.mul_le_mul_right size hJ

theorem finite_lists_over {α : Type} {s : Set α} (hs : s.Finite) (n : ℕ) :
    {l : List α | l.length ≤ n ∧ ∀ a ∈ l, a ∈ s}.Finite := by
  have : Finite s := hs
  refine ((List.finite_length_le s n).image (List.map Subtype.val)).subset ?_
  rintro l ⟨hlength, hmem⟩
  exact ⟨l.attachWith (· ∈ s) hmem, by simpa using hlength, by simp⟩

/-- If copies do not pile up, then an endless recursion has finitely many states if its sequence
has. -/
theorem FiniteState.recursion_unbounded (hunder : (recursion .unbounded sequence).UnderWay)
    (hfinite : sequence.FiniteState) (h : ¬ PilesUp sequence) :
    (recursion .unbounded sequence).FiniteState := by
  obtain ⟨bound, hbound⟩ := exists_card_pointAfter_le hunder hfinite h
  let point (L : List Selector) : List Selector := [.recursive .unbounded sequence (.union L)]
  have hmembers := hfinite.biUnion fun L _ => List.finite_toSet L
  refine (((finite_lists_over hmembers bound).image point).insert []).subset ?_
  rintro _ ⟨steps, rfl⟩
  rw [← List.reverse_reverse steps, flatAlong]
  rcases exploreAlong?_endless hunder steps.reverse with ⟨hrun, -⟩ | ⟨current, hrun, -, hflat⟩
  · rw [hrun]
    exact Set.mem_insert [] _
  · rw [hrun]
    refine Set.mem_insert_of_mem _ ⟨current.flat, ⟨?_, fun m hm => ?_⟩, rfl⟩
    · exact (congrArg Multiset.card hflat).trans_le (hbound _)
    · have hmem : m ∈ pointAfter sequence steps.reverse := hflat ▸ hm
      obtain ⟨v, -, -, -, hm⟩ := mem_pointAfter_iff.1 hmem
      exact Set.mem_biUnion (Set.mem_range_self v.reverse)
        (mem_flatAlong_of_mem_remains hunder.of_recursion hm)

/-! ## Piling up -/

theorem map_le_map_of_le {α β : Type} (f : Multiset α →+ Multiset β) {M N : Multiset α}
    (h : M ≤ N) : f M ≤ f N := by
  obtain ⟨K, rfl⟩ := Multiset.le_iff_exists_add.1 h
  rw [map_add]
  exact Multiset.le_add_right _ _

/-- Every copy that begins comes, by what follows, to what the first one comes to by the same. -/
theorem nsmul_pointAfter_le (sequence : Selector) (v w : List (Node × Segment)) :
    beginning sequence w • pointAfter sequence v ≤ pointAfter sequence (v ++ w) := by
  induction v with
  | nil =>
    cases w with
    | nil => exact (one_nsmul _).le
    | cons step w =>
      rw [List.nil_append, pointAfter_cons]
      exact Multiset.le_add_left _ _
  | cons step v ih =>
    rw [List.cons_append, pointAfter, pointAfter, ← map_nsmul, ← map_nsmul]
    exact map_le_map_of_le _ (map_le_map_of_le _ ih)

theorem mul_beginning_le (hv : v ≠ []) :
    beginning sequence w * beginning sequence v ≤ beginning sequence (v ++ w) := by
  cases v with
  | nil => exact absurd rfl hv
  | cons step v =>
    rw [List.cons_append, beginning, beginning, ← Multiset.count_nsmul, ← map_nsmul]
    exact Multiset.count_le_of_le _ (map_le_map_of_le _ (nsmul_pointAfter_le sequence v w))

theorem two_pow_le_beginning (hv : v ≠ []) (h : 2 ≤ beginning sequence v) (k : ℕ) :
    2 ^ k ≤ beginning sequence (repeated k v) := by
  induction k with
  | zero => exact Nat.le_refl 1
  | succ k ih =>
    rw [repeated_succ, Nat.pow_succ]
    exact (Nat.mul_le_mul ih h).trans (mul_beginning_le hv)

theorem beginning_le_card_pointAfter (hsequence : sequence.UnderWay) (w : List (Node × Segment)) :
    beginning sequence w ≤ (pointAfter sequence w).card := by
  have hle := Multiset.card_le_card (nsmul_pointAfter_le sequence [] w)
  rw [Multiset.card_nsmul] at hle
  have hpos : 0 < (pointAfter sequence []).card := List.length_pos_iff.2 hsequence.flat_ne_nil
  exact (Nat.le_mul_of_pos_right _ hpos).trans hle

theorem flatAlong_eq_nil_of_remains_eq_zero (hsequence : sequence.UnderWay)
    (h : remains sequence past = 0) (hv : v ≠ []) :
    sequence.flatAlong (v ++ past).reverse = [] := by
  rw [← Multiset.coe_eq_zero]
  induction v with
  | nil => exact absurd rfl hv
  | cons step v ih =>
    rw [List.cons_append, ← onward_flatAlong hsequence]
    by_cases hnil : v = []
    · subst hnil
      rw [onward_flatAlong hsequence, List.nil_append, ← onward_remains hsequence, h, map_zero]
    · rw [ih hnil, map_zero]

/-- Of every copy that begins at the end of a repetition something is left. -/
theorem lt_card_pointAfter_of_repeated (hsequence : sequence.UnderWay) {x : List (Node × Segment)}
    (hx : x ≠ []) (hborn : ∀ k, 0 < beginning sequence (repeated k x ++ w))
    (hleads : ∀ k, sequence.flatAlong (repeated k x).reverse ≠ []) (n : ℕ) :
    n < (pointAfter sequence (repeated n x ++ w)).card := by
  have hlength : 0 < x.length := List.length_pos_iff.2 hx
  have hremains (k : ℕ) : 0 < (remains sequence (repeated k x)).card := by
    rw [Multiset.card_pos]
    intro hzero
    exact hleads (k + 1) (flatAlong_eq_nil_of_remains_eq_zero hsequence hzero hx)
  let past := repeated n x ++ w
  let positions := (Finset.range (n + 1)).image fun i => i * x.length
  have hpositions : positions ⊆ Finset.range (past.length + 1) := by
    intro j hj
    obtain ⟨i, hi, rfl⟩ := Finset.mem_image.1 hj
    have := Nat.mul_le_mul_right x.length (Finset.mem_range_succ_iff.1 hi)
    rw [Finset.mem_range, List.length_append, length_repeated]
    omega
  have hterm : ∀ j ∈ positions,
      1 ≤ beginning sequence (past.drop j) * (remains sequence (past.take j)).card := by
    intro j hj
    obtain ⟨i, hi, rfl⟩ := Finset.mem_image.1 hj
    have hsplit : past = repeated i x ++ (repeated (n - i) x ++ w) := by
      rw [← List.append_assoc, ← repeated_add, Nat.add_sub_cancel' (Finset.mem_range_succ_iff.1 hi)]
    rw [hsplit, ← length_repeated, List.drop_left, List.take_left]
    exact Nat.mul_pos (hborn _) (hremains i)
  calc n < positions.card := by
        rw [Finset.card_image_of_injective _ fun i j h => Nat.eq_of_mul_eq_mul_right hlength h,
          Finset.card_range]
        exact Nat.lt_succ_self n
    _ = positions.card * 1 := (Nat.mul_one _).symm
    _ ≤ ∑ j ∈ positions, beginning sequence (past.drop j) * (remains sequence (past.take j)).card :=
        Finset.card_nsmul_le_sum positions _ 1 hterm
    _ ≤ ∑ j ∈ Finset.range (past.length + 1),
          beginning sequence (past.drop j) * (remains sequence (past.take j)).card :=
        Finset.sum_le_sum_of_subset hpositions
    _ = (pointAfter sequence past).card := (card_pointAfter past).symm

/-- If copies pile up, then what is at the point is not bounded in number. -/
theorem PilesUp.exists_lt_card_pointAfter (hunder : (recursion .unbounded sequence).UnderWay)
    (h : PilesUp sequence) (bound : ℕ) : ∃ past, bound < (pointAfter sequence past).card := by
  have hsequence := hunder.of_recursion
  cases h with
  | @together steps two =>
    have hne : steps.reverse ≠ [] := mt List.reverse_eq_nil_iff.1 two.ne_nil
    have htwo := (comesTo_iff hunder Nat.two_pos two.ne_nil).1 two
    refine ⟨repeated bound steps.reverse, Nat.lt_two_pow_self.trans_le ?_⟩
    exact (two_pow_le_beginning hne htwo bound).trans (beginning_le_card_pointAfter hsequence _)
  | behind before loop nonempty again leads =>
    refine ⟨repeated bound loop.reverse ++ before.reverse, lt_card_pointAfter_of_repeated hsequence
      (by simpa using nonempty) (fun k => ?_) (fun k => ?_) bound⟩
    · rw [← reverse_repeated, ← List.reverse_append]
      exact (comesTo_iff hunder Nat.one_pos (again k).ne_nil).1 (again k)
    · rw [reverse_repeated, List.reverse_reverse, flatAlong]
      obtain ⟨u, hu⟩ := Option.ne_none_iff_exists'.1 (leads k)
      rw [hu]
      exact (hereditary_underWay.exploreAlong? hsequence hu).flat_ne_nil

/-! ## The two ways -/

/-- With limits on the recursions inside, copies come to an end, and so they pile up only if several
begin at once. -/
theorem Bounded.pilesUp_iff (hsequence : sequence.Bounded) :
    PilesUp sequence ↔ ∃ steps, ComesTo sequence 2 steps := by
  constructor
  · rintro (⟨two⟩ | ⟨-, loop, nonempty, -, leads⟩)
    · exact ⟨_, two⟩
    · obtain ⟨u, hu⟩ := Option.ne_none_iff_exists'.1 (leads (sequence.weight + 1))
      have hlength := hsequence.length_add_weight_le hu
      have hmany := Nat.le_mul_of_pos_right (sequence.weight + 1) (List.length_pos_iff.2 nonempty)
      rw [length_repeated] at hlength
      omega
  · rintro ⟨_, two⟩
    exact .together two

/-- Copies do not pile up if the recursion stays at points from which no two edges come up at
once. -/
theorem Bounded.not_pilesUp (hsequence : sequence.Bounded) {X : Set Selector} (start : sequence ∈ X)
    (closed : ∀ point ∈ X, ∀ parent s next, point.explore? parent s = some next →
      next.alternatives.count .edge ≤ 1 ∧ ∀ moved,
        advance? .unbounded sequence next = some (.recursive .unbounded sequence moved) →
          moved ∈ X) :
    ¬ PilesUp sequence := by
  have hrun {steps : List (Node × Segment)} {t : Selector}
      (ht : (recursion .unbounded sequence).exploreAlong? steps = some t) :
      ∃ point ∈ X, t = .recursive .unbounded sequence point := by
    refine List.foldlM_preserves
      (P := fun t => ∃ point ∈ X, t = .recursive .unbounded sequence point)
      ?_ ⟨sequence, start, rfl⟩ ht
    rintro _ step u ⟨point, hpoint, rfl⟩ hu
    obtain ⟨next, hnext, hu⟩ := Option.bind_eq_some_iff.1 hu
    obtain ⟨moved, hmoved, -⟩ := exists_advance?_endless sequence next
    exact ⟨moved, (closed point hpoint _ _ next hnext).2 moved hmoved,
      Option.some.inj (hu.symm.trans hmoved)⟩
  rw [hsequence.pilesUp_iff]
  rintro ⟨_, before, parent, s, point, next, -, hbefore, hnext, htwo⟩
  obtain ⟨_, hpoint, heq⟩ := hrun hbefore
  cases heq
  have hone := (closed point hpoint parent s next hnext).1
  omega

/-- Copies that begin one at a time and pile up, since a recursion inside keeps them from coming to
an end. -/
theorem exists_pilesUp_one_by_one :
    ∃ sequence, WellFormedIn true sequence ∧ PilesUp sequence ∧
      ∀ steps, ¬ ComesTo sequence 2 steps := by
  let inner : Selector := recursion .unbounded (.all .edge)
  let sequence : Selector := .union [.all .edge, inner]
  have hinner : WellFormedIn true inner := .recursive trivial (.all .edge) (.all .edge)
  have hwell : WellFormedIn true sequence := by
    refine .union (List.cons_ne_nil _ _) ?_
    simp only [List.forall_mem_cons]
    exact ⟨.all .edge, hinner, nofun⟩
  have hunder : (recursion .unbounded sequence).UnderWay :=
    .recursive trivial (.union (List.mem_cons_self) (.all .edge)) hwell hwell.underWay
  let left : Selector := .recursive .unbounded (.all .edge) (.union [.all .edge])
  -- a copy begins with every step, and `left` is what every one of them leaves for ever
  have hpoint (past : List (Node × Segment)) :
      pointAfter sequence past = ↑sequence.flat + past.length • {left} := by
    induction past with
    | nil => rfl
    | cons step past ih =>
      rw [pointAfter, ih, map_add, map_add, map_nsmul, map_nsmul, List.length_cons, succ_nsmul']
      exact add_assoc _ _ _
  have hbeginning (past : List (Node × Segment)) : beginning sequence past = 1 := by
    cases past with
    | nil => rfl
    | cons step past =>
      rw [beginning, hpoint, map_add, map_nsmul, Multiset.count_add, Multiset.count_nsmul]
      rfl
  have hleads (steps : List (Node × Segment)) : left ∈ sequence.flatAlong steps := by
    induction steps using List.reverseRecOn with
    | nil => exact List.mem_cons_of_mem _ List.mem_cons_self
    | append_singleton steps step ih =>
      rw [hwell.underWay.flatAlong_concat]
      exact List.mem_flatMap.2 ⟨left, ih, List.mem_cons_self⟩
  let steps : List (Node × Segment) := [(.null, .index 0)]
  refine ⟨sequence, hwell, .behind steps steps (List.cons_ne_nil _ _) ?_ ?_, ?_⟩
  · intro k
    exact (comesTo_iff hunder Nat.one_pos (List.cons_ne_nil _ _)).2 (hbeginning _).ge
  · intro k hnone
    have hmem := hleads (repeated k steps)
    rw [flatAlong, hnone] at hmem
    cases hmem
  · intro steps htwo
    have hle := (comesTo_iff hunder Nat.two_pos htwo.ne_nil).1 htwo
    rw [hbeginning] at hle
    exact absurd hle (by decide)

end DagSelect.Selector
