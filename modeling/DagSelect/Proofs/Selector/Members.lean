import DagSelect.Proofs.Selector.Live
import DagSelect.Proofs.Selector.PilingUp
import DagSelect.Proofs.Selector.Weight

/-!
# How many members unions get

Equal members of a union are never merged, so the unions that are met along the runs of a selector
may get more and more members. They do so in one way only, which is that copies pile up in a
recursion without a limit: there is a bound on the members exactly if this happens to none of the
recursions that are written in the selector, and then the selector has finitely many states as well
(`exists_membersAtMost_iff`).
-/

namespace DagSelect

namespace Selector

/-- No union anywhere in a selector that is reached has more members, those of unions among its
members counted as its own. -/
def MembersAtMost (s : Selector) (bound : Nat) : Prop :=
  ∀ steps t members, s.exploreAlong? steps = some t → OccursIn (.union members) t →
    (Selector.union members).alternatives.length ≤ bound

variable {t u : Selector} {members : List Selector} {limit : Limit} {sequence : Selector}

/-! ## Finitely many states -/

/-- Laying a selector flat makes none of its unions smaller. -/
theorem exists_occursIn_union_flat (h : OccursIn (.union members) t) :
    ∃ members', OccursIn (.union members') (.union t.flat) ∧
      (Selector.union members).alternatives.length ≤
        (Selector.union members').alternatives.length := by
  induction t with
  | union members' ih =>
    cases h with
    | refl =>
      refine ⟨_, .refl, ?_⟩
      rw [← length_flat, ← length_flat, flat_union_flat]
    | @union _ m hm h =>
      obtain ⟨members'', hoccurs, hle⟩ := ih m hm h
      rw [flat_union]
      cases hoccurs with
      | refl =>
        refine ⟨_, .refl, hle.trans ?_⟩
        rw [← length_flat, ← length_flat, flat_union_flat, ← flat_union,
          flat_union_flat, flat_union]
        exact (List.sublist_flatten_of_mem (List.mem_map_of_mem hm)).length_le
      | union hk h => exact ⟨_, .union (List.mem_flatMap.2 ⟨m, hm, hk⟩) h, hle⟩
  | recursive limit sequence current _ ih =>
    rw [flat]
    cases h with
    | sequence h =>
      exact ⟨_, .union (List.mem_singleton_self _) (.sequence h), Nat.le_refl _⟩
    | current h =>
      obtain ⟨members', hoccurs, hle⟩ := ih h
      exact ⟨_, .union (List.mem_singleton_self _) (.current hoccurs), hle⟩
  | _ => exact ⟨_, .union (List.mem_singleton_self _) h, Nat.le_refl _⟩

theorem finite_occursIn (t : Selector) : {u | OccursIn u t}.Finite := by
  have hself {t : Selector} {S : Set Selector} (hS : S.Finite)
      (h : ∀ u, OccursIn u t → u = t ∨ u ∈ S) : {u | OccursIn u t}.Finite := (hS.insert t).subset h
  induction t with
  | matcher | edge =>
    refine hself Set.finite_empty fun u h => ?_
    cases h
    exact .inl rfl
  | all _ ih | index _ _ ih | range _ _ _ ih =>
    refine hself ih fun u h => ?_
    cases h with
    | refl => exact .inl rfl
    | _ h => exact .inr h
  | fields selections ih =>
    refine hself ((List.finite_toSet selections).biUnion ih) fun u h => ?_
    cases h with
    | refl => exact .inl rfl
    | fields he h => exact .inr (Set.mem_biUnion he h)
  | union members ih =>
    refine hself ((List.finite_toSet members).biUnion ih) fun u h => ?_
    cases h with
    | refl => exact .inl rfl
    | union hm h => exact .inr (Set.mem_biUnion hm h)
  | recursive _ _ _ ihs ihc =>
    refine hself (ihs.union ihc) fun u h => ?_
    cases h with
    | refl => exact .inl rfl
    | sequence h => exact .inr (.inl h)
    | current h => exact .inr (.inr h)

theorem FiniteState.exists_membersAtMost (ht : t.FiniteState) : ∃ bound, t.MembersAtMost bound := by
  have hstanding := ht.biUnion fun L _ => finite_occursIn (.union L)
  obtain ⟨bound, hbound⟩ := (hstanding.image fun u => u.alternatives.length).bddAbove
  refine ⟨bound, fun steps u members hu hoccurs => ?_⟩
  obtain ⟨members', hoccurs', hle⟩ := exists_occursIn_union_flat hoccurs
  have hreached : u.flat ∈ Set.range t.flatAlong := ⟨steps, by rw [flatAlong, hu]; rfl⟩
  exact hle.trans (hbound ⟨_, Set.mem_biUnion hreached hoccurs', rfl⟩)

/-- If copies pile up in no endless recursion that is written in it, then a well-formed selector has
finitely many states. -/
theorem WellFormedIn.finiteState {inside : Bool} (ht : WellFormedIn inside t)
    (h : ∀ sequence, OccursIn (recursion .unbounded sequence) t → ¬ PilesUp sequence) :
    t.FiniteState := by
  induction ht with
  | matcher => exact UnderWay.matcher.finiteState_of_explore? rfl Set.finite_empty nofun nofun
  | edge => exact UnderWay.edge.finiteState_of_explore? rfl Set.finite_empty nofun nofun
  | @all _ next rest ih =>
    refine (UnderWay.all rest.underWay).finiteState_of_explore? rfl
      (Set.finite_singleton next) ?_ ?_
    · rintro parent s u ⟨⟩
      rfl
    · rintro _ rfl
      exact ⟨rest.underWay, ih fun sequence hs => h sequence (.all hs)⟩
  | @fields _ selections distinct each ih =>
    have hunder : (Selector.fields selections).UnderWay :=
      (WellFormedIn.fields distinct each).underWay
    refine hunder.finiteState_of_explore? rfl ((List.finite_toSet selections).image Prod.snd) ?_ ?_
    · intro parent s u hu
      obtain ⟨before, behind, hselections, -⟩ := List.lookup_eq_some_iff.1 hu
      exact ⟨(s.text, u), by simp [hselections], rfl⟩
    · rintro _ ⟨e, he, rfl⟩
      exact ⟨(each e he).underWay, ih e he fun sequence hs => h sequence (.fields he hs)⟩
  | @index _ position next natural rest ih =>
    refine (UnderWay.index natural rest.underWay).finiteState_of_explore? rfl
      (Set.finite_singleton next) ?_ ?_
    · intro parent s u hu
      rw [explore?] at hu
      split at hu
      · cases hu
        rfl
      · cases hu
    · rintro _ rfl
      exact ⟨rest.underWay, ih fun sequence hs => h sequence (.index hs)⟩
  | @range _ start stop next natural rising rest ih =>
    refine (UnderWay.range natural rising rest.underWay).finiteState_of_explore? rfl
      (Set.finite_singleton next) ?_ ?_
    · intro parent s u hu
      rw [explore?] at hu
      split at hu
      · split at hu
        · cases hu
          rfl
        · cases hu
      · cases hu
    · rintro _ rfl
      exact ⟨rest.underWay, ih fun sequence hs => h sequence (.range hs)⟩
  | @union _ members nonempty each ih =>
    have hunder : (Selector.union members).UnderWay := (WellFormedIn.union nonempty each).underWay
    refine hunder.finiteState_iff.2 fun k hk => ?_
    rw [flat_union] at hk
    obtain ⟨m, hm, hk⟩ := List.mem_flatMap.1 hk
    have hstates := ih m hm fun sequence hs => h sequence (.union hm hs)
    exact (each m hm).underWay.finiteState_iff.1 hstates k hk
  | @recursive inside limit sequence writable returns rest ih =>
    have hwell : WellFormedIn inside (.recursive limit sequence sequence) :=
      .recursive writable returns rest
    have hsequence := ih fun sequence hs => h sequence (.sequence hs)
    cases limit with
    | depth laps => exact hsequence.recursive_depth hwell.underWay hsequence
    | unbounded => exact hsequence.recursion_unbounded hwell.underWay (h sequence .refl)

/-! ## Piling up -/

theorem exists_union_of_one_lt_length_flat (h : 1 < t.flat.length) :
    ∃ members, t = .union members := by
  cases t with
  | union members => exact ⟨members, rfl⟩
  | _ => exact absurd h (Nat.lt_irrefl 1)

/-- If copies pile up in an endless recursion that is written in it, then a well-formed selector
leads to unions with any number of members. -/
theorem PilesUp.not_membersAtMost {inside : Bool} (hpiles : PilesUp sequence)
    (ht : WellFormedIn inside t) (h : OccursIn (recursion .unbounded sequence) t) (bound : Nat) :
    ¬ t.MembersAtMost bound := by
  intro hbound
  obtain ⟨steps, hlive⟩ := ht.getsLive h
  obtain ⟨u, hu, hlive⟩ := hlive.exists_exploreAlong?
  have hunder := hereditary_underWay.exploreAlong? ht.underWay hu
  have hrecursion : (recursion .unbounded sequence).UnderWay := by
    cases (hlive.laidFlat fun k hk => hunder.laidFlat_of_mem_flat hk).underWay with
    | recursive writable returns start _ => exact .recursive writable returns start start.underWay
  obtain ⟨past, hpast⟩ := hpiles.exists_lt_card_pointAfter hrecursion (max bound 1)
  rcases exploreAlong?_endless hrecursion past with ⟨-, hnone⟩ | ⟨point, hrun, -, hpoint⟩
  · rw [hnone] at hpast
    cases hpast
  -- what the recursion comes to by itself, the recursion that has got live comes to as well
  have halong : .recursive .unbounded sequence (.union point.flat) ∈
      (Selector.recursive .unbounded sequence (.union sequence.flat)).flatAlong past.reverse := by
    have halone := hrecursion.flatAlong_eq_flatMap past.reverse
    rw [flatAlong, hrun, recursion, flat, List.flatMap_singleton] at halone
    exact halone ▸ List.mem_singleton_self _
  obtain ⟨v, hv, hlive⟩ := (hlive.flatAlong hunder halong (by rintro ⟨⟩)).exists_exploreAlong?
  obtain ⟨current, hoccurs, hcurrent⟩ := exists_occursIn_of_live hlive
  rw [← hpoint, ← hcurrent, Multiset.coe_card] at hpast
  obtain ⟨members, rfl⟩ :=
    exists_union_of_one_lt_length_flat ((Nat.le_max_right bound 1).trans_lt hpast)
  have hreached : t.exploreAlong? (steps ++ past.reverse) = some v := by
    rw [exploreAlong?_append, hu, Option.bind_some, hv]
  have hle := hbound _ v members hreached (OccursIn.trans (.current .refl) hoccurs)
  rw [length_flat] at hpast
  exact absurd ((Nat.le_max_left bound 1).trans_lt hpast) (Nat.not_lt.2 hle)

/-- What is written with limits only has no endless recursion inside. -/
theorem Bounded.eq_of_occursIn_recursion (hsequence : sequence.Bounded) {sequence' : Selector}
    (h : OccursIn (recursion .unbounded sequence') (recursion .unbounded sequence)) :
    sequence' = sequence := by
  cases h with
  | refl => rfl
  | sequence h | current h => cases hereditary_bounded.of_occursIn h hsequence

end Selector

open Selector

/-- There is a bound on the members of all unions that are met along runs of a selector that
compiled exactly if copies of its sequence pile up in no recursion without a limit that is written
in the selector, and exactly if only finitely many selectors are met, with unions laid flat. -/
theorem exists_membersAtMost_iff {n : Node} {s : Selector} (hs : compile n = .ok s) :
    ((∃ bound, s.MembersAtMost bound) ↔
        ∀ sequence, OccursIn (recursion .unbounded sequence) s → ¬ PilesUp sequence) ∧
      ((∃ bound, s.MembersAtMost bound) ↔ s.FiniteState) := by
  have hwell := wellFormed_of_compile hs
  have hbounded : (∃ bound, s.MembersAtMost bound) →
      ∀ sequence, OccursIn (recursion .unbounded sequence) s → ¬ PilesUp sequence := by
    rintro ⟨bound, hbound⟩ sequence hoccurs hpiles
    exact hpiles.not_membersAtMost hwell hoccurs bound hbound
  have hfinite (h : ∀ sequence, OccursIn (recursion .unbounded sequence) s → ¬ PilesUp sequence) :
      s.FiniteState := hwell.finiteState h
  exact ⟨⟨hbounded, fun h => (hfinite h).exists_membersAtMost⟩,
    ⟨fun h => hfinite (hbounded h), fun h => h.exists_membersAtMost⟩⟩

/-- The sequence has two edges and begins anew while one of them is still to come, but never do both
come up at once. -/
theorem exists_membersAtMost_edges_apart :
    let rest : Selector := .fields [("b", .edge)]
    let sequence : Selector := .union [.fields [("a", .edge)], .fields [("a", rest)]]
    let s : Selector := .recursion .unbounded sequence
    compile s.toNode = .ok s ∧ (∃ bound, s.MembersAtMost bound) ∧ s.FiniteState := by
  intro rest sequence s
  have hs : compile s.toNode = .ok s := rfl
  have hlimited : sequence.Bounded := by
    have hfield {name : String} {t : Selector} (ht : t.Bounded) : (fields [(name, t)]).Bounded :=
      .fields (by simpa using ht)
    exact .union (by simpa using ⟨hfield .edge, hfield (hfield .edge)⟩)
  have hnot : ¬ PilesUp sequence := by
    refine hlimited.not_pilesUp (X := {sequence, .union [sequence, rest]}) (.inl rfl) ?_
    intro point hpoint parent segment next hnext
    have hsequence : sequence.explore? parent segment =
        if segment.text == "a" then some (.union [.edge, rest]) else none := by
      cases ha : segment.text == "a" <;>
        simp [sequence, explore?, exploreIn, collapse?, List.lookup_cons, ha]
    have hrest : rest.explore? parent segment =
        if segment.text == "b" then some .edge else none := by
      cases hb : segment.text == "b" <;> simp [rest, explore?, List.lookup_cons, hb]
    have hmoved : next = .union [.edge, rest] ∨ next = .edge := by
      rcases hpoint with rfl | rfl
      · rw [hsequence] at hnext
        split at hnext
        · exact .inl (Option.some.inj hnext).symm
        · cases hnext
      · rw [explore?, exploreIn, exploreIn, exploreIn, hsequence, hrest] at hnext
        split at hnext
        · next ha =>
          rw [eq_of_beq ha] at hnext
          exact .inl (Option.some.inj hnext).symm
        · split at hnext
          · exact .inr (Option.some.inj hnext).symm
          · cases hnext
    rcases hmoved with rfl | rfl
    · refine ⟨Nat.le_refl 1, ?_⟩
      rintro moved ⟨⟩
      exact .inr rfl
    · refine ⟨Nat.le_refl 1, ?_⟩
      rintro moved ⟨⟩
      exact .inl rfl
  have hnone (sequence' : Selector) (h : OccursIn (recursion .unbounded sequence') s) :
      ¬ PilesUp sequence' := hlimited.eq_of_occursIn_recursion h ▸ hnot
  obtain ⟨hmembers, hstates⟩ := exists_membersAtMost_iff hs
  exact ⟨hs, hmembers.2 hnone, hstates.1 (hmembers.2 hnone)⟩

/-- Two edges come up at once with every step, and no member is merged with its equals. -/
theorem not_membersAtMost_doubling :
    let s : Selector := .recursion .unbounded (.all (.union [.edge, .edge]))
    compile s.toNode = .ok s ∧ ∀ bound, ¬ s.MembersAtMost bound := by
  intro s
  have hs : compile s.toNode = .ok s := rfl
  have hpiles : PilesUp (.all (.union [.edge, .edge])) :=
    .together ⟨[], .null, .index 0, _, _, rfl, rfl, rfl, Nat.le_refl 2⟩
  exact ⟨hs, hpiles.not_membersAtMost (wellFormed_of_compile hs) .refl⟩

end DagSelect
