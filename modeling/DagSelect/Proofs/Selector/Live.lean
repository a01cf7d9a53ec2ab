import DagSelect.Proofs.Selector.Flat

/-!
# What is live

Of all that stands in a selector the members at its top are live, and so are those at the points of
recursions that are live: these are the ones which the next step goes on with. What is live is gone
on with as if it were alone, whatever the recursions around it do meanwhile, except that its edges
may be replaced or dropped (`Live.flatAlong`). So every recursion that is written in a well-formed
selector gets live at its start along some run (`WellFormedIn.getsLive`), and goes on from there by
itself.
-/

namespace DagSelect.Selector

/-- The first selector stands somewhere in the second, or is the second. -/
inductive OccursIn (u : Selector) : Selector → Prop
  | refl : OccursIn u u
  | all {next : Selector} (h : OccursIn u next) : OccursIn u (.all next)
  | fields {selections : List (String × Selector)} {e : String × Selector} (he : e ∈ selections)
      (h : OccursIn u e.2) : OccursIn u (.fields selections)
  | index {position : Int64} {next : Selector} (h : OccursIn u next) :
      OccursIn u (.index position next)
  | range {start stop : Int64} {next : Selector} (h : OccursIn u next) :
      OccursIn u (.range start stop next)
  | union {members : List Selector} {m : Selector} (hm : m ∈ members) (h : OccursIn u m) :
      OccursIn u (.union members)
  | sequence {limit : Limit} {sequence current : Selector} (h : OccursIn u sequence) :
      OccursIn u (.recursive limit sequence current)
  | current {limit : Limit} {sequence current : Selector} (h : OccursIn u current) :
      OccursIn u (.recursive limit sequence current)

variable {m n t u v : Selector} {L K : List Selector} {limit : Limit} {sequence : Selector}

theorem OccursIn.trans (h : OccursIn u v) (hv : OccursIn v t) : OccursIn u t := by
  induction hv with
  | refl => exact h
  | all _ ih => exact .all ih
  | fields he _ ih => exact .fields he ih
  | index _ ih => exact .index ih
  | range _ ih => exact .range ih
  | union hm _ ih => exact .union hm ih
  | sequence _ ih => exact .sequence ih
  | current _ ih => exact .current ih

theorem Hereditary.of_occursIn {P : Selector → Prop} (hP : Hereditary P) (h : OccursIn u t)
    (ht : P t) : P u := by
  induction h with
  | refl => exact ht
  | all _ ih => exact ih (hP.all ht)
  | fields he _ ih => exact ih (hP.fields ht _ he)
  | index _ ih => exact ih (hP.index ht)
  | range _ ih => exact ih (hP.range ht)
  | union hm _ ih => exact ih (hP.member ht _ hm)
  | sequence _ ih => exact ih (hP.sequence ht)
  | current _ ih => exact ih (hP.current ht)

/-- The selector is one of these, or one of those at the point of a recursion that is live. -/
inductive Live (m : Selector) : List Selector → Prop
  | here {L : List Selector} (hm : m ∈ L) : Live m L
  | under {L K : List Selector} {limit : Limit} {sequence : Selector}
      (hmem : .recursive limit sequence (.union K) ∈ L) (h : Live m K) : Live m L

/-! ## Members -/

/-- Edges are of no account. -/
theorem Live.mono (hm : m ≠ .edge) (h : Live m K) (hsub : ∀ k ∈ K, k ≠ .edge → k ∈ L) :
    Live m L := by
  cases h with
  | here hmem => exact .here (hsub m hmem hm)
  | under hmem h => exact .under (hsub _ hmem nofun) h

theorem Live.of_recursive (h : Live (.recursive limit sequence (.union K)) L) (hm : Live m K) :
    Live m L := by
  induction h with
  | here hmem => exact .under hmem hm
  | under hmem _ ih => exact .under hmem ih

/-- What is live in selectors that are live is live. -/
theorem Live.trans (hm : m ≠ .edge) (h : Live m K) (hK : ∀ k ∈ K, k ≠ .edge → Live k L) :
    Live m L := by
  cases h with
  | here hmem => exact hK m hmem hm
  | under hmem h => exact (hK _ hmem nofun).of_recursive h

theorem Live.ne_nil (h : Live m L) : L ≠ [] := by
  cases h with
  | here hm => exact List.ne_nil_of_mem hm
  | under hmem _ => exact List.ne_nil_of_mem hmem

theorem exists_live_of_flatMap {α : Type} {f : α → List Selector} {as : List α}
    (h : Live m (as.flatMap f)) : ∃ a ∈ as, Live m (f a) := by
  cases h with
  | here hm =>
    obtain ⟨a, ha, hm⟩ := List.mem_flatMap.1 hm
    exact ⟨a, ha, .here hm⟩
  | under hmem h =>
    obtain ⟨a, ha, hmem⟩ := List.mem_flatMap.1 hmem
    exact ⟨a, ha, .under hmem h⟩

/-- A recursion that is live in what a selector comes to stands somewhere in the selector. -/
theorem exists_occursIn_of_live (h : Live (.recursive limit sequence (.union K)) t.flat) :
    ∃ current, OccursIn (.recursive limit sequence current) t ∧ current.flat = K := by
  induction t generalizing limit sequence K with
  | union members ih =>
    rw [flat_union] at h
    obtain ⟨m, hm, h⟩ := exists_live_of_flatMap h
    obtain ⟨current, hoccurs, hflat⟩ := ih m hm h
    exact ⟨current, .union hm hoccurs, hflat⟩
  | recursive limit' sequence' current' _ ih =>
    rw [flat] at h
    cases h with
    | here hm =>
      cases List.mem_singleton.1 hm
      exact ⟨current', .refl, rfl⟩
    | under hmem h =>
      cases List.mem_singleton.1 hmem
      obtain ⟨current, hoccurs, hflat⟩ := ih h
      exact ⟨current, .current hoccurs, hflat⟩
  | _ =>
    cases h with
    | here hm => cases List.mem_singleton.1 hm
    | under hmem h => cases List.mem_singleton.1 hmem

/-! ## Steps -/

/-- A selector under way in which there is nothing to open. -/
structure LaidFlat (t : Selector) : Prop where
  underWay : t.UnderWay
  flat_eq : t.flat = [t]

theorem UnderWay.laidFlat_of_mem_flat (ht : t.UnderWay) (hm : m ∈ t.flat) : m.LaidFlat :=
  ⟨ht.of_mem_flat hm, flat_of_mem_flat hm⟩

theorem LaidFlat.of_mem_point (h : LaidFlat (.recursive limit sequence (.union K))) (hm : m ∈ K) :
    m.LaidFlat := by
  have hpoint : (Selector.union K).flat = K := by
    have heq := h.flat_eq
    rw [flat] at heq
    injection heq with heq
    injection heq with _ _ heq
    injection heq
  cases h.underWay with
  | recursive _ _ _ rest => exact rest.laidFlat_of_mem_flat (hpoint.symm ▸ hm)

theorem flat_union_flatChild (step : Node × Segment) (t : Selector) :
    (Selector.union (flatChild step t)).flat = flatChild step t := by
  rw [flatChild]
  cases t.explore? step.1 step.2 with
  | none => rfl
  | some u => exact flat_union_flat u

/-- Whatever a recursion does when it moves on, it keeps what is live at its point. -/
theorem Live.advance? (hm : m ≠ .edge) (h : Live m K) (hflat : (Selector.union K).flat = K)
    (limit : Limit) (sequence : Selector) :
    Live m ((Selector.advance? limit sequence (.union K)).elim [] flat) := by
  -- edges alone are rewritten, and nothing is live by way of an edge
  have hkept (replacement : Option Selector) :
      Live m (((Selector.union K).replaceEdges? replacement).elim [] flat) := by
    refine h.mono hm fun k hk hne => ?_
    rw [flat_replaceEdges?, hflat, List.mem_flatMap]
    exact ⟨k, hk, by rw [if_neg hne]; exact List.mem_singleton_self k⟩
  cases hedge : (Selector.union K).hasEdge with
  | false =>
    rw [advance?_within hedge, Option.elim_some, flat, hflat]
    exact .under (List.mem_singleton_self _) h
  | true =>
    cases hlast : limit.isLast with
    | true =>
      rw [advance?_last hedge hlast]
      exact hkept none
    | false =>
      obtain ⟨point, hpoint⟩ := exists_replaceEdges? hedge sequence
      have hlive := hkept (some sequence)
      rw [hpoint] at hlive
      rw [advance?_round hedge hlast, hpoint]
      exact .under (List.mem_singleton_self _) hlive

/-- A step goes on with what is live as if it were alone. -/
theorem Live.flatMap_flatChild {step : Node × Segment} (h : Live m L) (hL : ∀ k ∈ L, k.LaidFlat)
    (hn : n ∈ flatChild step m) (hne : n ≠ .edge) : Live n (L.flatMap (flatChild step)) := by
  induction h with
  | here hm => exact .here (List.mem_flatMap.2 ⟨m, hm, hn⟩)
  | @under L K limit sequence hmem _ ih =>
    have hrecursion := hL _ hmem
    have hnext := ih (fun k hk => hrecursion.of_mem_point hk)
    rw [← flatChild_union] at hnext
    have hpoint : (Selector.union K).UnderWay := by
      cases hrecursion.underWay with
      | recursive _ _ _ rest => exact rest
    -- the point has gone on as the induction hypothesis says, and then the recursion moves on to it
    have hmoved := hnext.advance? hne (flat_union_flatChild step _) limit sequence
    refine hmoved.mono hne fun k hk _ => List.mem_flatMap.2 ⟨_, hmem, ?_⟩
    rwa [flatChild_recursive _ _ hpoint, if_neg hnext.ne_nil]

/-! ## Runs -/

variable {steps : List (Node × Segment)}

theorem UnderWay.laidFlat_of_mem_flatAlong (ht : t.UnderWay) (hm : m ∈ t.flatAlong steps) :
    m.LaidFlat := by
  obtain ⟨u, hu, hflat⟩ := exists_exploreAlong?_of_flatAlong (List.ne_nil_of_mem hm)
  exact (hereditary_underWay.exploreAlong? ht hu).laidFlat_of_mem_flat (hflat ▸ hm)

theorem Live.exists_exploreAlong? (h : Live m (t.flatAlong steps)) :
    ∃ u, t.exploreAlong? steps = some u ∧ Live m u.flat := by
  obtain ⟨u, hu, hflat⟩ := exists_exploreAlong?_of_flatAlong h.ne_nil
  exact ⟨u, hu, hflat ▸ h⟩

theorem Live.laidFlat (h : Live m L) (hL : ∀ k ∈ L, k.LaidFlat) : m.LaidFlat := by
  induction h with
  | here hm => exact hL m hm
  | under hmem _ ih => exact ih fun k hk => (hL _ hmem).of_mem_point hk

/-- A run goes on with what is live as if it were alone. -/
theorem Live.flatAlong (ht : t.UnderWay) (h : Live m t.flat) (hn : n ∈ m.flatAlong steps)
    (hne : n ≠ .edge) : Live n (t.flatAlong steps) := by
  have hm := h.laidFlat fun k hk => ht.laidFlat_of_mem_flat hk
  induction steps using List.reverseRecOn generalizing n with
  | nil =>
    rw [flatAlong_nil, hm.flat_eq] at hn
    rwa [List.mem_singleton.1 hn]
  | append_singleton steps step ih =>
    rw [hm.underWay.flatAlong_concat] at hn
    obtain ⟨k, hk, hn⟩ := List.mem_flatMap.1 hn
    rw [ht.flatAlong_concat]
    refine (ih hk ?_).flatMap_flatChild (fun k hk => ht.laidFlat_of_mem_flatAlong hk) hn hne
    rintro rfl
    cases hn

/-! ## What is written gets live -/

/-- The first selector is live after some run of the second. -/
def GetsLive (m t : Selector) : Prop := ∃ steps, Live m (t.flatAlong steps)

theorem GetsLive.of_explore? {u : Selector} (h : GetsLive m u) (parent : Node) (s : Segment)
    (hu : t.explore? parent s = some u) : GetsLive m t := by
  obtain ⟨steps, h⟩ := h
  refine ⟨(parent, s) :: steps, ?_⟩
  rw [Selector.flatAlong, exploreAlong?, List.foldlM_cons, hu]
  exact h

/-- What gets live in a selector gets live wherever its members are live. -/
theorem GetsLive.of_live {u : Selector} (h : GetsLive m u) (hm : m ≠ .edge) (hu : u.UnderWay)
    (ht : t.UnderWay) (hlive : ∀ k ∈ u.flat, Live k t.flat) : GetsLive m t := by
  obtain ⟨steps, h⟩ := h
  refine ⟨steps, h.trans hm fun n hn hne => ?_⟩
  rw [hu.flatAlong_eq_flatMap] at hn
  obtain ⟨k, hk, hn⟩ := List.mem_flatMap.1 hn
  exact (hlive k hk).flatAlong ht hn hne

theorem lookup_of_mem {selections : List (String × Selector)} {e : String × Selector}
    (distinct : (selections.map Prod.fst).Nodup) (he : e ∈ selections) :
    selections.lookup e.1 = some e.2 := by
  obtain ⟨before, behind, rfl⟩ := List.append_of_mem he
  refine List.lookup_eq_some_iff.2 ⟨before, behind, rfl, fun f hf => bne_iff_ne.2 ?_⟩
  rw [List.map_append, List.nodup_append] at distinct
  exact (distinct.2.2 f.1 (List.mem_map_of_mem hf) e.1 (by simp)).symm

/-- Every recursion that is written in a well-formed selector gets live at its start. -/
theorem WellFormedIn.getsLive {inside : Bool} (ht : WellFormedIn inside t)
    (h : OccursIn (recursion limit sequence) t) :
    GetsLive (.recursive limit sequence (.union sequence.flat)) t := by
  induction ht with
  | matcher | edge => cases h
  | all _ ih =>
    cases h with
    | all h => exact (ih h).of_explore? .null (.index 0) rfl
  | fields distinct _ ih =>
    cases h with
    | @fields _ e he h =>
      exact (ih e he h).of_explore? .null (.key e.1) (lookup_of_mem distinct he)
  | @index _ position _ _ _ ih =>
    cases h with
    | index h =>
      exact (ih h).of_explore? (.list []) (.index position.toInt) (if_pos ⟨rfl, rfl⟩)
  | @range _ start _ _ _ rising _ ih =>
    cases h with
    | range h =>
      exact (ih h).of_explore? (.list []) (.index start.toInt)
        (if_pos ⟨Int.le_refl _, Int64.lt_iff_toInt_lt.1 rising⟩)
  | union nonempty each ih =>
    cases h with
    | @union _ m hm h =>
      refine (ih m hm h).of_live nofun (each m hm).underWay (union nonempty each).underWay
        fun k hk => .here ?_
      rw [flat_union]
      exact List.mem_flatMap.2 ⟨m, hm, hk⟩
  | @recursive inside limit' sequence' writable returns rest ih =>
    have hlap (h : OccursIn (recursion limit sequence) sequence') :
        GetsLive (.recursive limit sequence (.union sequence.flat))
          (recursion limit' sequence') := by
      have hwell : WellFormedIn inside (recursion limit' sequence') :=
        .recursive writable returns rest
      exact (ih h).of_live nofun rest.underWay hwell.underWay fun k hk =>
        .under (List.mem_singleton_self _) (.here hk)
    cases h with
    | refl => exact ⟨[], .here (List.mem_singleton_self _)⟩
    | sequence h | current h => exact hlap h

end DagSelect.Selector
