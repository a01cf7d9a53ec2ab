import DagSelect.Selector.Compile
import DagSelect.Proofs.Selector.Tagged

/-!
# Whose edges a recursion rewrites

While a recursion is under way its edges are hidden inside it, so that the recursion outside
rewrites only its own. When it ends with its last lap, the edges that its remainder still hides are
left without it, and a recursion outside that meets one of them takes it for its own. `Placed` is
the invariant: an edge that is not stray stands directly inside its own recursion, and everything
else that a recursion holds was written inside that recursion.
-/

namespace DagSelect

def Place.Inside (p q : Place) : Prop := q <+: p ∧ q.length < p.length

theorem Place.Inside.trans {p q r : Place} (h : p.Inside q) (h' : q.Inside r) : p.Inside r :=
  ⟨h'.1.trans h.1, Nat.lt_trans h'.2 h.2⟩

theorem Place.Inside.ne {p q : Place} (h : p.Inside q) : p ≠ q := by
  rintro rfl
  exact Nat.lt_irrefl _ h.2

theorem Place.inside_append_singleton (p : Place) (i : Nat) : Place.Inside (p ++ [i]) p :=
  ⟨List.prefix_append p [i], by simp⟩

/-- A recursion with a limit lies inside another one, or would if a recursion lay around the
whole. -/
inductive Selector.LimitedInside : Bool → Selector → Prop
  | all {inside : Bool} {next : Selector} : LimitedInside inside next →
      LimitedInside inside (.all next)
  | fields {inside : Bool} {selections : List (String × Selector)} {e : String × Selector} :
      e ∈ selections → LimitedInside inside e.2 → LimitedInside inside (.fields selections)
  | index {inside : Bool} {i : Int64} {next : Selector} :
      LimitedInside inside next → LimitedInside inside (.index i next)
  | range {inside : Bool} {start stop : Int64} {next : Selector} :
      LimitedInside inside next → LimitedInside inside (.range start stop next)
  | union {inside : Bool} {members : List Selector} {m : Selector} :
      m ∈ members → LimitedInside inside m → LimitedInside inside (.union members)
  | here {limit : Limit} {sequence current : Selector} :
      limit ≠ .unbounded → LimitedInside true (.recursive limit sequence current)
  | sequence {inside : Bool} {limit : Limit} {sequence current : Selector} :
      LimitedInside true sequence → LimitedInside inside (.recursive limit sequence current)
  | current {inside : Bool} {limit : Limit} {sequence current : Selector} :
      LimitedInside true current → LimitedInside inside (.recursive limit sequence current)

namespace Tagged

/-- The parts of a selector stand where they may stand inside the recursion at `around`. Only where
recursions with a limit may lie inside others, which is what `limited` says, are there stray edges
inside a recursion. -/
inductive Placed (limited : Prop) : Option Place → Tagged → Prop
  | matcher {around : Option Place} : Placed limited around .matcher
  | all {around : Option Place} {next : Tagged} :
      Placed limited around next → Placed limited around (.all next)
  | fields {around : Option Place} {selections : List (String × Tagged)} :
      (∀ e ∈ selections, Placed limited around e.2) → Placed limited around (.fields selections)
  | index {around : Option Place} {i : Int64} {next : Tagged} :
      Placed limited around next → Placed limited around (.index i next)
  | range {around : Option Place} {start stop : Int64} {next : Tagged} :
      Placed limited around next → Placed limited around (.range start stop next)
  | union {around : Option Place} {members : List Tagged} :
      (∀ m ∈ members, Placed limited around m) → Placed limited around (.union members)
  | recursive {around : Option Place} {place : Place} {limit : Limit} {sequence current : Tagged} :
      (∀ p ∈ around, place.Inside p ∧ (limit ≠ .unbounded → limited)) →
      Placed limited (some place) sequence → Placed limited (some place) current →
      Placed limited around (.recursive place limit sequence current)
  | own {around : Option Place} : Placed limited around (.edge ⟨around, false⟩)
  | stray {around owner : Option Place} :
      (∀ p ∈ around, (∃ q ∈ owner, Place.Inside q p) ∧ limited) →
      Placed limited around (.edge ⟨owner, true⟩)

variable {limited : Prop}

/-! ## What is written is placed -/

theorem placed_tag (s : Selector) {around : Option Place} {place : Place}
    (h : ∀ p ∈ around, place.Inside p) (hlimited : s.LimitedInside around.isSome → limited) :
    Placed limited around (tag around place s) := by
  have part {around : Option Place} {place : Place} (h : ∀ p ∈ around, place.Inside p) (i : Nat) :
      ∀ p ∈ around, Place.Inside (place ++ [i]) p :=
    fun p hp => (place.inside_append_singleton i).trans (h p hp)
  induction s generalizing around place with
  | matcher => exact .matcher
  | edge => exact .own
  | all next ih => exact .all (ih (part h 0) fun hl => hlimited (.all hl))
  | index i next ih => exact .index (ih (part h 0) fun hl => hlimited (.index hl))
  | range start stop next ih => exact .range (ih (part h 0) fun hl => hlimited (.range hl))
  | fields selections ih =>
    apply Placed.fields
    intro f hf
    obtain ⟨e, he, j, rfl⟩ := mem_tagSelections hf
    exact ih e he (part h j) fun hl => hlimited (.fields he hl)
  | union members ih =>
    apply Placed.union
    intro t ht
    obtain ⟨m, hm, j, rfl⟩ := mem_tagMembers ht
    exact ih m hm (part h j) fun hl => hlimited (.union hm hl)
  | recursive limit sequence current ihs ihc =>
    have hparts : ∀ p ∈ some place, Place.Inside (place ++ [0]) p := by
      rintro p ⟨⟩
      exact place.inside_append_singleton 0
    refine .recursive (fun p hp => ⟨h p hp, fun hlimit => hlimited ?_⟩)
      (ihs hparts fun hl => hlimited (.sequence hl)) (ihc hparts fun hl => hlimited (.current hl))
    obtain rfl := Option.mem_def.1 hp
    exact .here hlimit

theorem placed_ofSelector (s : Selector) (h : s.LimitedInside false → limited) :
    Placed limited none (ofSelector s) :=
  placed_tag s nofun h

/-! ## Steps keep the parts placed -/

theorem Placed.collapse? {around : Option Place} {members : List Tagged} {t : Tagged}
    (h : ∀ m ∈ members, Placed limited around m) (ht : Tagged.collapse? members = some t) :
    Placed limited around t := by
  match members with
  | [] => cases ht
  | [m] =>
    cases ht
    exact h t (by simp)
  | m :: n :: rest =>
    cases ht
    exact .union h

theorem Placed.replaceEdges? {around : Option Place} {replacement : Option Tagged} {t u : Tagged}
    (ht : Placed limited around t) (hr : ∀ r ∈ replacement, Placed limited around r)
    (hu : t.replaceEdges? replacement = some u) : Placed limited around u := by
  induction t generalizing u with
  | edge tag => exact hr u hu
  | union members ih =>
    cases ht with
    | union hmembers =>
      refine Placed.collapse? (fun n hn => ?_) hu
      rw [replaceEdgesIn_eq_filterMap] at hn
      obtain ⟨m, hm, hmn⟩ := List.mem_filterMap.1 hn
      exact ih m hm (hmembers m hm) hmn
  | _ =>
    cases hu
    exact ht

/-- What a recursion leaves behind may stand where the recursion stood. -/
theorem Placed.leave {around : Option Place} {place : Place} {t : Tagged}
    (h : ∀ p ∈ around, place.Inside p ∧ limited) (ht : Placed limited (some place) t) :
    Placed limited around t.leave := by
  induction t with
  | matcher => exact .matcher
  | all next ih =>
    cases ht with
    | all hnext => exact .all (ih hnext)
  | index i next ih =>
    cases ht with
    | index hnext => exact .index (ih hnext)
  | range start stop next ih =>
    cases ht with
    | range hnext => exact .range (ih hnext)
  | fields selections ih =>
    cases ht with
    | fields hselections =>
      rw [Tagged.leave, leaveSelections_eq_map]
      apply Placed.fields
      intro f hf
      obtain ⟨e, he, rfl⟩ := List.mem_map.1 hf
      exact ih e he (hselections e he)
  | union members ih =>
    cases ht with
    | union hmembers =>
      rw [Tagged.leave, leaveMembers_eq_map]
      apply Placed.union
      intro n hn
      obtain ⟨m, hm, rfl⟩ := List.mem_map.1 hn
      exact ih m hm (hmembers m hm)
  | recursive inner limit sequence current _ _ =>
    cases ht with
    | recursive hinner hsequence hcurrent =>
      obtain ⟨hinside, hlimit⟩ := hinner place rfl
      exact .recursive (fun p hp => ⟨hinside.trans (h p hp).1, hlimit⟩) hsequence hcurrent
  | edge tag =>
    cases ht with
    | own => exact .stray fun p hp => ⟨⟨place, rfl, (h p hp).1⟩, (h p hp).2⟩
    | stray howner =>
      obtain ⟨⟨q, hq, hinside⟩, -⟩ := howner place rfl
      exact .stray fun p hp => ⟨⟨q, hq, hinside.trans (h p hp).1⟩, (h p hp).2⟩

theorem Placed.advance? {around : Option Place} {place : Place} {limit : Limit}
    {sequence next t : Tagged} (h : ∀ p ∈ around, place.Inside p ∧ (limit ≠ .unbounded → limited))
    (hsequence : Placed limited (some place) sequence) (hnext : Placed limited (some place) next)
    (ht : Tagged.advance? place limit sequence next = some t) : Placed limited around t := by
  unfold Tagged.advance? at ht
  split at ht
  · cases ht
    exact .recursive h hsequence hnext
  split at ht
  · next hlast =>
    obtain ⟨rest, hrest, rfl⟩ := Option.map_eq_some_iff.1 ht
    have hlimit : limit ≠ .unbounded := by
      rintro rfl
      cases hlast
    refine (hnext.replaceEdges? (fun r hr => (Option.not_mem_none r hr).elim) hrest).leave ?_
    exact fun p hp => ⟨(h p hp).1, (h p hp).2 hlimit⟩
  · obtain ⟨current, hcurrent, rfl⟩ := Option.map_eq_some_iff.1 ht
    refine .recursive (fun p hp => ⟨(h p hp).1, fun hd => (h p hp).2 ?_⟩) hsequence
      (hnext.replaceEdges? ?_ hcurrent)
    · rintro rfl
      exact hd rfl
    · rintro r ⟨⟩
      exact hsequence

theorem Placed.explore? {around : Option Place} {t u : Tagged} {parent : Node} {s : Segment}
    (ht : Placed limited around t) (hu : t.explore? parent s = some u) :
    Placed limited around u := by
  induction t generalizing around u with
  | matcher => cases hu
  | edge tag => cases hu
  | all next =>
    cases hu
    cases ht with
    | all hnext => exact hnext
  | fields selections =>
    cases ht with
    | fields hselections =>
      obtain ⟨l, r, hlr, -⟩ := List.lookup_eq_some_iff.1 hu
      exact hselections (s.text, u) (by simp [hlr])
  | index i next =>
    cases ht with
    | index hnext =>
      unfold Tagged.explore? at hu
      split at hu
      · cases hu
        exact hnext
      · cases hu
  | range start stop next =>
    cases ht with
    | range hnext =>
      unfold Tagged.explore? at hu
      split at hu
      · split at hu
        · cases hu
          exact hnext
        · cases hu
      · cases hu
  | union members ih =>
    cases ht with
    | union hmembers =>
      refine Placed.collapse? (fun n hn => ?_) hu
      rw [exploreIn_eq_filterMap] at hn
      obtain ⟨m, hm, hmn⟩ := List.mem_filterMap.1 hn
      exact ih m hm (hmembers m hm) hmn
  | recursive place limit sequence current _ ih =>
    cases ht with
    | recursive hplace hsequence hcurrent =>
      obtain ⟨next, hnext, hadvance⟩ := Option.bind_eq_some_iff.1 hu
      exact Placed.advance? hplace hsequence (ih hcurrent hnext) hadvance

theorem Placed.exploreAlong? {around : Option Place} {t u : Tagged} {steps : List (Node × Segment)}
    (ht : Placed limited around t) (hu : t.exploreAlong? steps = some u) :
    Placed limited around u :=
  List.foldlM_preserves (fun _ _ _ ha hb => ha.explore? hb) ht hu

/-! ## What a step rewrites -/

/-- The edges a recursion takes for its own: those that are not stray are, the stray ones were
written further in. -/
theorem Placed.owner_of_mem_edges {place : Place} {t : Tagged} (ht : Placed limited (some place) t)
    {e : EdgeTag} (he : e ∈ t.edges) :
    (∃ owner, e.owner = some owner ∧ place <+: owner ∧ (owner = place ↔ e.stray = false)) ∧
      (e.stray = true → limited) := by
  induction t with
  | edge tag =>
    obtain rfl := List.mem_singleton.1 he
    cases ht with
    | own => exact ⟨⟨place, rfl, List.prefix_refl place, by simp⟩, nofun⟩
    | stray howner =>
      obtain ⟨⟨q, hq, hinside⟩, hlimited⟩ := howner place rfl
      exact ⟨⟨q, hq, hinside.1, by simp [hinside.ne]⟩, fun _ => hlimited⟩
  | union members ih =>
    cases ht with
    | union hmembers =>
      rw [edges, edgesIn_eq_flatMap] at he
      obtain ⟨m, hm, hedge⟩ := List.mem_flatMap.1 he
      exact ih m hm (hmembers m hm) hedge
  | _ => cases he

theorem Placed.owner_of_mem_rewritings {around : Option Place} {t : Tagged}
    (ht : Placed limited around t) {parent : Node} {s : Segment} {r : Place × EdgeTag}
    (hr : r ∈ t.rewritings parent s) :
    (∃ owner, r.2.owner = some owner ∧ r.1 <+: owner ∧ (owner = r.1 ↔ r.2.stray = false)) ∧
      (r.2.stray = true → limited) := by
  induction t generalizing around with
  | union members ih =>
    cases ht with
    | union hmembers =>
      rw [rewritings, rewritingsIn_eq_flatMap] at hr
      obtain ⟨m, hm, hmr⟩ := List.mem_flatMap.1 hr
      exact ih m hm (hmembers m hm) hmr
  | recursive place limit sequence current _ ih =>
    cases ht with
    | recursive hplace hsequence hcurrent =>
      rw [rewritings, List.mem_append] at hr
      rcases hr with hr | hr
      · exact ih hcurrent hr
      · split at hr
        · next next hnext =>
          obtain ⟨e, he, rfl⟩ := List.mem_map.1 hr
          exact (hcurrent.explore? hnext).owner_of_mem_edges he
        · cases hr
  | _ => cases hr

/-- Along any steps a recursion rewrites an edge of another one exactly when that edge is stray, and
the other one was then written inside it. There are no such edges to rewrite if no recursion with a
limit lies inside another. -/
theorem rewritings_owner_iff (s : Selector) (steps : List (Node × Segment)) :
    ((ofSelector s).exploreAlong? steps).map erase = s.exploreAlong? steps ∧
      ∀ t, (ofSelector s).exploreAlong? steps = some t →
        ∀ (parent : Node) (segment : Segment), ∀ r ∈ t.rewritings parent segment,
          (∃ owner, r.2.owner = some owner ∧ r.1 <+: owner ∧ (owner = r.1 ↔ r.2.stray = false)) ∧
            (¬ s.LimitedInside false → r.2.owner = some r.1) := by
  constructor
  · exact erase_exploreAlong? s steps
  · intro t ht parent segment r hr
    have hplaced : Placed (s.LimitedInside false) none t :=
      (placed_ofSelector s id).exploreAlong? ht
    obtain ⟨⟨owner, howner, hinside, hstray⟩, hlimited⟩ := hplaced.owner_of_mem_rewritings hr
    constructor
    · exact ⟨owner, howner, hinside, hstray⟩
    · intro hnone
      have hown : r.2.stray = false := Bool.eq_false_iff.2 fun h => hnone (hlimited h)
      rw [howner, hstray.2 hown]

theorem rewritings_owner_iff_explore_all :
    ∃ t, (ofSelector (.recursion .unbounded (.all .edge))).exploreAlong?
        [(.list [.list [.int 1]], .index 0)] = some t ∧
      ∃ r ∈ t.rewritings (.list [.int 1]) (.index 0), r.2.owner = some r.1 := by
  obtain ⟨t, ht, hr⟩ : ∃ t, (ofSelector (.recursion .unbounded (.all .edge))).exploreAlong?
      [(.list [.list [.int 1]], .index 0)] = some t ∧
      ([], ⟨some [], false⟩) ∈ t.rewritings (.list [.int 1]) (.index 0) :=
    ⟨_, rfl, List.mem_singleton_self _⟩
  have hnone : ¬ (Selector.recursion .unbounded (.all .edge)).LimitedInside false := by
    rintro (_ | _ | _ | _ | _ | _ | h | h) <;> exact nomatch h
  have howner := (rewritings_owner_iff _ _).2 t ht (.list [.int 1]) (.index 0) _ hr
  exact ⟨t, ht, _, hr, howner.2 hnone⟩

/-- An endless recursion around one with a single lap. The inner one ends in the second step, and
its remainder still hides an edge of its own; the third step brings it up and the outer recursion
goes round there. -/
theorem exists_foreign_rewriting :
    ∃ (n : Node) (s : Selector) (steps : List (Node × Segment)) (t : Tagged) (parent : Node)
      (segment : Segment),
      compile n = .ok s ∧ (ofSelector s).exploreAlong? steps = some t ∧
        ∃ r ∈ t.rewritings parent segment, r.2.owner ≠ some r.1 := by
  let inner : Selector := .recursion (.depth 1) (.all (.union [.edge, .all .edge]))
  let outer : Selector := .recursion .unbounded
    (.union [.index 0 inner, .fields [("x", .edge), ("m", .matcher)]])
  let bottom : Node := .list [.map [("m", .int 1)]]
  let steps : List (Node × Segment) :=
    [(.list [.list [bottom]], .index 0), (.list [bottom], .index 0)]
  have hcompile : compile outer.toNode = .ok outer := rfl
  obtain ⟨t, ht, hr⟩ : ∃ t, (ofSelector outer).exploreAlong? steps = some t ∧
      t.rewritings bottom (.index 0) = [([], ⟨some [0, 0, 0], true⟩)] := ⟨_, rfl, rfl⟩
  refine ⟨outer.toNode, outer, steps, t, bottom, .index 0, hcompile, ht,
    ([], ⟨some [0, 0, 0], true⟩), ?_, ?_⟩
  · rw [hr]
    exact List.mem_singleton_self _
  · decide

end Tagged

end DagSelect
