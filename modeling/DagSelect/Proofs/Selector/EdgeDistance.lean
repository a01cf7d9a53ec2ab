import DagSelect.Proofs.Selector.Step
import DagSelect.Proofs.Selector.WellFormed

/-!
# How far away the edges are

`EdgeAt k s` says that a selector has an edge of its own, one that is not inside a further
recursion, which comes up after `k` steps: every selector that leads on from a node to its children
is one step, a union is none. The edges that come up at once are those that `hasEdge` sees.

A recursion with a limit ends evenly when all its edges come up in the same step of a lap. Its last
lap then drops all of them, and no step lets an edge out of it (`EndsEvenly.explore?`).
-/

namespace DagSelect.Selector

/-- There is an edge that is not inside a further recursion, with so many steps up to it. -/
inductive EdgeAt : Nat → Selector → Prop
  | edge : EdgeAt 0 .edge
  | all {k : Nat} {next : Selector} : EdgeAt k next → EdgeAt (k + 1) (.all next)
  | fields {k : Nat} {selections : List (String × Selector)} {e : String × Selector} :
      e ∈ selections → EdgeAt k e.2 → EdgeAt (k + 1) (.fields selections)
  | index {k : Nat} {position : Int64} {next : Selector} :
      EdgeAt k next → EdgeAt (k + 1) (.index position next)
  | range {k : Nat} {start stop : Int64} {next : Selector} :
      EdgeAt k next → EdgeAt (k + 1) (.range start stop next)
  | union {k : Nat} {members : List Selector} {m : Selector} :
      m ∈ members → EdgeAt k m → EdgeAt k (.union members)

theorem hasOwnEdge_iff_edgeAt {s : Selector} : s.HasOwnEdge ↔ ∃ k, s.EdgeAt k := by
  constructor
  · intro h
    induction h with
    | edge => exact ⟨0, .edge⟩
    | all _ ih => exact ih.imp' _ fun _ => .all
    | fields he _ ih => exact ih.imp' _ fun _ => .fields he
    | index _ ih => exact ih.imp' _ fun _ => .index
    | range _ ih => exact ih.imp' _ fun _ => .range
    | union hm _ ih => exact ih.imp fun _ => .union hm
  · rintro ⟨k, h⟩
    induction h with
    | edge => exact .edge
    | all _ ih => exact .all ih
    | fields he _ ih => exact .fields he ih
    | index _ ih => exact .index ih
    | range _ ih => exact .range ih
    | union hm _ ih => exact .union hm ih

/-- The edges that come up at once are the ones at the top. -/
theorem edgeAt_zero_iff {s : Selector} : s.EdgeAt 0 ↔ s.hasEdge = true := by
  induction s with
  | edge => exact ⟨fun _ => rfl, fun _ => .edge⟩
  | union members ih =>
    rw [hasEdge, anyEdge_eq_any, List.any_eq_true]
    constructor
    · intro h
      cases h with
      | union hm h => exact ⟨_, hm, (ih _ hm).1 h⟩
    · rintro ⟨m, hm, h⟩
      exact .union hm ((ih m hm).2 h)
  | _ => exact ⟨nofun, nofun⟩

/-! ## Rewriting edges -/

/-- The edges that are left were out of sight, or are part of what was put in. -/
theorem EdgeAt.of_replaceEdges? {replacement : Option Selector} {t u : Selector} {k : Nat}
    (hu : t.replaceEdges? replacement = some u) (h : u.EdgeAt k) :
    (∃ r ∈ replacement, r.EdgeAt k) ∨ k ≠ 0 ∧ t.EdgeAt k := by
  refine replaceEdges?_rec
    (P := fun t u => u.EdgeAt k → (∃ r ∈ replacement, r.EdgeAt k) ∨ k ≠ 0 ∧ t.EdgeAt k)
    ?_ ?_ ?_ hu h
  · exact fun r hr h => .inl ⟨r, hr, h⟩
  · rintro t ht h
    refine .inr ⟨?_, h⟩
    rintro rfl
    exact Bool.eq_false_iff.1 ht (edgeAt_zero_iff.1 h)
  · intro members results u each hu
    have hresults : ∀ r ∈ results, r.EdgeAt k →
        (∃ r ∈ replacement, r.EdgeAt k) ∨ k ≠ 0 ∧ (Selector.union members).EdgeAt k := by
      intro r hr h
      obtain ⟨m, hm, hmr⟩ := each r hr
      exact (hmr h).imp_right fun ⟨hk, h⟩ => ⟨hk, .union hm h⟩
    refine collapse?_rec (P := (EdgeAt k · →
      (∃ r ∈ replacement, r.EdgeAt k) ∨ k ≠ 0 ∧ (Selector.union members).EdgeAt k)) hu hresults ?_
    rintro (_ | ⟨⟩)
    next h hr => exact hresults _ hr h

/-! ## Recursions that end evenly -/

/-- All the edges are equally far away, except perhaps some at the top. An edge at the top is not
led to by a step: it goes when the first step is made. -/
def EvenlyAway (s : Selector) : Prop := ∃ k, ∀ d, s.EdgeAt d → d = 0 ∨ d = k

/-- All the edges of a recursion with a limit come up in the same step of a lap, unless an endless
recursion lies around it. -/
inductive EndsEvenly : Selector → Prop
  | matcher : EndsEvenly .matcher
  | all {next : Selector} : EndsEvenly next → EndsEvenly (.all next)
  | fields {selections : List (String × Selector)} :
      (∀ e ∈ selections, EndsEvenly e.2) → EndsEvenly (.fields selections)
  | index {position : Int64} {next : Selector} : EndsEvenly next → EndsEvenly (.index position next)
  | range {start stop : Int64} {next : Selector} :
      EndsEvenly next → EndsEvenly (.range start stop next)
  | union {members : List Selector} : (∀ m ∈ members, EndsEvenly m) → EndsEvenly (.union members)
  | limited {laps : Nat} {sequence current : Selector} :
      sequence.EvenlyAway → current.EvenlyAway → EndsEvenly sequence → EndsEvenly current →
      EndsEvenly (.recursive (.depth laps) sequence current)
  | endless {sequence current : Selector} : EndsEvenly (.recursive .unbounded sequence current)
  | edge : EndsEvenly .edge

theorem unionWise_endsEvenly : UnionWise EndsEvenly where
  member := fun (.union h) => h
  union := fun _ => .union

theorem EvenlyAway.of_edgeAt_succ {current next : Selector} (h : current.EvenlyAway)
    (hnearer : ∀ d, next.EdgeAt d → current.EdgeAt (d + 1)) :
    ∃ k, ∀ d, next.EdgeAt d → d = k := by
  obtain ⟨k, hk⟩ := h
  refine ⟨k - 1, fun d hd => ?_⟩
  have := hk (d + 1) (hnearer d hd)
  omega

/-- When an edge comes up all of them do, so nothing but the replacement has edges afterwards. -/
theorem EdgeAt.mem_of_replaceEdges? {replacement : Option Selector} {t u : Selector} {k d : Nat}
    (ht : ∀ d, t.EdgeAt d → d = k) (hedge : t.hasEdge = true)
    (hu : t.replaceEdges? replacement = some u) (h : u.EdgeAt d) :
    ∃ r ∈ replacement, r.EdgeAt d := by
  rcases h.of_replaceEdges? hu with h | ⟨hd, h⟩
  · exact h
  · exact absurd ((ht d h).trans (ht 0 (edgeAt_zero_iff.2 hedge)).symm) hd

/-- An endless recursion stays around what it goes on with. -/
theorem exists_of_advance?_unbounded {sequence next u : Selector}
    (hu : advance? .unbounded sequence next = some u) :
    ∃ current, u = .recursive .unbounded sequence current := by
  rcases advance?_cases hu with ⟨-, rfl⟩ | ⟨-, hlast, -⟩ | ⟨-, -, moved, -, rfl⟩
  · exact ⟨next, rfl⟩
  · cases hlast
  · exact ⟨moved, rfl⟩

/-- What a limited recursion goes on with has no edges of its own: the last lap drops all of
them. -/
theorem EndsEvenly.advance? {laps : Nat} {sequence current next u : Selector}
    (hsequence : sequence.EvenlyAway) (hcurrent : current.EvenlyAway)
    (hsequenceEnds : sequence.EndsEvenly) (hnext : next.EndsEvenly)
    (hnearer : ∀ d, next.EdgeAt d → current.EdgeAt (d + 1))
    (hu : Selector.advance? (.depth laps) sequence next = some u) :
    u.EndsEvenly ∧ ∀ d, ¬ u.EdgeAt d := by
  obtain ⟨k, hk⟩ := hcurrent.of_edgeAt_succ hnearer
  rcases advance?_cases hu with ⟨-, rfl⟩ | ⟨hedge, -, hrest⟩ | ⟨hedge, -, moved, hmoved, rfl⟩
  · exact ⟨.limited hsequence ⟨k, fun d hd => .inr (hk d hd)⟩ hsequenceEnds hnext, nofun⟩
  · have hends := unionWise_endsEvenly.replaceEdges? hnext
      (fun r hr => (Option.not_mem_none r hr).elim) hrest
    refine ⟨hends, fun d hd => ?_⟩
    obtain ⟨_, ⟨⟩, -⟩ := hd.mem_of_replaceEdges? hk hedge hrest
  · have hmoves : moved.EvenlyAway := by
      obtain ⟨l, hl⟩ := hsequence
      refine ⟨l, fun d hd => ?_⟩
      obtain ⟨_, ⟨⟩, h⟩ := hd.mem_of_replaceEdges? hk hedge hmoved
      exact hl d h
    have hmovedEnds : moved.EndsEvenly := by
      refine unionWise_endsEvenly.replaceEdges? hnext ?_ hmoved
      rintro r ⟨⟩
      exact hsequenceEnds
    exact ⟨.limited hsequence hmoves hsequenceEnds hmovedEnds, nofun⟩

/-- With every step every edge gets nearer by one, and no edges get out of a recursion. -/
theorem EndsEvenly.explore? {parent : Node} {s : Segment} {t u : Selector} (ht : t.EndsEvenly)
    (hu : t.explore? parent s = some u) :
    u.EndsEvenly ∧ ∀ d, u.EdgeAt d → t.EdgeAt (d + 1) := by
  refine explore?_rec (P := fun t u => t.EndsEvenly →
    u.EndsEvenly ∧ ∀ d, u.EdgeAt d → t.EdgeAt (d + 1)) ?_ ?_ ?_ ?_ ?_ ?_ hu ht
  · exact fun _ (.all h) => ⟨h, fun _ => .all⟩
  · exact fun _ e he (.fields h) => ⟨h e he, fun _ => .fields he⟩
  · exact fun _ _ (.index h) => ⟨h, fun _ => .index⟩
  · exact fun _ _ _ (.range h) => ⟨h, fun _ => .range⟩
  · intro members results u each hu (.union hmembers)
    have hresults : ∀ r ∈ results,
        r.EndsEvenly ∧ ∀ d, r.EdgeAt d → (Selector.union members).EdgeAt (d + 1) := by
      intro r hr
      obtain ⟨m, hm, hmr⟩ := each r hr
      obtain ⟨hends, hnearer⟩ := hmr (hmembers m hm)
      exact ⟨hends, fun d h => .union hm (hnearer d h)⟩
    refine collapse?_rec hu hresults ⟨.union fun r hr => (hresults r hr).1, ?_⟩
    rintro d (_ | ⟨⟩)
    next h hr => exact (hresults _ hr).2 d h
  · intro limit sequence current next u hnext hu h
    cases h with
    | endless =>
      obtain ⟨moved, rfl⟩ := exists_of_advance?_unbounded hu
      exact ⟨.endless, nofun⟩
    | limited hsequence hcurrent hsequenceEnds hcurrentEnds =>
      obtain ⟨hnextEnds, hnearer⟩ := hnext hcurrentEnds
      obtain ⟨hends, hnone⟩ :=
        EndsEvenly.advance? hsequence hcurrent hsequenceEnds hnextEnds hnearer hu
      exact ⟨hends, fun d hd => absurd hd (hnone d)⟩

end DagSelect.Selector
