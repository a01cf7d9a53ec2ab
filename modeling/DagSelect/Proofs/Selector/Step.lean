import DagSelect.Proofs.Selector.Along

/-!
# What a step gives

What is to be shown of one step of exploring is shown here in the form of an induction rule,
`explore?_rec`, with one case for each kind of selector that leads on. A recursion makes its step in
two parts, the step of the point it has reached and then `advance?`; what the second part can give
is said by `advance?_cases`, and what rewriting edges can give by `replaceEdges?_rec`.

Many properties are preserved by steps for the same reason: they hold of the parts of whatever they
hold of, and of the unions and recursions that a step puts together. These are the hereditary ones
(`Hereditary.explore?`). For rewriting edges unions are enough (`UnionWise.replaceEdges?`).
-/

namespace DagSelect.Selector

/-- What holds of every member that is left holds of the union of them. -/
theorem collapse?_rec {P : Selector → Prop} {members : List Selector} {t : Selector}
    (ht : collapse? members = some t) (each : ∀ m ∈ members, P m) (union : P (.union members)) :
    P t := by
  match members with
  | [] => cases ht
  | [m] =>
    cases ht
    exact each t (by simp)
  | m :: n :: rest =>
    cases ht
    exact union

theorem collapse?_map {f : Selector → Selector} {members : List Selector}
    (hf : ∀ ms, f (.union ms) = .union (ms.map f)) :
    collapse? (members.map f) = (collapse? members).map f := by
  match members with
  | [] => rfl
  | [m] => rfl
  | m :: n :: rest => exact congrArg some (hf (m :: n :: rest)).symm

theorem ne_nil_of_collapse?_eq_some {members : List Selector} {t : Selector}
    (h : collapse? members = some t) : members ≠ [] := by
  rintro rfl
  cases h

theorem exists_collapse?_of_ne_nil {members : List Selector} (h : members ≠ []) :
    ∃ t, collapse? members = some t := by
  match members with
  | [] => exact absurd rfl h
  | [m] => exact ⟨m, rfl⟩
  | m :: n :: rest => exact ⟨.union (m :: n :: rest), rfl⟩

/-- What distributes over unions of selectors that there are distributes over what is left of a
union. -/
theorem exists_collapse?_iff {P : Selector → Prop}
    (hP : ∀ ts, ts ≠ [] → (P (.union ts) ↔ ∃ t ∈ ts, P t)) (ts : List Selector) :
    (∃ t ∈ collapse? ts, P t) ↔ ∃ t ∈ ts, P t := by
  match ts with
  | [] => simp [collapse?]
  | [t] => simp [collapse?]
  | t :: u :: rest => simpa [collapse?] using hP (t :: u :: rest) (List.cons_ne_nil _ _)

/-- What rewriting its edges makes of a selector: an edge becomes the replacement, a union keeps
what its members become, and everything else stays as it is. -/
theorem replaceEdges?_rec {replacement : Option Selector} {P : Selector → Selector → Prop}
    (edge : ∀ r ∈ replacement, P .edge r) (keep : ∀ t, t.hasEdge = false → P t t)
    (union : ∀ members results u, (∀ r ∈ results, ∃ m ∈ members, P m r) →
      collapse? results = some u → P (.union members) u)
    {t u : Selector} (hu : t.replaceEdges? replacement = some u) : P t u := by
  induction t generalizing u with
  | edge => exact edge u hu
  | union members ih =>
    refine union members (replaceEdgesIn replacement members) u (fun r hr => ?_) hu
    rw [replaceEdgesIn_eq_filterMap] at hr
    obtain ⟨m, hm, hmr⟩ := List.mem_filterMap.1 hr
    exact ⟨m, hm, ih m hm hmr⟩
  | _ =>
    cases hu
    exact keep _ rfl

theorem advance?_within {limit : Limit} {sequence next : Selector} (h : next.hasEdge = false) :
    advance? limit sequence next = some (.recursive limit sequence next) :=
  if_neg (Bool.eq_false_iff.1 h)

theorem advance?_last {limit : Limit} {sequence next : Selector} (h : next.hasEdge = true)
    (hlast : limit.isLast = true) : advance? limit sequence next = next.replaceEdges? none := by
  rw [advance?, if_pos h, if_pos hlast]

theorem advance?_round {limit : Limit} {sequence next : Selector} (h : next.hasEdge = true)
    (hlast : limit.isLast = false) :
    advance? limit sequence next = (next.replaceEdges? (some sequence)).map fun current =>
      .recursive limit.decrement sequence current := by
  rw [advance?, if_pos h, if_neg (Bool.eq_false_iff.1 hlast)]

/-- A recursion moves on within its lap, ends with its last lap, or begins another lap. -/
theorem advance?_cases {limit : Limit} {sequence next u : Selector}
    (hu : advance? limit sequence next = some u) :
    (next.hasEdge = false ∧ u = .recursive limit sequence next) ∨
      (next.hasEdge = true ∧ limit.isLast = true ∧ next.replaceEdges? none = some u) ∨
      (next.hasEdge = true ∧ limit.isLast = false ∧
        ∃ current, next.replaceEdges? (some sequence) = some current ∧
          u = .recursive limit.decrement sequence current) := by
  cases hedge : next.hasEdge with
  | false =>
    rw [advance?_within hedge, Option.some.injEq] at hu
    exact .inl ⟨rfl, hu.symm⟩
  | true =>
    cases hlast : limit.isLast with
    | true =>
      rw [advance?_last hedge hlast] at hu
      exact .inr (.inl ⟨rfl, rfl, hu⟩)
    | false =>
      rw [advance?_round hedge hlast, Option.map_eq_some_iff] at hu
      obtain ⟨current, hcurrent, rfl⟩ := hu
      exact .inr (.inr ⟨rfl, rfl, current, hcurrent, rfl⟩)

/-- What a step can give. Whether the parent and the segment fit is of no account here. -/
theorem explore?_rec {parent : Node} {s : Segment} {P : Selector → Selector → Prop}
    (all : ∀ next, P (.all next) next)
    (fields : ∀ selections, ∀ e ∈ selections, P (.fields selections) e.2)
    (index : ∀ i next, P (.index i next) next)
    (range : ∀ start stop next, P (.range start stop next) next)
    (union : ∀ members results u, (∀ r ∈ results, ∃ m ∈ members, P m r) →
      collapse? results = some u → P (.union members) u)
    (recursive : ∀ limit sequence current next u, P current next →
      advance? limit sequence next = some u → P (.recursive limit sequence current) u)
    {t u : Selector} (hu : t.explore? parent s = some u) : P t u := by
  induction t generalizing u with
  | matcher => cases hu
  | edge => cases hu
  | all next =>
    cases hu
    exact all next
  | fields selections =>
    obtain ⟨l, r, hlr, -⟩ := List.lookup_eq_some_iff.1 hu
    exact fields selections (s.text, u) (by simp [hlr])
  | index i next =>
    unfold explore? at hu
    split at hu
    · cases hu
      exact index i next
    · cases hu
  | range start stop next =>
    unfold explore? at hu
    split at hu
    · split at hu
      · cases hu
        exact range start stop next
      · cases hu
    · cases hu
  | union members ih =>
    refine union members (exploreIn parent s members) u (fun r hr => ?_) hu
    rw [exploreIn_eq_filterMap] at hr
    obtain ⟨m, hm, hmr⟩ := List.mem_filterMap.1 hr
    exact ⟨m, hm, ih m hm hmr⟩
  | recursive limit sequence current _ ih =>
    obtain ⟨next, hnext, hadvance⟩ := Option.bind_eq_some_iff.1 hu
    exact recursive limit sequence current next u (ih hnext) hadvance

/-! ## Hereditary properties -/

/-- A property that holds of unions exactly when it holds of their members, the empty union
apart. -/
structure UnionWise (P : Selector → Prop) : Prop where
  member {members : List Selector} : P (.union members) → ∀ m ∈ members, P m
  union {members : List Selector} : members ≠ [] → (∀ m ∈ members, P m) → P (.union members)

/-- A property that steps preserve, since it is passed on to parts and to what is put together of
parts. -/
structure Hereditary (P : Selector → Prop) : Prop extends UnionWise P where
  all {next : Selector} : P (.all next) → P next
  fields {selections : List (String × Selector)} : P (.fields selections) → ∀ e ∈ selections, P e.2
  index {position : Int64} {next : Selector} : P (.index position next) → P next
  range {start stop : Int64} {next : Selector} : P (.range start stop next) → P next
  sequence {limit : Limit} {sequence current : Selector} :
    P (.recursive limit sequence current) → P sequence
  current {limit : Limit} {sequence current : Selector} :
    P (.recursive limit sequence current) → P current
  moved {limit : Limit} {sequence current next : Selector} :
    P (.recursive limit sequence current) → P next → P (.recursive limit sequence next)
  decrement {limit : Limit} {sequence current : Selector} : limit.isLast = false →
    P (.recursive limit sequence current) → P (.recursive limit.decrement sequence current)

section

variable {P : Selector → Prop}

theorem UnionWise.collapse? (hP : UnionWise P) {members : List Selector} {t : Selector}
    (each : ∀ m ∈ members, P m) (ht : Selector.collapse? members = some t) : P t :=
  collapse?_rec ht each (hP.union (ne_nil_of_collapse?_eq_some ht) each)

theorem UnionWise.replaceEdges? (hP : UnionWise P) {replacement : Option Selector} {t u : Selector}
    (ht : P t) (hr : ∀ r ∈ replacement, P r) (hu : t.replaceEdges? replacement = some u) : P u := by
  refine replaceEdges?_rec (P := fun t u => P t → P u) ?_ ?_ ?_ hu ht
  · intro r h _
    exact hr r h
  · intro t _ h
    exact h
  · intro members results u each hu h
    refine hP.collapse? (fun r hrm => ?_) hu
    obtain ⟨m, hm, hmr⟩ := each r hrm
    exact hmr (hP.member h m hm)

theorem Hereditary.explore? (hP : Hereditary P) {parent : Node} {s : Segment} {t u : Selector}
    (ht : P t) (hu : t.explore? parent s = some u) : P u := by
  refine explore?_rec (P := fun t u => P t → P u) ?_ ?_ ?_ ?_ ?_ ?_ hu ht
  · exact fun _ => hP.all
  · exact fun _ e he h => hP.fields h e he
  · exact fun _ _ => hP.index
  · exact fun _ _ _ => hP.range
  · intro members results u each hu h
    refine hP.collapse? (fun r hr => ?_) hu
    obtain ⟨m, hm, hmr⟩ := each r hr
    exact hmr (hP.member h m hm)
  · intro limit sequence current next u hnext hu h
    have hnext := hnext (hP.current h)
    rcases advance?_cases hu with ⟨-, rfl⟩ | ⟨-, -, hrest⟩ | ⟨-, hlast, current, hcurrent, rfl⟩
    · exact hP.moved h hnext
    · exact hP.replaceEdges? hnext (fun r hr => (Option.not_mem_none r hr).elim) hrest
    · refine hP.moved (hP.decrement hlast h) (hP.replaceEdges? hnext ?_ hcurrent)
      rintro r ⟨⟩
      exact hP.sequence h

theorem Hereditary.exploreAlong? (hP : Hereditary P) {steps : List (Node × Segment)}
    {t u : Selector} (ht : P t) (hu : t.exploreAlong? steps = some u) : P u :=
  List.foldlM_preserves (fun _ _ _ => hP.explore?) ht hu

end

end DagSelect.Selector
