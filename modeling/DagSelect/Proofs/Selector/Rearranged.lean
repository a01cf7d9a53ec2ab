import DagSelect.Proofs.Selector.Step
import DagSelect.Proofs.Selector.WellFormed

/-!
# Selectors that differ in their arrangement

The order of the members of a union and of selected fields, unions inside of unions, members that
are there twice and unions of a single member are matters of arrangement. Two selectors are
`Rearranged` when one comes of the other by changing any of this at any number of places.

Exploring two such selectors leads on alike and to two such selectors again (`Rearranged.explore?`),
with one reservation: of two fields with one name the first counts, so the order of fields is of no
account only as long as their names differ. They do in every selector that compiles, and go on doing
so from step to step.

Exploring a union and rewriting its edges have in common that they do the same to every member and
make a union again of what is left. What rearranging a union does to that is therefore shown once,
for whatever works on members one by one.
-/

namespace Option.Rel

variable {α : Type} {r : α → α → Prop}

theorem refl (hr : ∀ x, r x x) : ∀ o : Option α, Option.Rel r o o
  | Option.none => .none
  | Option.some x => .some (hr x)

theorem symm (hr : ∀ x y, r x y → r y x) {o p : Option α} (h : Option.Rel r o p) :
    Option.Rel r p o := by
  cases h with
  | none => exact .none
  | some h => exact .some (hr _ _ h)

theorem trans (hr : ∀ x y z, r x y → r y z → r x z) {o p q : Option α} (h : Option.Rel r o p)
    (h' : Option.Rel r p q) : Option.Rel r o q := by
  cases h with
  | none => exact h'
  | some h =>
    cases h' with
    | some h' => exact .some (hr _ _ _ h h')

end Option.Rel

/-- Where keys differ, it makes no difference to lookups in which order they stand. -/
theorem List.Perm.lookup_eq {α β : Type} [BEq α] [LawfulBEq α] {l m : List (α × β)} (h : l.Perm m)
    (distinct : (l.map Prod.fst).Nodup) (key : α) : l.lookup key = m.lookup key := by
  induction h with
  | nil => rfl
  | cons e _ ih =>
    rw [List.lookup_cons, List.lookup_cons, ih (List.nodup_cons.1 distinct).2]
  | swap e f rest =>
    have hdiffer : f.1 ≠ e.1 := fun heq => (List.nodup_cons.1 distinct).1 (by simp [heq])
    rw [List.lookup_cons, List.lookup_cons, List.lookup_cons, List.lookup_cons]
    cases he : key == e.1 with
    | false => rfl
    | true =>
      have hf : (key == f.1) = false := beq_eq_false_iff_ne.2 fun heq =>
        hdiffer (heq.symm.trans (eq_of_beq he))
      rw [hf]
  | trans h _ ih ih' =>
    exact (ih distinct).trans (ih' (((h.map Prod.fst).nodup_iff).1 distinct))

namespace DagSelect.Selector

/-- Two selectors that differ in how unions and fields are arranged, at any number of places. -/
inductive Rearranged : Selector → Selector → Prop
  | refl (s : Selector) : Rearranged s s
  | symm {s t : Selector} (h : Rearranged s t) : Rearranged t s
  | trans {s t u : Selector} (h : Rearranged s t) (h' : Rearranged t u) : Rearranged s u
  -- the places
  | all {s t : Selector} (h : Rearranged s t) : Rearranged (.all s) (.all t)
  | field (before after : List (String × Selector)) (name : String) {s t : Selector}
      (h : Rearranged s t) :
      Rearranged (.fields (before ++ (name, s) :: after)) (.fields (before ++ (name, t) :: after))
  | index (position : Int64) {s t : Selector} (h : Rearranged s t) :
      Rearranged (.index position s) (.index position t)
  | range (start stop : Int64) {s t : Selector} (h : Rearranged s t) :
      Rearranged (.range start stop s) (.range start stop t)
  | member (before after : List Selector) {s t : Selector} (h : Rearranged s t) :
      Rearranged (.union (before ++ s :: after)) (.union (before ++ t :: after))
  | recursive (limit : Limit) {sequence sequence' current current' : Selector}
      (hsequence : Rearranged sequence sequence') (hcurrent : Rearranged current current') :
      Rearranged (.recursive limit sequence current) (.recursive limit sequence' current')
  -- what is done there
  | fieldOrder {selections selections' : List (String × Selector)}
      (h : selections.Perm selections') :
      Rearranged (.fields selections) (.fields selections')
  | memberOrder {members members' : List Selector} (h : members.Perm members') :
      Rearranged (.union members) (.union members')
  | nested (before inner after : List Selector) :
      Rearranged (.union (before ++ .union inner :: after)) (.union (before ++ inner ++ after))
  | copy (m : Selector) (rest : List Selector) :
      Rearranged (.union (m :: m :: rest)) (.union (m :: rest))
  | single (m : Selector) : Rearranged (.union [m]) m

/-! ## Names -/

inductive DistinctNames : Selector → Prop
  | matcher : DistinctNames .matcher
  | all {next : Selector} (rest : DistinctNames next) : DistinctNames (.all next)
  | fields {selections : List (String × Selector)} (distinct : (selections.map Prod.fst).Nodup)
      (each : ∀ e ∈ selections, DistinctNames e.2) : DistinctNames (.fields selections)
  | index {position : Int64} {next : Selector} (rest : DistinctNames next) :
      DistinctNames (.index position next)
  | range {start stop : Int64} {next : Selector} (rest : DistinctNames next) :
      DistinctNames (.range start stop next)
  | union {members : List Selector} (each : ∀ m ∈ members, DistinctNames m) :
      DistinctNames (.union members)
  | recursive {limit : Limit} {sequence current : Selector} (start : DistinctNames sequence)
      (rest : DistinctNames current) : DistinctNames (.recursive limit sequence current)
  | edge : DistinctNames .edge

theorem WellFormedIn.distinctNames {inside : Bool} {s : Selector} (h : WellFormedIn inside s) :
    s.DistinctNames := by
  induction h with
  | matcher => exact .matcher
  | all _ ih => exact .all ih
  | fields distinct _ ih => exact .fields distinct ih
  | index _ _ ih => exact .index ih
  | range _ _ _ ih => exact .range ih
  | union _ _ ih => exact .union ih
  | recursive _ _ _ ih => exact .recursive ih ih
  | edge => exact .edge

theorem hereditary_distinctNames : Hereditary DistinctNames where
  member := fun | .union each => each
  union _ each := .union each
  all := fun | .all rest => rest
  fields := fun | .fields _ each => each
  index := fun | .index rest => rest
  range := fun | .range rest => rest
  sequence := fun | .recursive start _ => start
  current := fun | .recursive _ rest => rest
  moved := fun | .recursive start _, hnext => .recursive start hnext
  decrement := fun _ h => match h with | .recursive start rest => .recursive start rest

theorem distinctNames_union_iff {members : List Selector} :
    (Selector.union members).DistinctNames ↔ ∀ m ∈ members, m.DistinctNames :=
  ⟨fun | .union each => each, .union⟩

theorem distinctNames_fields_iff {selections : List (String × Selector)} :
    (Selector.fields selections).DistinctNames ↔
      (selections.map Prod.fst).Nodup ∧ ∀ e ∈ selections, e.2.DistinctNames :=
  ⟨fun | .fields distinct each => ⟨distinct, each⟩, fun ⟨distinct, each⟩ => .fields distinct each⟩

namespace Rearranged

variable {s t : Selector}

theorem distinctNames_iff (h : s.Rearranged t) : s.DistinctNames ↔ t.DistinctNames := by
  induction h with
  | refl s => rfl
  | symm _ ih => exact ih.symm
  | trans _ _ ih ih' => exact ih.trans ih'
  | all _ ih => exact ⟨fun | .all h => .all (ih.1 h), fun | .all h => .all (ih.2 h)⟩
  | field before after name _ ih => simp [distinctNames_fields_iff, or_imp, forall_and, ih]
  | index _ _ ih => exact ⟨fun | .index h => .index (ih.1 h), fun | .index h => .index (ih.2 h)⟩
  | range _ _ _ ih => exact ⟨fun | .range h => .range (ih.1 h), fun | .range h => .range (ih.2 h)⟩
  | member before after _ ih => simp [distinctNames_union_iff, or_imp, forall_and, ih]
  | recursive _ _ _ ih ih' =>
    exact ⟨fun | .recursive h h' => .recursive (ih.1 h) (ih'.1 h'),
      fun | .recursive h h' => .recursive (ih.2 h) (ih'.2 h')⟩
  | fieldOrder h =>
    simp only [distinctNames_fields_iff, (h.map Prod.fst).nodup_iff, h.mem_iff]
  | memberOrder h => simp only [distinctNames_union_iff, h.mem_iff]
  | nested before inner after =>
    simp [distinctNames_union_iff, or_imp, forall_and]
  | copy m rest => simp [distinctNames_union_iff]
  | single m => simp [distinctNames_union_iff]

/-! ## What is seen of them -/

theorem isMatch_eq (h : s.Rearranged t) : s.isMatch = t.isMatch := by
  induction h with
  | symm _ ih => exact ih.symm
  | trans _ _ ih ih' => exact ih.trans ih'
  | recursive _ _ _ _ ih => exact ih
  | memberOrder h => simp only [isMatch, anyMatch_eq_any, h.any_eq]
  | member before after _ ih => simp [isMatch, ih]
  | nested before inner after => simp [isMatch]
  | copy m rest => simp [isMatch]
  | single m => simp [isMatch]
  | _ => rfl

theorem hasEdge_eq (h : s.Rearranged t) : s.hasEdge = t.hasEdge := by
  induction h with
  | symm _ ih => exact ih.symm
  | trans _ _ ih ih' => exact ih.trans ih'
  | memberOrder h => simp only [hasEdge, anyEdge_eq_any, h.any_eq]
  | member before after _ ih => simp [hasEdge, ih]
  | nested before inner after => simp [hasEdge]
  | copy m rest => simp [hasEdge]
  | single m => simp [hasEdge]
  | _ => rfl

/-! ## Unions of what is left -/

section

variable {members members' : List Selector}

theorem of_collapse? (h : collapse? members = some t) : (Selector.union members).Rearranged t := by
  match members with
  | [] => cases h
  | [m] =>
    cases h
    exact .single t
  | m :: n :: rest =>
    cases h
    exact .refl _

/-- What is left of the members of two unions is rearranged if the unions are. -/
theorem rel_collapse? (hnil : members = [] ↔ members' = [])
    (h : (Selector.union members).Rearranged (.union members')) :
    Option.Rel Rearranged (collapse? members) (collapse? members') := by
  by_cases hempty : members = []
  · rw [hempty, hnil.1 hempty]
    exact .none
  · obtain ⟨u, hu⟩ := exists_collapse?_of_ne_nil hempty
    obtain ⟨u', hu'⟩ := exists_collapse?_of_ne_nil (mt hnil.2 hempty)
    rw [hu, hu']
    exact .some ((of_collapse? hu).symm.trans (h.trans (of_collapse? hu')))

theorem rel_refl (o : Option Selector) : Option.Rel Rearranged o o := .refl .refl o

theorem rel_symm {o p : Option Selector} (h : Option.Rel Rearranged o p) :
    Option.Rel Rearranged p o :=
  .symm (fun _ _ => .symm) h

theorem rel_trans {o p q : Option Selector} (h : Option.Rel Rearranged o p)
    (h' : Option.Rel Rearranged p q) : Option.Rel Rearranged o q :=
  .trans (fun _ _ _ => .trans) h h'

/-- Members that are rearranged each for itself, behind others that stay as they are. -/
theorem union_filterMap {f g : Selector → Option Selector} (before : List Selector)
    (h : ∀ m ∈ members, Option.Rel Rearranged (f m) (g m)) :
    (Selector.union (before ++ members.filterMap f)).Rearranged
        (.union (before ++ members.filterMap g)) ∧
      (members.filterMap f = [] ↔ members.filterMap g = []) := by
  induction members generalizing before with
  | nil => exact ⟨.refl _, Iff.rfl⟩
  | cons m rest ih =>
    have hm := h m List.mem_cons_self
    have hrest : ∀ n ∈ rest, Option.Rel Rearranged (f n) (g n) :=
      fun n hn => h n (List.mem_cons_of_mem m hn)
    rw [List.filterMap_cons, List.filterMap_cons]
    generalize f m = o, g m = o' at hm
    cases hm with
    | none => exact ih before hrest
    | @some u v huv =>
      refine ⟨(member before _ huv).trans ?_, by simp⟩
      simpa using (ih (before ++ [v]) hrest).1

/-! For whatever works on the members of unions one by one: -/

variable {f : Selector → Option Selector}
  (hf : ∀ members, f (.union members) = collapse? (members.filterMap f))

include hf

theorem rel_memberOrder (h : members.Perm members') :
    Option.Rel Rearranged (f (.union members)) (f (.union members')) := by
  rw [hf, hf]
  have hleft := h.filterMap f
  refine rel_collapse? ⟨fun hnil => ?_, fun hnil => ?_⟩ (.memberOrder hleft)
  · rw [hnil] at hleft
    exact List.nil_perm.1 hleft
  · rw [hnil] at hleft
    exact List.perm_nil.1 hleft

theorem rel_member (before after : List Selector) (h : Option.Rel Rearranged (f s) (f t)) :
    Option.Rel Rearranged (f (.union (before ++ s :: after)))
      (f (.union (before ++ t :: after))) := by
  rw [hf, hf, List.filterMap_append, List.filterMap_append, List.filterMap_cons,
    List.filterMap_cons]
  generalize f s = o, f t = o' at h
  cases h with
  | none => exact rel_refl _
  | some h => exact rel_collapse? (by simp) (.member _ _ h)

/-- Something is left of an inner union exactly if it is left of its members. -/
theorem rel_nested (before inner after : List Selector) :
    Option.Rel Rearranged (f (.union (before ++ .union inner :: after)))
      (f (.union (before ++ inner ++ after))) := by
  rw [hf, hf, List.filterMap_append, List.filterMap_append, List.filterMap_append,
    List.filterMap_cons, hf inner]
  by_cases hnone : inner.filterMap f = []
  · rw [hnone, List.append_nil]
    exact rel_refl _
  · obtain ⟨u, hu⟩ := exists_collapse?_of_ne_nil hnone
    rw [hu]
    refine rel_collapse? (by simp [hnone]) ?_
    exact (member _ _ (of_collapse? hu).symm).trans (.nested _ _ _)

theorem rel_copy (m : Selector) (rest : List Selector) :
    Option.Rel Rearranged (f (.union (m :: m :: rest))) (f (.union (m :: rest))) := by
  rw [hf, hf, List.filterMap_cons, List.filterMap_cons]
  cases f m with
  | none => exact rel_refl _
  | some u => exact rel_collapse? (by simp) (.copy _ _)

theorem rel_single (m : Selector) : Option.Rel Rearranged (f (.union [m])) (f m) := by
  rw [hf, List.filterMap_cons, List.filterMap_nil]
  cases f m with
  | none => exact .none
  | some u => exact rel_refl _

end

/-! ## Rewriting edges -/

section

variable {replacement replacement' : Option Selector}

theorem rel_replaceEdges? (replacement : Option Selector) (h : s.Rearranged t) :
    Option.Rel Rearranged (s.replaceEdges? replacement) (t.replaceEdges? replacement) := by
  have hunion (members : List Selector) : (Selector.union members).replaceEdges? replacement =
      collapse? (members.filterMap (replaceEdges? replacement)) := by
    rw [replaceEdges?, replaceEdgesIn_eq_filterMap]
  induction h with
  | refl s => exact rel_refl _
  | symm _ ih => exact rel_symm ih
  | trans _ _ ih ih' => exact rel_trans ih ih'
  | member before after _ ih => exact rel_member hunion before after ih
  | memberOrder h => exact rel_memberOrder hunion h
  | nested before inner after => exact rel_nested hunion before inner after
  | copy m rest => exact rel_copy hunion m rest
  | single m => exact rel_single hunion m
  | all h => exact .some (.all h)
  | field before after name h => exact .some (.field before after name h)
  | index position h => exact .some (.index position h)
  | range start stop h => exact .some (.range start stop h)
  | recursive limit h h' => exact .some (.recursive limit h h')
  | fieldOrder h => exact .some (.fieldOrder h)

theorem rel_replaceEdges?_of_rel (h : Option.Rel Rearranged replacement replacement')
    (t : Selector) :
    Option.Rel Rearranged (t.replaceEdges? replacement) (t.replaceEdges? replacement') := by
  induction t with
  | edge => exact h
  | union members ih =>
    rw [replaceEdges?, replaceEdges?, replaceEdgesIn_eq_filterMap, replaceEdgesIn_eq_filterMap]
    obtain ⟨hunion, hnil⟩ := union_filterMap [] ih
    exact rel_collapse? hnil hunion
  | _ => exact rel_refl _

end

/-! ## Steps -/

section

variable {sequence sequence' next next' : Selector}

/-- Recursions move on alike. -/
theorem rel_advance? (limit : Limit) (hsequence : sequence.Rearranged sequence')
    (h : next.Rearranged next') :
    Option.Rel Rearranged (advance? limit sequence next) (advance? limit sequence' next') := by
  have hedges := h.hasEdge_eq
  cases hedge : next.hasEdge with
  | false =>
    rw [advance?_within hedge, advance?_within (hedges.symm.trans hedge)]
    exact .some (.recursive limit hsequence h)
  | true =>
    have hedge' := hedges.symm.trans hedge
    cases hlast : limit.isLast with
    | true =>
      rw [advance?_last hedge hlast, advance?_last hedge' hlast]
      exact h.rel_replaceEdges? none
    | false =>
      rw [advance?_round hedge hlast, advance?_round hedge' hlast]
      have hpoint : Option.Rel Rearranged (next.replaceEdges? (some sequence))
          (next'.replaceEdges? (some sequence')) :=
        rel_trans (h.rel_replaceEdges? _) (rel_replaceEdges?_of_rel (.some hsequence) next')
      generalize next.replaceEdges? (some sequence) = o, next'.replaceEdges? (some sequence') = o'
        at hpoint
      cases hpoint with
      | none => exact .none
      | some hpoint => exact .some (.recursive _ hsequence hpoint)

/-- Selectors that are rearranged explore the same children, with selectors that are rearranged. -/
theorem rel_explore? (parent : Node) (segment : Segment) (h : s.Rearranged t)
    (hnames : s.DistinctNames) :
    Option.Rel Rearranged (s.explore? parent segment) (t.explore? parent segment) := by
  have hunion (members : List Selector) : (Selector.union members).explore? parent segment =
      collapse? (members.filterMap (explore? parent segment)) := by
    rw [explore?, exploreIn_eq_filterMap]
  induction h with
  | refl s => exact rel_refl _
  | symm h ih => exact rel_symm (ih (h.distinctNames_iff.2 hnames))
  | trans h _ ih ih' => exact rel_trans (ih hnames) (ih' (h.distinctNames_iff.1 hnames))
  | all h => exact .some h
  | field before after name h =>
    rw [explore?, explore?, List.lookup_append, List.lookup_append, List.lookup_cons,
      List.lookup_cons]
    cases before.lookup segment.text with
    | some u => exact rel_refl _
    | none =>
      cases segment.text == name with
      | true => exact .some h
      | false => exact rel_refl _
  | index position h =>
    rw [explore?, explore?]
    split
    · exact .some h
    · exact .none
  | range start stop h =>
    rw [explore?, explore?]
    split
    · split
      · exact .some h
      · exact .none
    · exact .none
  | member before after _ ih =>
    exact rel_member hunion before after (ih (distinctNames_union_iff.1 hnames _ (by simp)))
  | @recursive limit sequence sequence' current current' hsequence _ _ ih =>
    cases hnames with
    | recursive _ hcurrent =>
      have hnext := ih hcurrent
      rw [explore?, explore?]
      generalize current.explore? parent segment = o, current'.explore? parent segment = o' at hnext
      cases hnext with
      | none => exact .none
      | some hnext => exact rel_advance? limit hsequence hnext
  | fieldOrder h =>
    rw [explore?, explore?, h.lookup_eq (distinctNames_fields_iff.1 hnames).1]
    exact rel_refl _
  | memberOrder h => exact rel_memberOrder hunion h
  | nested before inner after => exact rel_nested hunion before inner after
  | copy m rest => exact rel_copy hunion m rest
  | single m => exact rel_single hunion m

end

end Rearranged

end DagSelect.Selector
