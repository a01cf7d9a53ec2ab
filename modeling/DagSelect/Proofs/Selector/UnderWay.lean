import DagSelect.Proofs.Selector.EdgeDistance
import DagSelect.Proofs.Selector.RoundTrip

/-!
# Selectors under way

What steps make of a selector that compiled. `UnderWay` is kept by every step: recursions may be at
any point of their sequence, and edges may stand outside of all of them, since a recursion drops on
its last lap only the edges that come up then and lays nothing around the others. All the rest is as
compiling left it. The written form of such a selector is therefore refused for the one reason that
it has an edge outside of all recursions, and without such an edge it is read as the selector with
its recursions back at their beginning, `restart` (`compile_toNode_of_exploreAlong?`).

Edges stay inside recursions when they all come up in the same step of a lap, `EndsEvenly`, and
sometimes get out when they do not (`exists_edge_outside_recursions`).
-/

namespace DagSelect

theorem Limit.Writable.decrement {limit : Limit} (h : limit.Writable) :
    limit.decrement.Writable := by
  cases limit with
  | unbounded => exact h
  | depth laps =>
    rw [Limit.Writable] at h
    rw [Limit.decrement, Limit.Writable]
    omega

namespace Selector

/-! ## Back to the beginning -/

mutual
/-- Takes every recursion back to the beginning of its sequence. -/
def restart : Selector → Selector
  | .matcher => .matcher
  | .all next => .all (restart next)
  | .fields selections => .fields (restartSelections selections)
  | .index position next => .index position (restart next)
  | .range start stop next => .range start stop (restart next)
  | .union members => .union (restartMembers members)
  | .recursive limit sequence _ => .recursion limit sequence
  | .edge => .edge

def restartSelections : List (String × Selector) → List (String × Selector)
  | [] => []
  | (name, s) :: rest => (name, restart s) :: restartSelections rest

def restartMembers : List Selector → List Selector
  | [] => []
  | s :: rest => restart s :: restartMembers rest
end

@[simp] theorem restartSelections_eq_map (selections : List (String × Selector)) :
    restartSelections selections = selections.map fun e => (e.1, e.2.restart) := by
  induction selections with
  | nil => rfl
  | cons e rest ih => rw [restartSelections, ih, List.map_cons]

@[simp] theorem restartMembers_eq_map (members : List Selector) :
    restartMembers members = members.map restart := by
  induction members with
  | nil => rfl
  | cons s rest ih => rw [restartMembers, ih, List.map_cons]

/-! ## What steps preserve -/

/-- A selector as steps may leave one that is well formed: recursions are at any point of their
sequence, and edges may stand anywhere. -/
inductive UnderWay : Selector → Prop
  | matcher : UnderWay .matcher
  | all {next : Selector} : UnderWay next → UnderWay (.all next)
  | fields {selections : List (String × Selector)} (distinct : (selections.map Prod.fst).Nodup)
      (each : ∀ e ∈ selections, UnderWay e.2) : UnderWay (.fields selections)
  | index {position : Int64} {next : Selector} (natural : 0 ≤ position) (rest : UnderWay next) :
      UnderWay (.index position next)
  | range {start stop : Int64} {next : Selector} (natural : 0 ≤ start) (rising : start < stop)
      (rest : UnderWay next) : UnderWay (.range start stop next)
  | union {members : List Selector} (nonempty : members ≠ []) (each : ∀ m ∈ members, UnderWay m) :
      UnderWay (.union members)
  | recursive {limit : Limit} {sequence current : Selector} (writable : limit.Writable)
      (returns : sequence.HasOwnEdge) (start : WellFormedIn true sequence)
      (rest : UnderWay current) : UnderWay (.recursive limit sequence current)
  | edge : UnderWay .edge

theorem WellFormedIn.underWay {inside : Bool} {s : Selector} (h : WellFormedIn inside s) :
    s.UnderWay := by
  induction h with
  | matcher => exact .matcher
  | all _ ih => exact .all ih
  | fields distinct _ ih => exact .fields distinct ih
  | index natural _ ih => exact .index natural ih
  | range natural rising _ ih => exact .range natural rising ih
  | union nonempty _ ih => exact .union nonempty ih
  | recursive writable returns start ih => exact .recursive writable returns start ih
  | edge => exact .edge

theorem hereditary_underWay : Hereditary UnderWay where
  all := fun (.all h) => h
  fields := fun (.fields _ h) => h
  index := fun (.index _ h) => h
  range := fun (.range _ _ h) => h
  member := fun (.union _ h) => h
  sequence := fun (.recursive _ _ h _) => h.underWay
  current := fun (.recursive _ _ _ h) => h
  union := .union
  moved := fun (.recursive writable returns start _) hnext =>
    .recursive writable returns start hnext
  decrement := fun _ (.recursive writable returns start h) =>
    .recursive writable.decrement returns start h

theorem WellFormedIn.inside_of_hasOwnEdge {inside : Bool} {s : Selector} (h : WellFormedIn inside s)
    (hedge : s.HasOwnEdge) : inside = true := by
  induction h with
  | matcher | recursive => cases hedge
  | all _ ih =>
    cases hedge with
    | all h => exact ih h
  | fields _ _ ih =>
    cases hedge with
    | fields he h => exact ih _ he h
  | index _ _ ih =>
    cases hedge with
    | index h => exact ih h
  | range _ _ _ ih =>
    cases hedge with
    | range h => exact ih h
  | union _ _ ih =>
    cases hedge with
    | union hm h => exact ih _ hm h
  | edge => rfl

end Selector

/-! ## The written form -/

namespace Compile

open Selector

section

variable (inside : Bool)

theorem selector_toNode_all (next : Selector) :
    selector inside (Selector.all next).toNode = (selector inside next.toNode).map .all := by
  have hkey : Wire.all ≠ Wire.matcher := by decide
  rw [toNode, Wire.keyed, selector, if_neg hkey, if_pos rfl, field_cons_self]
  cases selector inside next.toNode <;> rfl

theorem selector_toNode_fields (ss : List (String × Selector)) :
    selector inside (Selector.fields ss).toNode =
      (selections inside [] (ss.map fun e => (e.1, e.2.toNode))).map .fields := by
  rw [toNode, Wire.keyed, selector, if_neg (by decide), if_neg (by decide), if_pos rfl,
    selectionsToNode_eq_map, selectionsField_cons_self]
  cases selections inside [] (ss.map fun e => (e.1, e.2.toNode)) <;> rfl

theorem selector_toNode_index {position : Int64} (natural : 0 ≤ position) (next : Selector) :
    selector inside (Selector.index position next).toNode =
      (selector inside next.toNode).map (.index position) := by
  rw [toNode, Wire.keyed, selector, if_neg (by decide), if_neg (by decide), if_neg (by decide),
    if_pos rfl, naturalField_of_lookup natural rfl, field_cons_of_ne (by decide), field_cons_self]
  cases selector inside next.toNode <;> rfl

theorem selector_toNode_range {start stop : Int64} (natural : 0 ≤ start) (rising : start < stop)
    (next : Selector) :
    selector inside (Selector.range start stop next).toNode =
      (selector inside next.toNode).map (.range start stop) := by
  have hstop := Int64.le_trans natural (Int64.le_of_lt rising)
  rw [toNode, Wire.keyed, selector, if_neg (by decide), if_neg (by decide), if_neg (by decide),
    if_neg (by decide), if_pos rfl, naturalField_of_lookup natural rfl,
    naturalField_of_lookup hstop rfl, field_cons_of_ne (by decide), field_cons_of_ne (by decide),
    field_cons_self]
  cases selector inside next.toNode <;> exact if_neg (Int64.not_le.2 rising)

theorem selector_toNode_union {ms : List Selector} (nonempty : ms ≠ []) :
    selector inside (Selector.union ms).toNode =
      (members inside (ms.map toNode)).map .union := by
  rw [toNode, Wire.keyed, membersToNode_eq_map, selector, if_pos rfl,
    if_neg (by simpa using nonempty)]
  cases members inside (ms.map toNode) <;> rfl

end

/-- What a selector is read as where no recursion lies around it. -/
def rereading (s : Selector) : Except CompileError Selector :=
  if s.hasOwnEdge then .error .edgeOutsideRecursion else .ok s.restart

theorem members_map_toNode_false {ms : List Selector}
    (h : ∀ m ∈ ms, selector false m.toNode = rereading m) :
    members false (ms.map toNode) =
      if ms.any hasOwnEdge then .error .edgeOutsideRecursion else .ok (ms.map restart) := by
  induction ms with
  | nil => rfl
  | cons m rest ih =>
    have hrest := ih fun x hx => h x (List.mem_cons_of_mem _ hx)
    rw [List.map_cons, members, h m (by simp), hrest, rereading, List.any_cons]
    cases m.hasOwnEdge <;> cases rest.any hasOwnEdge <;> rfl

theorem selected_toNode_eq (inside : Bool) (name : String) (s : Selector) :
    selected inside name s.toNode = selector inside s.toNode := by
  cases s <;> rfl

theorem selections_map_toNode_false {ss : List (String × Selector)} {seen : List String}
    (fresh : FreshKeys seen ss) (h : ∀ e ∈ ss, selector false e.2.toNode = rereading e.2) :
    selections false seen (ss.map fun e => (e.1, e.2.toNode)) =
      if ss.any fun e => e.2.hasOwnEdge then .error .edgeOutsideRecursion
      else .ok (ss.map fun e => (e.1, e.2.restart)) := by
  induction ss generalizing seen with
  | nil => rfl
  | cons e rest ih =>
    obtain ⟨hnew, fresh⟩ := freshKeys_cons_iff.1 fresh
    have hrest := ih fresh fun e he => h e (List.mem_cons_of_mem _ he)
    rw [List.map_cons, selections_cons, if_neg hnew, selected_toNode_eq, h e (by simp), hrest,
      rereading, List.any_cons]
    cases e.2.hasOwnEdge <;> cases rest.any fun e => e.2.hasOwnEdge <;> rfl

theorem selector_toNode_of_underWay {s : Selector} (h : s.UnderWay) :
    selector false s.toNode = rereading s := by
  induction h with
  | matcher | edge => rfl
  | @all next _ ih =>
    rw [selector_toNode_all, ih, rereading, rereading, hasOwnEdge]
    cases next.hasOwnEdge <;> rfl
  | @fields ss distinct _ ih =>
    rw [selector_toNode_fields, selections_map_toNode_false (freshKeys_of_nodup distinct) ih,
      rereading, hasOwnEdge, anyOwnEdgeSelected_eq_any, restart, restartSelections_eq_map]
    cases ss.any fun e => e.2.hasOwnEdge <;> rfl
  | @index position next natural _ ih =>
    rw [selector_toNode_index false natural, ih, rereading, rereading, hasOwnEdge]
    cases next.hasOwnEdge <;> rfl
  | @range start stop next natural rising _ ih =>
    rw [selector_toNode_range false natural rising, ih, rereading, rereading, hasOwnEdge]
    cases next.hasOwnEdge <;> rfl
  | @union ms nonempty _ ih =>
    rw [selector_toNode_union false nonempty, members_map_toNode_false ih, rereading, hasOwnEdge,
      anyOwnEdge_eq_any, restart, restartMembers_eq_map]
    cases ms.any hasOwnEdge <;> rfl
  | recursive writable returns start _ _ =>
    exact selector_toNode (.recursive writable returns start)

end Compile

open Selector

/-! ## Along a run -/

/-- No edge gets out of a recursion that ends evenly. -/
theorem Selector.EndsEvenly.not_hasOwnEdge {s t : Selector} (hs : s.EndsEvenly)
    (hnone : ¬ s.HasOwnEdge) {steps : List (Node × Segment)}
    (ht : s.exploreAlong? steps = some t) : ¬ t.HasOwnEdge := by
  have hkept : t.EndsEvenly ∧ ¬ t.HasOwnEdge := by
    refine List.foldlM_preserves (P := fun s : Selector => s.EndsEvenly ∧ ¬ s.HasOwnEdge)
      (fun s step u h hu => ?_) ⟨hs, hnone⟩ ht
    obtain ⟨hends, hnearer⟩ := h.1.explore? hu
    refine ⟨hends, fun hedge => h.2 ?_⟩
    obtain ⟨d, hd⟩ := hasOwnEdge_iff_edgeAt.1 hedge
    exact hasOwnEdge_iff_edgeAt.2 ⟨d + 1, hnearer d hd⟩
  exact hkept.2

/-- What a run of steps makes of a selector that compiled is refused, when it is written and read
again, exactly if it has an edge outside of all recursions, and otherwise read as the selector with
its recursions back at the beginning. There is no such edge, and no node is entered with an edge
alone, if the recursions with a limit end evenly. -/
theorem compile_toNode_of_exploreAlong? {n : Node} {s t : Selector} {steps : List (Node × Segment)}
    (hs : compile n = .ok s) (ht : s.exploreAlong? steps = some t) :
    (compile t.toNode = if t.hasOwnEdge then .error .edgeOutsideRecursion else .ok t.restart) ∧
      (s.EndsEvenly → t.hasOwnEdge = false ∧ t ≠ .edge) := by
  have hwell := wellFormed_of_compile hs
  constructor
  · exact Compile.selector_toNode_of_underWay (hereditary_underWay.exploreAlong? hwell.underWay ht)
  · intro hends
    have hnone : ¬ s.HasOwnEdge := fun h => Bool.false_ne_true (hwell.inside_of_hasOwnEdge h)
    have htnone := hends.not_hasOwnEdge hnone ht
    constructor
    · exact Bool.eq_false_iff.2 fun h => htnone (hasOwnEdge_iff.1 h)
    · rintro rfl
      exact htnone .edge

/-- At the beginning of its second and last lap, with a member of the first lap beside it. -/
theorem compile_toNode_of_exploreAlong?_second_lap :
    let sequence : Selector := .all (.union [.matcher, .edge])
    let s : Selector := .recursion (.depth 2) sequence
    let t : Selector := .recursive (.depth 1) sequence (.union [.matcher, sequence])
    compile s.toNode = .ok s ∧ s.exploreAlong? [(.list [.null], .index 0)] = some t ∧
      s.EndsEvenly ∧ compile t.toNode = .ok (.recursion (.depth 1) sequence) ∧
      t.hasOwnEdge = false := by
  intro sequence s t
  have hs : compile s.toNode = .ok s := rfl
  have ht : s.exploreAlong? [(.list [.null], .index 0)] = some t := rfl
  have hends : s.EndsEvenly := by
    have heven : sequence.EvenlyAway := by
      refine ⟨1, fun d h => ?_⟩
      simp only [sequence] at h
      cases h with
      | all h =>
        cases h with
        | union hm h =>
          rcases List.mem_cons.1 hm with rfl | hm
          · cases h
          · rw [List.mem_singleton.1 hm] at h
            cases h
            exact .inr rfl
    have hsequence : sequence.EndsEvenly := by
      refine .all (.union fun m hm => ?_)
      rcases List.mem_cons.1 hm with rfl | hm
      · exact .matcher
      · rw [List.mem_singleton.1 hm]
        exact .edge
    exact .limited heven heven hsequence hsequence
  obtain ⟨hcompile, hinside⟩ := compile_toNode_of_exploreAlong? hs ht
  exact ⟨hs, ht, hends, hcompile, (hinside hends).1⟩

/-- Two edges a step apart. The first one comes up on the only lap, which drops it, and the second
one is left with nothing around it. -/
theorem exists_edge_outside_recursions :
    ∃ (n : Node) (s : Selector) (steps : List (Node × Segment)), compile n = .ok s ∧
      s.exploreAlong? steps = some .edge ∧ Selector.edge.hasOwnEdge = true ∧
      compile Selector.edge.toNode = .error .edgeOutsideRecursion := by
  let s : Selector := .recursion (.depth 1) (.all (.union [.edge, .all .edge]))
  let step : Node × Segment := (.list [.list [.int 1]], .index 0)
  exact ⟨s.toNode, s, [step, step], rfl, rfl, rfl, rfl⟩

end DagSelect
