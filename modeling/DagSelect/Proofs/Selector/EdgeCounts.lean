import DagSelect.Proofs.Selector.WellFormed

/-!
# Counting edges while reading

The reader written out with a stack of counters, one for each recursion that is being read. An edge
adds one to the topmost counter, and is refused when there is none; a recursion puts a counter on
the stack, reads its sequence, takes the counter off and is refused when it is still 0.

`compile` has a flag in place of the stack and looks for edges in the sequence that it has read. The
two are the same, faults included (`countedCompile_eq`): what is on the stack is never changed but
for the topmost counter, to which reading a selector adds the number of its own edges (`Counts`).
-/

namespace DagSelect

namespace Selector

mutual
def ownEdges : Selector → Nat
  | .edge => 1
  | .all next => next.ownEdges
  | .fields selections => ownEdgesSelected selections
  | .index _ next => next.ownEdges
  | .range _ _ next => next.ownEdges
  | .union members => ownEdgesAmong members
  | .matcher => 0
  | .recursive _ _ _ => 0

def ownEdgesSelected : List (String × Selector) → Nat
  | [] => 0
  | (_, s) :: rest => s.ownEdges + ownEdgesSelected rest

def ownEdgesAmong : List Selector → Nat
  | [] => 0
  | s :: rest => s.ownEdges + ownEdgesAmong rest
end

theorem ownEdgesSelected_eq_zero_iff {selections : List (String × Selector)} :
    ownEdgesSelected selections = 0 ↔ ∀ e ∈ selections, e.2.ownEdges = 0 := by
  induction selections with
  | nil => simp [ownEdgesSelected]
  | cons e rest ih => rw [ownEdgesSelected, Nat.add_eq_zero_iff, ih, List.forall_mem_cons]

theorem ownEdgesAmong_eq_zero_iff {members : List Selector} :
    ownEdgesAmong members = 0 ↔ ∀ m ∈ members, m.ownEdges = 0 := by
  induction members with
  | nil => simp [ownEdgesAmong]
  | cons m rest ih => rw [ownEdgesAmong, Nat.add_eq_zero_iff, ih, List.forall_mem_cons]

theorem ownEdges_eq_zero_iff {s : Selector} : s.ownEdges = 0 ↔ s.hasOwnEdge = false := by
  induction s with
  | matcher | recursive _ _ _ _ _ => simp [ownEdges, hasOwnEdge]
  | edge => simp [ownEdges, hasOwnEdge]
  | all next ih | index _ next ih | range _ _ next ih => rw [ownEdges, hasOwnEdge, ih]
  | fields selections ih =>
    rw [ownEdges, hasOwnEdge, ownEdgesSelected_eq_zero_iff, anyOwnEdgeSelected_eq_any,
      List.any_eq_false]
    exact forall₂_congr fun e he => by rw [ih e he, Bool.not_eq_true]
  | union members ih =>
    rw [ownEdges, hasOwnEdge, ownEdgesAmong_eq_zero_iff, anyOwnEdge_eq_any, List.any_eq_false]
    exact forall₂_congr fun m hm => by rw [ih m hm, Bool.not_eq_true]

end Selector

namespace Compile

/-- Reading that counts edges. The stack has a counter for each recursion around, the innermost
first. -/
abbrev Counting := StateT (List Nat) (Except CompileError)

def pushCounter : Counting Unit := modify fun stack => 0 :: stack

def popCounter : Counting Nat := modifyGet fun stack => (stack.headD 0, stack.tail)

def countEdge : Counting Unit := do
  match ← get with
  | [] => throw .edgeOutsideRecursion
  | edges :: stack => set ((edges + 1) :: stack)

mutual
def countSelector : Node → Counting Selector
  | .map [(key, .map body)] =>
    if key = Wire.matcher then return .matcher
    else if key = Wire.all then do
      let next ← countField "ExploreAll" "next" Wire.next body
      return .all next
    else if key = Wire.fields then do
      let selections ← countSelectionsField body
      return .fields selections
    else if key = Wire.index then do
      let position ← naturalField "ExploreIndex" "index" Wire.position body
      let next ← countField "ExploreIndex" "next" Wire.next body
      return .index position next
    else if key = Wire.range then do
      let start ← naturalField "ExploreRange" "start" Wire.start body
      let stop ← naturalField "ExploreRange" "end" Wire.stop body
      if stop ≤ start then throw (.emptyRange start stop)
      let next ← countField "ExploreRange" "next" Wire.next body
      return .range start stop next
    else if key = Wire.recursive then do
      let limit ← limitField body
      pushCounter
      let sequence ← countField "ExploreRecursive" "sequence" Wire.sequence body
      let edges ← popCounter
      if edges = 0 then throw .missingRecursiveEdge
      return .recursion limit sequence
    else if key = Wire.edge then do
      countEdge
      return .edge
    else throw (misplaced key .map)
  | .map [(key, .list items)] =>
    if key = Wire.union then
      if items.isEmpty then throw .emptyUnion
      else do
        let members ← countMembers items
        return .union members
    else throw (misplaced key .list)
  | .map [(key, body)] => throw (misplaced key body.kind)
  | .map entries => throw (.notSingleEntry entries.length)
  | other => throw (.notAMap other.kind)

def countField (kind name key : String) : List (String × Node) → Counting Selector
  | [] => throw (.missingField kind name key)
  | (k, v) :: rest => if key = k then countSelector v else countField kind name key rest

def countSelectionsField : List (String × Node) → Counting (List (String × Selector))
  | [] => throw (.missingField "ExploreFields" "fields" Wire.selections)
  | (k, v) :: rest =>
    if Wire.selections = k then
      match v with
      | .map entries => countSelections [] entries
      | other => throw (.invalidFieldKind "ExploreFields" "fields" .map other.kind)
    else countSelectionsField rest

def countSelections (seen : List String) :
    List (String × Node) → Counting (List (String × Selector))
  | [] => return []
  | (name, v) :: rest => do
    if seen.contains name then throw (.duplicateField name)
    let s ← match v with
      | .bool true => pure .matcher
      | .map _ => countSelector v
      | other => throw (.invalidFieldValue name other.kind)
    let others ← countSelections (name :: seen) rest
    return (name, s) :: others

def countMembers : List Node → Counting (List Selector)
  | [] => return []
  | n :: rest => do
    let s ← countSelector n
    let others ← countMembers rest
    return s :: others
end

def countedCompile (n : Node) : Except CompileError Selector := (countSelector n).run' []

/-! ## What is counted -/

variable {α β γ : Type}

/-- Adds to the counter of the innermost recursion, if there is one. -/
def tally (edges : Nat) : List Nat → List Nat
  | [] => []
  | count :: stack => (count + edges) :: stack

@[simp] theorem tally_zero (stack : List Nat) : tally 0 stack = stack := by
  cases stack <;> rfl

@[simp] theorem tally_tally (m n : Nat) (stack : List Nat) :
    tally n (tally m stack) = tally (m + n) stack := by
  cases stack with
  | nil => rfl
  | cons count stack => rw [tally, tally, tally, Nat.add_assoc]

@[simp] theorem isEmpty_tally (n : Nat) (stack : List Nat) :
    (tally n stack).isEmpty = stack.isEmpty := by
  cases stack <;> rfl

/-- Reading with counters and reading with a flag give the same, and the counters differ by the
edges in what was read. -/
def Counts (edges : α → Nat) (x : Counting α) (r : Bool → Except CompileError α) : Prop :=
  ∀ stack, x stack = (r !stack.isEmpty).map fun a => (a, tally (edges a) stack)

section

variable {edges : α → Nat} {edges' : β → Nat} {edges'' : γ → Nat} {x : Counting α}
  {y : Counting β} {r : Bool → Except CompileError α} {r' : Bool → Except CompileError β}

theorem counts_pure {a : α} (h : edges a = 0) : Counts edges (pure a) fun _ => .ok a := by
  intro stack
  change _ = Except.ok (a, tally (edges a) stack)
  rw [h, tally_zero]
  rfl

theorem counts_throw (e : CompileError) : Counts edges (throw e) fun _ => .error e := fun _ => rfl

/-- What is read beforehand may fail, and has no edges. -/
theorem counts_lift_bind {k : Except CompileError α} {f : α → Counting β}
    {g : α → Bool → Except CompileError β} (hf : ∀ a, Counts edges' (f a) (g a)) :
    Counts edges' (liftM k >>= f) fun inside => k >>= fun a => g a inside := by
  intro stack
  cases k with
  | error e => rfl
  | ok a => exact hf a stack

theorem Counts.ite {p : Prop} [Decidable p] {x' : Counting α} {s : Bool → Except CompileError α}
    (hx : Counts edges x r) (hx' : Counts edges x' s) :
    Counts edges (if p then x else x') fun inside => if p then r inside else s inside := by
  by_cases hp : p
  · simp only [if_pos hp]
    exact hx
  · simp only [if_neg hp]
    exact hx'

theorem Counts.map (hx : Counts edges x r) {c : α → β} (hc : ∀ a, edges' (c a) = edges a) :
    Counts edges' (x >>= fun a => pure (c a)) fun inside => r inside >>= fun a => pure (c a) := by
  intro stack
  change (x stack >>= fun a => pure (c a.1, a.2)) =
    (r (!stack.isEmpty) >>= fun a => pure (c a)).map _
  rw [hx stack]
  cases r !stack.isEmpty with
  | error e => rfl
  | ok a =>
    change _ = Except.ok (c a, tally (edges' (c a)) stack)
    rw [hc]
    rfl

/-- Two are read one after the other. -/
theorem Counts.map₂ (hx : Counts edges x r) (hy : Counts edges' y r') {c : α → β → γ}
    (hc : ∀ a b, edges'' (c a b) = edges a + edges' b) :
    Counts edges'' (x >>= fun a => y >>= fun b => pure (c a b)) fun inside =>
      r inside >>= fun a => r' inside >>= fun b => pure (c a b) := by
  intro stack
  change (x stack >>= fun a => y a.2 >>= fun b => pure (c a.1 b.1, b.2)) =
    (r (!stack.isEmpty) >>= fun a => r' (!stack.isEmpty) >>= fun b => pure (c a b)).map _
  rw [hx stack]
  cases r !stack.isEmpty with
  | error e => rfl
  | ok a =>
    change (y (tally (edges a) stack) >>= fun b => pure (c a b.1, b.2)) =
      (r' (!stack.isEmpty) >>= fun b => pure (c a b)).map _
    rw [hy, isEmpty_tally]
    cases r' !stack.isEmpty with
    | error e => rfl
    | ok b =>
      change Except.ok (c a b, tally (edges' b) (tally (edges a) stack)) =
        Except.ok (c a b, tally (edges'' (c a b)) stack)
      rw [tally_tally, hc]

/-- An edge is counted where there is a counter. -/
theorem counts_edge :
    Counts Selector.ownEdges (countEdge >>= fun _ => pure .edge) fun inside =>
      if inside then .ok .edge else .error .edgeOutsideRecursion := by
  intro stack
  cases stack <;> rfl

/-- The counter of a recursion holds the number of its own edges when its sequence has been read. -/
theorem Counts.recursion {x : Counting Selector} {r : Bool → Except CompileError Selector}
    (hx : Counts Selector.ownEdges x r) (limit : Limit) :
    Counts Selector.ownEdges
      (do
        pushCounter
        let sequence ← x
        let edges ← popCounter
        if edges = 0 then throw .missingRecursiveEdge
        return .recursion limit sequence)
      (fun _ => do
        let sequence ← r true
        if sequence.hasOwnEdge then return .recursion limit sequence
        else throw .missingRecursiveEdge) := by
  intro stack
  have hx : x (0 :: stack) = (r true).map fun s => (s, (0 + s.ownEdges) :: stack) := hx (0 :: stack)
  change (x (0 :: stack) >>= fun s => _) = Except.map _ (r true >>= fun s => _)
  rw [hx]
  cases r true with
  | error e => rfl
  | ok s =>
    by_cases hs : s.hasOwnEdge = true
    · have hmet : 0 + s.ownEdges ≠ 0 := by
        rw [Nat.zero_add, Ne, Selector.ownEdges_eq_zero_iff, hs]
        exact Bool.noConfusion
      change (if 0 + s.ownEdges = 0 then _ else _ : Counting _) stack =
        Except.map _ (if s.hasOwnEdge then _ else _)
      rw [if_neg hmet, if_pos hs]
      change _ = Except.ok (Selector.recursion limit s, tally 0 stack)
      rw [tally_zero]
      rfl
    · have hmet : 0 + s.ownEdges = 0 := by
        rw [Nat.zero_add, Selector.ownEdges_eq_zero_iff, Bool.eq_false_iff]
        exact hs
      change (if 0 + s.ownEdges = 0 then _ else _ : Counting _) stack =
        Except.map _ (if s.hasOwnEdge then _ else _)
      rw [if_pos hmet, if_neg hs]
      rfl

end

/-! ## The two readers -/

def Counted (n : Node) : Prop :=
  Counts Selector.ownEdges (countSelector n) fun inside => selector inside n

theorem counts_field (kind name key : String) {body : List (String × Node)}
    (below : ∀ e ∈ body, Counted e.2) :
    Counts Selector.ownEdges (countField kind name key body) fun inside =>
      field kind name key inside body := by
  induction body with
  | nil => exact counts_throw _
  | cons e rest ih =>
    obtain ⟨he, hrest⟩ := List.forall_mem_cons.1 below
    simp only [countField, field]
    exact .ite he (ih hrest)

theorem counts_members {items : List Node} (below : ∀ n ∈ items, Counted n) :
    Counts Selector.ownEdgesAmong (countMembers items) fun inside => members inside items := by
  induction items with
  | nil => exact counts_pure rfl
  | cons n rest ih =>
    obtain ⟨hn, hrest⟩ := List.forall_mem_cons.1 below
    simp only [countMembers, members]
    exact hn.map₂ (ih hrest) fun _ _ => rfl

theorem counts_selections (seen : List String) {entries : List (String × Node)}
    (below : ∀ e ∈ entries, Counted e.2) :
    Counts Selector.ownEdgesSelected (countSelections seen entries) fun inside =>
      selections inside seen entries := by
  induction entries generalizing seen with
  | nil => exact counts_pure rfl
  | cons e rest ih =>
    obtain ⟨he, hrest⟩ := List.forall_mem_cons.1 below
    obtain ⟨name, v⟩ := e
    have hothers := ih (name :: seen) hrest
    cases v with
    | bool b =>
      cases b with
      | true =>
        simp only [countSelections, selections]
        have hmatcher : Counts Selector.ownEdges (pure .matcher) fun _ => .ok .matcher :=
          counts_pure rfl
        exact .ite (counts_throw _) (hmatcher.map₂ hothers fun _ _ => rfl)
      | false =>
        simp only [countSelections, selections]
        exact .ite (counts_throw _) (counts_throw _)
    | map entries =>
      simp only [countSelections, selections]
      exact .ite (counts_throw _) (he.map₂ hothers fun _ _ => rfl)
    | _ =>
      simp only [countSelections, selections]
      exact .ite (counts_throw _) (counts_throw _)

theorem counts_selectionsField {body : List (String × Node)}
    (below : ∀ e ∈ body, e.2.Everywhere Counted) :
    Counts Selector.ownEdgesSelected (countSelectionsField body) fun inside =>
      selectionsField inside body := by
  induction body with
  | nil => exact counts_throw _
  | cons e rest ih =>
    obtain ⟨he, hrest⟩ := List.forall_mem_cons.1 below
    obtain ⟨k, v⟩ := e
    cases v with
    | map entries =>
      simp only [countSelectionsField, selectionsField]
      refine .ite (counts_selections [] fun e h => ?_) (ih hrest)
      exact ((Node.everywhere_map_iff.1 he).2 e h).here
    | _ =>
      simp only [countSelectionsField, selectionsField]
      exact .ite (counts_throw _) (ih hrest)

theorem counts_body (key : String) {body : List (String × Node)}
    (below : ∀ e ∈ body, e.2.Everywhere Counted) : Counted (.map [(key, .map body)]) := by
  have hfield (kind name key : String) := counts_field kind name key fun e he => (below e he).here
  simp only [Counted, countSelector, selector]
  refine .ite (counts_pure rfl) ?_
  refine .ite ((hfield _ _ _).map fun _ => rfl) ?_
  refine .ite ((counts_selectionsField below).map fun _ => rfl) ?_
  refine .ite (counts_lift_bind fun position => (hfield _ _ _).map fun _ => rfl) ?_
  refine .ite ?_ ?_
  · refine counts_lift_bind fun start => counts_lift_bind fun stop => ?_
    exact .ite (counts_throw _) ((hfield _ _ _).map fun _ => rfl)
  refine .ite (counts_lift_bind fun limit => ?_) ?_
  · exact (hfield _ _ _).recursion limit
  exact .ite counts_edge (counts_throw _)

theorem counts_items (key : String) {items : List Node} (below : ∀ n ∈ items, Counted n) :
    Counted (.map [(key, .list items)]) := by
  simp only [Counted, countSelector, selector]
  refine .ite (.ite (counts_throw _) ?_) (counts_throw _)
  exact (counts_members below).map fun _ => rfl

theorem counted (n : Node) : Counted n := by
  suffices h : n.Everywhere Counted from h.here
  refine Node.everywhere_of_step (fun n below => ?_) n
  cases n with
  | map entries =>
    obtain _ | ⟨⟨key, body⟩, _ | ⟨e, rest⟩⟩ := entries
    · exact counts_throw _
    · have hbody := below (.key key, body) (by simp [Node.children])
      cases body with
      | map body => exact counts_body key (Node.everywhere_map_iff.1 hbody).2
      | list items =>
        exact counts_items key fun n hn => ((Node.everywhere_list_iff.1 hbody).2 n hn).here
      | _ => exact counts_throw _
    · cases body <;> exact counts_throw _
  | _ => exact counts_throw _

end Compile

/-- The reader that counts edges on a stack and the one that looks for them are the same. -/
theorem countedCompile_eq (n : Node) : Compile.countedCompile n = compile n := by
  change (Compile.countSelector n []).map Prod.fst = Compile.selector false n
  rw [Compile.counted n []]
  change Except.map _ ((Compile.selector false n).map _) = _
  cases Compile.selector false n <;> rfl

end DagSelect
