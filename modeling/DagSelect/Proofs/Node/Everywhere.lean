import DagSelect.Node.Fold

/-!
# Properties that hold throughout a node

`Everywhere P n` says that `P` holds of `n` and of every node below it. Links are opaque, so what
lies behind them is not below. The properties of data that the walks rely on are instances: no map
repeats a key, and no list is longer than there are indices.
-/

namespace DagSelect.Node

/-- A property of a node and of all nodes below it. -/
inductive Everywhere (P : Node → Prop) : Node → Prop
  | intro {n : Node} (here : P n) (below : ∀ e ∈ n.children, Everywhere P e.2) : Everywhere P n

namespace Everywhere

variable {P Q : Node → Prop}

theorem here {n : Node} (h : n.Everywhere P) : P n := by
  cases h with
  | intro here _ => exact here

theorem child {n : Node} (h : n.Everywhere P) {e : Segment × Node} (he : e ∈ n.children) :
    e.2.Everywhere P := by
  cases h with
  | intro _ below => exact below e he

theorem mono (h : ∀ n, P n → Q n) {n : Node} (hn : n.Everywhere P) : n.Everywhere Q := by
  induction hn with
  | intro here _ ih => exact .intro (h _ here) ih

theorem and {n : Node} (hp : n.Everywhere P) (hq : n.Everywhere Q) :
    n.Everywhere fun m => P m ∧ Q m := by
  induction hp with
  | intro here _ ih => exact .intro ⟨here, hq.here⟩ fun e he => ih e he (hq.child he)

theorem map {entries : List (String × Node)} (here : P (.map entries))
    (below : ∀ e ∈ entries, e.2.Everywhere P) : (Node.map entries).Everywhere P := by
  apply Everywhere.intro here
  rintro ⟨s, c⟩ hc
  obtain ⟨k, -, hk⟩ := mem_children_map.1 hc
  exact below _ hk

theorem list {items : List Node} (here : P (.list items))
    (below : ∀ x ∈ items, x.Everywhere P) : (Node.list items).Everywhere P := by
  apply Everywhere.intro here
  simp only [children, List.mem_map]
  rintro _ ⟨⟨x, i⟩, hx, rfl⟩
  exact below x (List.fst_mem_of_mem_zipIdx hx)

theorem leaf {n : Node} (hn : n.children = []) (here : P n) : n.Everywhere P := by
  apply Everywhere.intro here
  simp [hn]

end Everywhere

section

variable {P : Node → Prop}

theorem everywhere_map_iff {entries : List (String × Node)} :
    (Node.map entries).Everywhere P ↔ P (.map entries) ∧ ∀ e ∈ entries, e.2.Everywhere P :=
  ⟨fun h => ⟨h.here, fun _ he => h.child (mem_children_map.2 ⟨_, rfl, he⟩)⟩,
    fun h => .map h.1 h.2⟩

/-- Every item of a list is a child of it. -/
theorem exists_mem_children_list {items : List Node} {x : Node} (hx : x ∈ items) :
    ∃ i : Nat, (.index i, x) ∈ (Node.list items).children := by
  obtain ⟨i, hi⟩ := List.mem_iff_getElem?.1 hx
  exact ⟨i, List.mem_map.2 ⟨(x, i), List.mk_mem_zipIdx_iff_getElem?.2 hi, rfl⟩⟩

theorem everywhere_list_iff {items : List Node} :
    (Node.list items).Everywhere P ↔ P (.list items) ∧ ∀ x ∈ items, x.Everywhere P := by
  constructor
  · intro h
    constructor
    · exact h.here
    · intro x hx
      obtain ⟨i, hi⟩ := exists_mem_children_list hx
      exact h.child hi
  · rintro ⟨here, below⟩
    exact .list here below

theorem everywhere_iff_of_isContainer {n : Node} (hn : n.kind.isContainer = false) :
    n.Everywhere P ↔ P n := by
  have hnone : n.children = [] := by
    cases n with
    | map | list => cases hn
    | _ => rfl
  exact ⟨fun h => h.here, fun h => .leaf hnone h⟩

/-- A property holds of every node when it can be derived for a node from all nodes below it. -/
theorem everywhere_of_step (step : ∀ n : Node, (∀ e ∈ n.children, e.2.Everywhere P) → P n)
    (n : Node) : n.Everywhere P := by
  have intro (n : Node) (h : ∀ e ∈ n.children, e.2.Everywhere P) : n.Everywhere P :=
    .intro (step n h) h
  induction n with
  | map entries ih =>
    apply intro
    rintro ⟨s, c⟩ hc
    obtain ⟨k, -, hk⟩ := mem_children_map.1 hc
    exact ih _ hk
  | list items ih =>
    apply intro
    simp only [children, List.mem_map]
    rintro _ ⟨⟨x, i⟩, hx, rfl⟩
    exact ih x (List.fst_mem_of_mem_zipIdx hx)
  | _ => exact intro _ (by simp [children])

end

/-! ## Deciding -/

def allNodes (test : Node → Bool) : Node → Bool :=
  fold fun n children => test n && children.all fun e => e.2.2

theorem allNodes_eq (test : Node → Bool) (n : Node) :
    allNodes test n = (test n && n.children.all fun e => allNodes test e.2) := by
  conv => lhs; rw [allNodes, fold_eq]
  rw [List.all_map]
  rfl

theorem allNodes_iff {test : Node → Bool} {n : Node} :
    allNodes test n = true ↔ n.Everywhere fun m => test m = true := by
  constructor
  · intro h
    induction n with
    | map entries ih =>
      rw [allNodes_eq, Bool.and_eq_true, List.all_eq_true] at h
      exact .map h.1 fun e he => ih e he (h.2 (.key e.1, e.2) (mem_children_map.2 ⟨_, rfl, he⟩))
    | list items ih =>
      rw [allNodes_eq, Bool.and_eq_true, List.all_eq_true] at h
      refine .list h.1 fun x hx => ih x hx ?_
      obtain ⟨i, hi⟩ := exists_mem_children_list hx
      exact h.2 _ hi
    | _ =>
      rw [allNodes_eq, Bool.and_eq_true] at h
      exact .leaf rfl h.1
  · intro h
    induction h with
    | intro here _ ih =>
      rw [allNodes_eq, Bool.and_eq_true, List.all_eq_true]
      exact ⟨here, fun e he => ih e he⟩

instance {P : Node → Prop} [DecidablePred P] (n : Node) : Decidable (n.Everywhere P) :=
  decidable_of_iff (allNodes (fun m => decide (P m)) n = true) <|
    allNodes_iff.trans ⟨.mono fun _ => of_decide_eq_true, .mono fun _ => decide_eq_true⟩

def KeysDiffer : Node → Prop
  | .map entries => (entries.map Prod.fst).Nodup
  | _ => True

instance : DecidablePred KeysDiffer := fun n =>
  match n with
  | .map entries => inferInstanceAs (Decidable (entries.map Prod.fst).Nodup)
  | .null | .bool _ | .int _ | .float _ | .string _ | .bytes _ | .link _ | .list _ => isTrue trivial

def DistinctKeys (n : Node) : Prop := n.Everywhere KeysDiffer

instance (n : Node) : Decidable n.DistinctKeys :=
  inferInstanceAs (Decidable (n.Everywhere KeysDiffer))

/-- The positions in a list are indices of 64 bits. Every list that fits into a memory is so short,
since an address has no more bits than that. -/
def ItemsIndexed : Node → Prop
  | .list items => items.length ≤ 0x8000000000000000
  | _ => True

instance : DecidablePred ItemsIndexed := fun n =>
  match n with
  | .list items => inferInstanceAs (Decidable (items.length ≤ 0x8000000000000000))
  | .null | .bool _ | .int _ | .float _ | .string _ | .bytes _ | .link _ | .map _ => isTrue trivial

def Addressable (n : Node) : Prop := n.Everywhere ItemsIndexed

instance (n : Node) : Decidable n.Addressable :=
  inferInstanceAs (Decidable (n.Everywhere ItemsIndexed))

end DagSelect.Node
