import DagSelect.Node

/-! # Selectors

A selector says which nodes of a document are results and how to get to them. It is a value:
exploring a child gives the selector for that child and changes nothing. A recursion carries its
whole state, namely how often it may still go round, the sequence it repeats, and the point of that
sequence reached so far, since the same recursion is usually under way on several branches at once.
-/

namespace DagSelect

/-- How often a recursion may go round. -/
inductive Limit where
  | depth (laps : Nat)
  | unbounded
deriving DecidableEq, Repr, Inhabited

/-- One lap less; a limit that is used up stays so. -/
def Limit.decrement : Limit → Limit
  | .depth laps => .depth (laps - 1)
  | .unbounded => .unbounded

def Limit.isLast : Limit → Bool
  | .depth laps => laps < 2
  | .unbounded => false

inductive Selector where
  /-- The node it is applied to is a result. -/
  | matcher
  /-- Every child. -/
  | all (next : Selector)
  /-- The children with the listed keys, each with a selector of its own. -/
  | fields (selections : List (String × Selector))
  /-- One element of a list. -/
  | index (position : Int64) (next : Selector)
  /-- The elements of a list from `start` up to but not including `stop`. -/
  | range (start stop : Int64) (next : Selector)
  /-- What any of the members selects. -/
  | union (members : List Selector)
  /-- Repeats `sequence` at each of its edges; `current` is the point reached. -/
  | recursive (limit : Limit) (sequence current : Selector)
  /-- The point where the nearest enclosing recursion goes round. -/
  | edge
deriving Repr, Inhabited

namespace Selector

/-- A recursion at its start. -/
def recursion (limit : Limit) (sequence : Selector) : Selector := .recursive limit sequence sequence

def kind : Selector → String
  | .matcher => "Matcher"
  | .all _ => "ExploreAll"
  | .fields _ => "ExploreFields"
  | .index _ _ => "ExploreIndex"
  | .range _ _ _ => "ExploreRange"
  | .union _ => "ExploreUnion"
  | .recursive _ _ _ => "ExploreRecursive"
  | .edge => "ExploreRecursiveEdge"

/-- What holds of a selector whenever it holds of all its parts holds of every selector. -/
@[induction_eliminator]
theorem induct {P : Selector → Prop} (matcher : P .matcher) (all : ∀ next, P next → P (.all next))
    (fields : ∀ selections, (∀ e ∈ selections, P e.2) → P (.fields selections))
    (index : ∀ i next, P next → P (.index i next))
    (range : ∀ start stop next, P next → P (.range start stop next))
    (union : ∀ members, (∀ m ∈ members, P m) → P (.union members))
    (recursive : ∀ limit sequence current, P sequence → P current →
      P (.recursive limit sequence current))
    (edge : P .edge) : ∀ s, P s := by
  intro s
  refine Selector.rec (motive_1 := P) (motive_2 := fun es => ∀ e ∈ es, P e.2)
    (motive_3 := fun ms => ∀ m ∈ ms, P m) (motive_4 := fun e => P e.2)
    matcher all fields index range union recursive edge ?_ ?_ ?_ ?_ ?_ s
  · simp
  · intro e es he hes x hx
    rcases List.mem_cons.1 hx with rfl | h
    · exact he
    · exact hes _ h
  · simp
  · intro x xs hx hxs y hy
    rcases List.mem_cons.1 hy with rfl | h
    · exact hx
    · exact hxs _ h
  · intro _ _ h
    exact h

/-! ## Equality -/

mutual
def same : Selector → Selector → Bool
  | .matcher, .matcher => true
  | .all a, .all b => same a b
  | .fields a, .fields b => sameSelections a b
  | .index i a, .index j b => i == j && same a b
  | .range i j a, .range k l b => i == k && j == l && same a b
  | .union a, .union b => sameMembers a b
  | .recursive l s c, .recursive l' s' c' => l == l' && same s s' && same c c'
  | .edge, .edge => true
  | _, _ => false

def sameSelections : List (String × Selector) → List (String × Selector) → Bool
  | [], [] => true
  | (k, a) :: as, (l, b) :: bs => k == l && same a b && sameSelections as bs
  | _, _ => false

def sameMembers : List Selector → List Selector → Bool
  | [], [] => true
  | a :: as, b :: bs => same a b && sameMembers as bs
  | _, _ => false
end

theorem sameSelections_iff {as : List (String × Selector)}
    (h : ∀ e ∈ as, ∀ b, same e.2 b = true ↔ e.2 = b) (bs : List (String × Selector)) :
    sameSelections as bs = true ↔ as = bs := by
  induction as generalizing bs with
  | nil => cases bs <;> simp [sameSelections]
  | cons e as ih =>
    cases bs with
    | nil => simp [sameSelections]
    | cons f bs =>
      have he := h e (by simp)
      have hs := ih (fun x hx => h x (by simp [hx])) bs
      obtain ⟨k, a⟩ := e
      obtain ⟨l, b⟩ := f
      simp_all [sameSelections]

theorem sameMembers_iff {as : List Selector} (h : ∀ a ∈ as, ∀ b, same a b = true ↔ a = b)
    (bs : List Selector) :
    sameMembers as bs = true ↔ as = bs := by
  induction as generalizing bs with
  | nil => cases bs <;> simp [sameMembers]
  | cons a as ih =>
    cases bs with
    | nil => simp [sameMembers]
    | cons b bs =>
      have ha := h a (by simp)
      have hs := ih (fun x hx => h x (by simp [hx])) bs
      simp_all [sameMembers]

theorem same_iff (a b : Selector) : same a b = true ↔ a = b := by
  induction a generalizing b with
  | fields selections ih =>
    cases b <;> simp [same]
    exact sameSelections_iff ih _
  | union members ih =>
    cases b <;> simp [same]
    exact sameMembers_iff ih _
  | matcher | edge => cases b <;> simp [same]
  | all next ih | index _ next ih | range _ _ next ih => cases b <;> simp_all [same, and_assoc]
  | recursive limit sequence current ihs ihc => cases b <;> simp_all [same, and_assoc]

instance : DecidableEq Selector := fun a b => decidable_of_iff _ (same_iff a b)

end Selector

end DagSelect
