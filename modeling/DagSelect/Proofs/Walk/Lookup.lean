import Mathlib.Data.List.Destutter
import Mathlib.Data.List.Sort
import DagSelect.Walk.Walker

/-!
# Looking children up

How the children to be tried are come by where a selector lists few of them. Each listed segment is
looked up, which gives a position; the positions are sorted, equal neighbours are merged, and the
child at each position that is left is tried (`lookedUp`). `keepPicked` keeps the children at the
positions that `Selector.picks?` gives and says nothing of how. The outcome is the same
(`lookedUp_eq_keepPicked`): an ascending list of positions picks as going through all of them does.
-/

namespace DagSelect

variable {α : Type}

def ascending (positions : List Nat) : List Nat := (positions.mergeSort).destutter (· ≠ ·)

/-- The children that are tried where a selector holds, whatever is kept of each. -/
def lookedUp (s : Selector) (n : Node) (children : List α) : List α :=
  match s.interests? n.length with
  | some segments =>
    if segments.length < n.length then
      let positions := segments.filterMap fun segment => (n.find? segment).map Prod.fst
      (ascending positions).filterMap fun position => children[position]?
    else children
  | none => children

theorem mem_destutter'_ne_iff {x a : Nat} {l : List Nat} :
    x ∈ l.destutter' (· ≠ ·) a ↔ x = a ∨ x ∈ l := by
  induction l generalizing a with
  | nil => simp
  | cons b l ih =>
    by_cases hab : a ≠ b
    · rw [List.destutter'_cons_pos _ hab, List.mem_cons, ih, List.mem_cons]
    · rw [List.destutter'_cons_neg _ hab, ih, List.mem_cons, not_not.1 hab, or_self_left]

@[simp] theorem mem_ascending_iff {i : Nat} {positions : List Nat} :
    i ∈ ascending positions ↔ i ∈ positions := by
  have hsorted : i ∈ positions.mergeSort ↔ i ∈ positions := List.mem_mergeSort
  rw [← hsorted, ascending]
  cases positions.mergeSort with
  | nil => rfl
  | cons a l => rw [List.destutter_cons', mem_destutter'_ne_iff, List.mem_cons]

theorem pairwise_ascending (positions : List Nat) : (ascending positions).Pairwise (· < ·) := by
  have hsorted : (positions.mergeSort).Pairwise (· ≤ ·) := List.pairwise_mergeSort' _ positions
  have hle := (hsorted.sublist (List.destutter_sublist (· ≠ ·) _)).isChain
  have hne := List.isChain_destutter (· ≠ ·) positions.mergeSort
  rw [List.isChain_iff_getElem] at hle hne
  have hlt : (ascending positions).IsChain (· < ·) :=
    List.isChain_iff_getElem.2 fun i hi => lt_of_le_of_ne (hle i hi) (hne i hi)
  exact hlt.pairwise

/-- Getting the elements at ascending positions is keeping the elements at these positions; the
first element of the list has the position `start`. -/
theorem filterMap_getElem?_sub {positions : List Nat} (h : positions.Pairwise (· < ·)) {start : Nat}
    (hstart : ∀ i ∈ positions, start ≤ i) (xs : List α) :
    (positions.filterMap fun i => xs[i - start]?) =
      ((xs.zipIdx start).filter fun e => positions.contains e.2).map Prod.fst := by
  induction xs generalizing positions start with
  | nil => simp
  | cons x xs ih =>
    have hbehind {positions : List Nat} (h : positions.Pairwise (· < ·))
        (hstart : ∀ i ∈ positions, start < i) :
        (positions.filterMap fun i => (x :: xs)[i - start]?) =
          ((xs.zipIdx (start + 1)).filter fun e => positions.contains e.2).map Prod.fst := by
      rw [← ih h hstart]
      refine List.filterMap_congr fun i hi => ?_
      have hi := hstart i hi
      rw [show i - start = i - (start + 1) + 1 by omega, List.getElem?_cons_succ]
    cases positions with
    | nil => simp
    | cons i rest =>
      obtain ⟨hlt, hrest⟩ := List.pairwise_cons.1 h
      rw [List.zipIdx_cons]
      rcases (hstart i List.mem_cons_self).eq_or_lt with rfl | hi
      · rw [List.filter_cons_of_pos (by simp), List.map_cons]
        simp only [List.filterMap_cons, Nat.sub_self, List.getElem?_cons_zero, hbehind hrest hlt]
        congr 2
        refine List.filter_congr fun e he => ?_
        have hne : e.2 ≠ start := Nat.ne_of_gt (List.le_snd_of_mem_zipIdx he)
        simp [hne]
      · have hall : ∀ j ∈ i :: rest, start < j :=
          List.forall_mem_cons.2 ⟨hi, fun j hj => hi.trans (hlt j hj)⟩
        rw [List.filter_cons_of_neg, hbehind h hall]
        simpa using fun hmem => (hall start hmem).false

/-- Looking children up in ascending order keeps those that are picked. -/
theorem lookedUp_eq_keepPicked (s : Selector) (n : Node) (children : List α) :
    lookedUp s n children = keepPicked (s.picks? n) children := by
  rw [lookedUp, Selector.picks?]
  cases s.interests? n.length with
  | none => rfl
  | some segments =>
    simp only [Node.map_fst_find?]
    split
    · have hpicked := filterMap_getElem?_sub (pairwise_ascending (segments.filterMap n.position?))
        (fun _ _ => Nat.zero_le _) children
      simpa [keepPicked] using hpicked
    · rfl

end DagSelect
