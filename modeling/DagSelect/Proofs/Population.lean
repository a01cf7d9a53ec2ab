import Mathlib.Data.Set.Finite.Lattice
import Mathlib.Data.Set.Finite.Powerset
import Mathlib.Data.Finite.Prod

/-!
# Populations along a run

At some points of a run an individual is born. All individuals are alike: the state of one depends
only on what has happened since its birth, and the states of those that are there decide whether
what happens next brings about another birth. What has happened is listed with the latest event
first, so `v ++ w` is a past in which `v` has followed on `w`, and an individual that was born at
the end of `w` is in the state `state v`.

If there are only finitely many states, then the number of individuals alive is bounded over all
runs unless there is a loop: a sequence of events which, however often it is repeated, ends with a
birth and leaves the individuals born before alive (`card_alive_le_of_no_loop`). The reason is that
of two births with the same states there (`present`), and with the same states that live to the end
of the run (`outlives`), the earlier one begins such a loop.
-/

namespace DagSelect

def repeated {α : Type} (k : ℕ) (x : List α) : List α := (List.replicate k x).flatten

section

variable {α : Type} (k : ℕ) (x : List α)

theorem repeated_succ : repeated (k + 1) x = x ++ repeated k x := rfl

theorem repeated_succ' : repeated (k + 1) x = repeated k x ++ x := by
  rw [repeated, List.replicate_succ', List.flatten_append, List.flatten_singleton, repeated]

theorem repeated_add (l : ℕ) : repeated (k + l) x = repeated k x ++ repeated l x := by
  rw [repeated, List.replicate_add, List.flatten_append, repeated, repeated]

theorem reverse_repeated : (repeated k x).reverse = repeated k x.reverse := by
  induction k with
  | zero => rfl
  | succ k ih => rw [repeated_succ, repeated_succ', List.reverse_append, ih]

theorem length_repeated : (repeated k x).length = k * x.length := by
  rw [repeated, List.length_flatten, List.map_replicate, List.sum_replicate_nat]

end

def present {α σ : Type} (state : List α → σ) (born : List α → Prop) (past : List α) : Set σ :=
  {d | ∃ v w, past = v ++ w ∧ born w ∧ state v = d}

/-- Individuals that are alike, with the births that their states bring about. -/
structure Population (α σ : Type) where
  /-- The state of an individual after what has happened since its birth. -/
  state : List α → σ
  /-- Whether a past ends with a birth. -/
  born : List α → Prop
  alive : σ → Prop
  state_cons {v v' : List α} (a : α) : state v = state v' → state (a :: v) = state (a :: v')
  born_cons {w w' : List α} (a : α) :
    present state born w = present state born w' → born (a :: w) → born (a :: w')
  alive_of_cons {a : α} {v : List α} : alive (state (a :: v)) → alive (state v)

namespace Population

variable {α σ : Type} (P : Population α σ) {u v w w' x y : List α} {k : ℕ}

theorem state_append (h : P.state v = P.state w) (x : List α) :
    P.state (x ++ v) = P.state (x ++ w) := by
  induction x with
  | nil => exact h
  | cons a x ih => exact P.state_cons a ih

theorem alive_of_append (h : P.alive (P.state (x ++ v))) : P.alive (P.state v) := by
  induction x with
  | nil => exact h
  | cons a x ih => exact ih (P.alive_of_cons h)

abbrev there (past : List α) : Set σ := present P.state P.born past

/-! ## Births -/

theorem there_cons_subset (a : α) (h : P.there w = P.there w') :
    P.there (a :: w) ⊆ P.there (a :: w') := by
  rintro d ⟨v, u, hpast, hborn, rfl⟩
  rcases List.cons_eq_append_iff.1 hpast with ⟨rfl, rfl⟩ | ⟨v, rfl, rfl⟩
  · exact ⟨[], a :: w', rfl, P.born_cons a h hborn, rfl⟩
  · have hmem : P.state v ∈ P.there w' := h ▸ ⟨v, u, rfl, hborn, rfl⟩
    obtain ⟨v', u', rfl, hborn', hstate⟩ := hmem
    exact ⟨a :: v', u', rfl, hborn', P.state_cons a hstate⟩

/-- Those that are there decide which others will be. -/
theorem there_append (h : P.there w = P.there w') (x : List α) :
    P.there (x ++ w) = P.there (x ++ w') := by
  induction x with
  | nil => exact h
  | cons a x ih => exact (P.there_cons_subset a ih).antisymm (P.there_cons_subset a ih.symm)

theorem born_append (h : P.there w = P.there w') (hx : x ≠ []) (hborn : P.born (x ++ w)) :
    P.born (x ++ w') := by
  cases x with
  | nil => exact absurd rfl hx
  | cons a x => exact P.born_cons a (P.there_append h x) hborn

theorem born_repeated (h : P.there (x ++ w) = P.there w) (hx : x ≠ []) (hborn : P.born (x ++ w))
    (k : ℕ) : P.born (repeated (k + 1) x ++ w) := by
  have hthere : ∀ k, P.there (repeated k x ++ w) = P.there w := by
    intro k
    induction k with
    | zero => rfl
    | succ k ih => rw [repeated_succ, List.append_assoc, P.there_append ih, h]
  rw [repeated_succ, List.append_assoc]
  exact P.born_append (hthere k).symm hx hborn

/-! ## Lives -/

/-- The states in which individuals live on while the rest of a run happens. -/
def outlives (rest : List α) : Set σ := {d | ∃ v, P.state v = d ∧ P.alive (P.state (rest ++ v))}

theorem alive_repeated (h : P.outlives (y ++ x) = P.outlives y)
    (halive : P.alive (P.state (y ++ x))) (k : ℕ) : P.alive (P.state (repeated k x)) := by
  have hlives : ∀ k, P.state (repeated k x) ∈ P.outlives y := by
    intro k
    induction k with
    | zero => exact h ▸ ⟨[], rfl, (List.append_nil (y ++ x)).symm ▸ halive⟩
    | succ k ih =>
      obtain ⟨v, hstate, hv⟩ := h ▸ ih
      rw [List.append_assoc] at hv
      exact ⟨x ++ v, P.state_append hstate x, hv⟩
  obtain ⟨v, hstate, hv⟩ := hlives k
  exact hstate ▸ P.alive_of_append hv

/-! ## Loops -/

/-- The sequence ends with a birth, however often it is repeated, and leaves alive those that were
born before. -/
structure Loop (before x : List α) : Prop where
  nonempty : x ≠ []
  born (k : ℕ) : P.born (repeated (k + 1) x ++ before)
  alive (k : ℕ) : P.alive (P.state (repeated k x))

/-- Between two births of one past, with the same states there at both and with the same states that
live to the end of the past. -/
theorem exists_loop {past : List α} {i j : ℕ} (hij : i < j) (hj : j ≤ past.length)
    (hborn : P.born (past.drop i)) (halive : P.alive (P.state (past.take j)))
    (hthere : P.there (past.drop i) = P.there (past.drop j))
    (hlives : P.outlives (past.take j) = P.outlives (past.take i)) :
    ∃ before x, P.Loop before x := by
  obtain ⟨d, rfl⟩ := Nat.exists_eq_add_of_lt hij
  have hdrop : past.drop i = (past.drop i).take (d + 1) ++ past.drop (i + (d + 1)) := by
    rw [← List.drop_drop, List.take_append_drop]
  have hx : (past.drop i).take (d + 1) ≠ [] := by
    refine List.ne_nil_of_length_pos ?_
    rw [List.length_take, List.length_drop]
    omega
  rw [Nat.add_assoc, List.take_add] at halive hlives
  rw [Nat.add_assoc] at hthere
  rw [hdrop] at hborn hthere
  exact ⟨_, _, hx, P.born_repeated hthere hx hborn, P.alive_repeated hlives halive⟩

/-- Without a loop there are never more than so many alive. -/
theorem card_alive_le_of_no_loop (hfinite : (Set.range P.state).Finite)
    (hloop : ∀ before x, ¬ P.Loop before x) :
    ∃ bound, ∀ past : List α, ∀ J : Finset ℕ,
      (∀ j ∈ J, j ≤ past.length ∧ P.born (past.drop j) ∧ P.alive (P.state (past.take j))) →
      J.card ≤ bound := by
  have hsets := hfinite.finite_subsets.prod hfinite.finite_subsets
  refine ⟨hsets.toFinset.card, fun past J hJ => ?_⟩
  let sets (j : ℕ) : Set σ × Set σ := (P.there (past.drop j), P.outlives (past.take j))
  have hdiffer : ∀ i ∈ J, ∀ j ∈ J, i < j → sets i ≠ sets j := by
    intro i hi j hj hij heq
    obtain ⟨hthere, hlives⟩ := Prod.ext_iff.1 heq
    obtain ⟨before, x, h⟩ :=
      P.exists_loop hij (hJ j hj).1 (hJ i hi).2.1 (hJ j hj).2.2 hthere hlives.symm
    exact hloop before x h
  refine Finset.card_le_card_of_injOn sets (fun j _ => ?_) fun i hi j hj heq => ?_
  · rw [Set.Finite.coe_toFinset]
    refine ⟨?_, ?_⟩
    · rintro d ⟨v, -, -, -, rfl⟩
      exact Set.mem_range_self v
    · rintro d ⟨v, rfl, -⟩
      exact Set.mem_range_self v
  · rcases Nat.lt_trichotomy i j with hij | hij | hij
    · exact absurd heq (hdiffer i hi j hj hij)
    · exact hij
    · exact absurd heq.symm (hdiffer j hj i hi hij)

end Population

end DagSelect
