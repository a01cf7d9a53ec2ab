import DagSelect.Proofs.Walk.Ensures

/-!
# What a run has left

The steps of a run use it up: links are met, and its budget is spent. `Run.Spares` compares two runs
by what they have left for loading links, whatever it is that they do otherwise. A run that spares
another one can load what the other can (`Action.ensures_load`), so what was loaded in a long run
can be loaded again in a short one that makes straight for it.
-/

namespace DagSelect

variable {σ τ : Type}

/-! ## What is left -/

namespace Budget

def left (b : Budget) : Resource → Nat
  | .node => b.nodes
  | .link => b.links

theorem left_of_spend? {b rest : Budget} {resource : Resource} (h : b.spend? resource = some rest)
    (other : Resource) :
    rest.left other = if other = resource then b.left other - 1 else b.left other := by
  cases resource <;>
  · rw [spend?, Option.ite_none_left_eq_some, Option.some.injEq] at h
    obtain ⟨-, rfl⟩ := h
    cases other <;> rfl

end Budget

namespace Run

variable {run run' : Run σ} {other other' : Run τ}

def left? (run : Run σ) (resource : Resource) : Option Nat := run.budget.map (·.left resource)

/-- Spending changes nothing but the budget. -/
theorem exists_budget_of_spend? {resource : Resource} (h : run.spend? resource = some run') :
    ∃ budget, run' = { run with budget := budget } := by
  unfold spend? at h
  split at h
  · cases h
    exact ⟨run.budget, rfl⟩
  · obtain ⟨rest, -, rfl⟩ := Option.map_eq_some_iff.1 h
    exact ⟨some rest, rfl⟩

theorem seen_of_spend? {resource : Resource} (h : run.spend? resource = some run') :
    run'.seen = run.seen := by
  obtain ⟨budget, rfl⟩ := exists_budget_of_spend? h
  rfl

theorem log_of_spend? {resource : Resource} (h : run.spend? resource = some run') :
    run'.log = run.log := by
  obtain ⟨budget, rfl⟩ := exists_budget_of_spend? h
  rfl

theorem visits_of_spend? {resource : Resource} (h : run.spend? resource = some run') :
    run'.visits = run.visits := by
  rw [visits, log_of_spend? h, visits]

/-- One unit of the resource is gone, and nothing of the other one. -/
theorem left?_of_spend? {resource : Resource} (h : run.spend? resource = some run')
    (other : Resource) :
    run'.left? other = (run.left? other).map fun k => if other = resource then k - 1 else k := by
  unfold spend? at h
  split at h
  · next hbudget =>
    cases h
    simp [left?, hbudget]
  · next budget hbudget =>
    obtain ⟨rest, hrest, rfl⟩ := Option.map_eq_some_iff.1 h
    simp only [left?, hbudget, Option.map_some, Budget.left_of_spend? hrest]

theorem spend?_eq_none_iff {resource : Resource} :
    run.spend? resource = none ↔ run.left? resource = some 0 := by
  unfold spend? left?
  cases run.budget with
  | none => simp
  | some budget => cases resource <;> simp [Budget.spend?, Budget.left]

theorem pos_of_spend? {resource : Resource} (h : run.spend? resource = some run') {k : Nat}
    (hk : k ∈ run.left? resource) : 0 < k := by
  refine Nat.pos_of_ne_zero ?_
  rintro rfl
  rw [spend?_eq_none_iff.2 hk] at h
  cases h

/-! ## Comparing what is left -/

/-- A run has no less left of either resource than another one has; a run without a budget has
enough of everything. -/
def AsRich (run : Run σ) (other : Run τ) : Prop :=
  ∀ resource, ∀ k ∈ run.left? resource, ∃ j ∈ other.left? resource, j ≤ k

namespace AsRich

theorem refl (run : Run σ) : run.AsRich run := fun _ k hk => ⟨k, hk, Nat.le_refl k⟩

theorem meet (h : run.AsRich other) (once once' : Bool) (l l' : Link) :
    (run.meet once l).AsRich (other.meet once' l') := by
  cases once <;> cases once' <;> exact h

theorem spend?_right (h : run.AsRich other) {resource : Resource}
    (hspend : other.spend? resource = some other') : run.AsRich other' := by
  intro r k hk
  obtain ⟨j, hj, hjk⟩ := h r k hk
  rw [left?_of_spend? hspend]
  refine ⟨_, Option.mem_map_of_mem _ hj, ?_⟩
  split <;> omega

/-- What another run can afford, a run that is as rich can. -/
theorem spend? (h : run.AsRich other) {resource : Resource}
    (hspend : other.spend? resource = some other') :
    ∃ run', run.spend? resource = some run' ∧ run'.AsRich other' := by
  cases hrun : run.spend? resource with
  | none =>
    -- A run that has nothing left leaves the other nothing either.
    rw [spend?_eq_none_iff] at hrun
    obtain ⟨j, hj, hj0⟩ := h resource 0 hrun
    obtain rfl := Nat.le_zero.1 hj0
    rw [spend?_eq_none_iff.2 hj] at hspend
    cases hspend
  | some run' =>
    refine ⟨run', rfl, fun r k hk => ?_⟩
    rw [left?_of_spend? hrun] at hk
    obtain ⟨i, hi, rfl⟩ := Option.map_eq_some_iff.1 hk
    obtain ⟨j, hj, hji⟩ := h r i hi
    rw [left?_of_spend? hspend]
    refine ⟨_, Option.mem_map_of_mem _ hj, ?_⟩
    split <;> omega

end AsRich

/-- A run has met no other links than another one has, and may load as many. -/
structure Spares (run : Run σ) (other : Run τ) : Prop where
  seen : run.seen ⊆ other.seen
  links : ∀ k ∈ run.left? .link, ∃ j ∈ other.left? .link, j ≤ k

namespace Spares

theorem refl (run : Run σ) : run.Spares run where
  seen := List.Subset.refl _
  links k hk := ⟨k, hk, Nat.le_refl k⟩

theorem trans {υ : Type} {third : Run υ} (h : run.Spares other) (h' : other.Spares third) :
    run.Spares third where
  seen := List.Subset.trans h.seen h'.seen
  links k hk := by
    obtain ⟨j, hj, hjk⟩ := h.links k hk
    obtain ⟨i, hi, hij⟩ := h'.links j hj
    exact ⟨i, hi, Nat.le_trans hij hjk⟩

theorem meet (h : run.Spares other) (once : Bool) (l : Link) :
    (run.meet once l).Spares (other.meet once l) := by
  cases once with
  | false => exact h
  | true => exact ⟨List.cons_subset_cons l h.seen, h.links⟩

theorem meet_right (h : run.Spares other) (once : Bool) (l : Link) :
    run.Spares (other.meet once l) := by
  cases once with
  | false => exact h
  | true => exact ⟨List.subset_cons_of_subset l h.seen, h.links⟩

theorem spend?_right (h : run.Spares other) {resource : Resource}
    (hspend : other.spend? resource = some other') : run.Spares other' where
  seen := by
    rw [seen_of_spend? hspend]
    exact h.seen
  links k hk := by
    obtain ⟨j, hj, hjk⟩ := h.links k hk
    rw [left?_of_spend? hspend]
    refine ⟨_, Option.mem_map_of_mem _ hj, ?_⟩
    split <;> omega

/-- What another run can afford, a run that spares it can. -/
theorem spend?_link (h : run.Spares other) (hspend : other.spend? .link = some other') :
    ∃ run', run.spend? .link = some run' ∧ run'.Spares other' := by
  cases hrun : run.spend? .link with
  | none =>
    -- A run that has nothing left leaves the other nothing either.
    rw [spend?_eq_none_iff] at hrun
    obtain ⟨j, hj, hj0⟩ := h.links 0 hrun
    obtain rfl := Nat.le_zero.1 hj0
    rw [spend?_eq_none_iff.2 hj] at hspend
    cases hspend
  | some run' =>
    refine ⟨run', rfl, ⟨?_, fun k hk => ?_⟩⟩
    · rw [seen_of_spend? hrun, seen_of_spend? hspend]
      exact h.seen
    · rw [left?_of_spend? hrun] at hk
      obtain ⟨i, hi, rfl⟩ := Option.map_eq_some_iff.1 hk
      obtain ⟨j, hj, hji⟩ := h.links i hi
      rw [left?_of_spend? hspend]
      exact ⟨_, Option.mem_map_of_mem _ hj, Nat.sub_le_sub_right hji 1⟩

end Spares

end Run

namespace Action

open Run

theorem keeps_spares_visit (run : Run τ) (visitor : Visitor σ) (v : Visit) :
    Keeps run.Spares (visit visitor v) := by
  intro other h
  rw [visit_run]
  cases hspend : other.spend? .node with
  | none => exact h
  | some other' =>
    have hless := h.spend?_right hspend
    simp only [handed]
    cases visitor other'.visitor v with
    | ok state => exact ⟨hless.seen, hless.links⟩
    | error e => exact ⟨hless.seen, hless.links⟩

/-- A step that loads leaves less, and what it loads can be loaded by every run that spares it. -/
theorem ensures_load (run : Run τ) (once : Bool) (loader : Loader) (l : Link) (p : Progress) :
    Ensures (σ := σ) run.Spares (load once loader l p)
      (fun found other => run.Spares other ∧ ∀ block ∈ found, loader l p = .ok block ∧
        ∃ run', load once loader l p run = .ok (some block) run' ∧ run'.Spares other)
      run.Spares := by
  intro other h
  rw [load_run once loader l p other]
  by_cases hmet : once ∧ l ∈ other.seen
  · rw [if_pos hmet]
    exact ⟨h, nofun⟩
  · rw [if_neg hmet]
    cases hspend : (other.meet once l).spend? .link with
    | none => exact h.meet_right once l
    | some other' =>
      have hless := (h.meet_right once l).spend?_right hspend
      have hnew : ¬(once = true ∧ l ∈ run.seen) := fun hrun => hmet ⟨hrun.1, h.seen hrun.2⟩
      obtain ⟨run', hrun', hspares⟩ := (h.meet once l).spend?_link hspend
      simp only [asked]
      cases hblock : loader l p with
      | ok block =>
        refine ⟨⟨hless.seen, hless.links⟩, fun b hb => ?_⟩
        cases hb
        refine ⟨rfl, run'.record (.load l p), ?_, ⟨hspares.seen, hspares.links⟩⟩
        rw [load_run, if_neg hnew, hrun']
        simp only [asked, hblock]
      | error e =>
        cases e with
        | skip => exact ⟨⟨hless.seen, hless.links⟩, nofun⟩
        | _ => exact ⟨hless.seen, hless.links⟩

theorem spares_of_load {run run' : Run σ} {once : Bool} {loader : Loader} {l : Link}
    {p : Progress} {found : Option Node} (h : load once loader l p run = .ok found run') :
    run.Spares run' := by
  have hload := ensures_load (σ := σ) run once loader l p run (.refl run)
  rw [h] at hload
  exact hload.1

end Action

end DagSelect
