import DagSelect.Selector.Explore

/-!
# Several steps

Exploring one step after the other, each at a container and a segment of its own; nothing ties the
containers together. What every step preserves is preserved along the steps.
-/

namespace List

variable {σ τ α : Type} {f : σ → α → Option σ} {g : τ → α → Option τ}

theorem foldlM_preserves {P : σ → Prop} (step : ∀ a x b, P a → f a x = some b → P b)
    {l : List α} {a b : σ} (ha : P a) (h : l.foldlM f a = some b) : P b := by
  induction l generalizing a with
  | nil =>
    cases h
    exact ha
  | cons x rest ih =>
    rw [foldlM_cons] at h
    obtain ⟨c, hc, hrest⟩ := Option.bind_eq_some_iff.1 h
    exact ih (step a x c ha hc) hrest

/-- A map that commutes with every step commutes with all of them. -/
theorem map_foldlM {m : σ → τ} (step : ∀ a x, (f a x).map m = g (m a) x) (l : List α) (a : σ) :
    (l.foldlM f a).map m = l.foldlM g (m a) := by
  induction l generalizing a with
  | nil => rfl
  | cons x rest ih =>
    rw [foldlM_cons, foldlM_cons, ← step a x]
    cases f a x with
    | none => rfl
    | some b => exact ih b

end List

namespace DagSelect.Selector

def exploreAlong? (s : Selector) (steps : List (Node × Segment)) : Option Selector :=
  steps.foldlM (fun s step => s.explore? step.1 step.2) s

end DagSelect.Selector
