import DagSelect.Proofs.Walk.Spending

/-!
# Places and runs that read alike

A key and an index may have one text. Two places are alike when they differ in such spellings only,
and so are two failures that name them. A loader is told at which place a link was found, so it
could tell the spellings apart; `Config.AnswersAlike` says that it does not.

Two runs are alike when they have met the same links and have as many left to load. At places that
are alike they load alike: both are given the same block or none, or both fail (`loadsAlike`).
-/

namespace DagSelect

variable {σ τ : Type}

/-! ## Places that read alike -/

def Path.texts (p : Path) : List String := p.segments.map Segment.text

@[simp] theorem Path.texts_push (p : Path) (s : Segment) :
    (p.push s).texts = p.texts ++ [s.text] := by
  simp [texts]

/-- Two places are the same up to the spelling of their segments. -/
structure Progress.Alike (p q : Progress) : Prop where
  path : p.path.texts = q.path.texts
  lastCrossing : (p.lastCrossing.map fun c => (c.path.texts, c.link)) =
    q.lastCrossing.map fun c => (c.path.texts, c.link)
  crossings : p.crossings = q.crossings

namespace Progress.Alike

variable {p q : Progress}

theorem refl (p : Progress) : p.Alike p := ⟨rfl, rfl, rfl⟩

theorem push (h : p.Alike q) {s t : Segment} (htext : s.text = t.text) :
    (p.push s).Alike (q.push t) where
  path := by simp [h.path, htext]
  lastCrossing := h.lastCrossing
  crossings := h.crossings

theorem cross (h : p.Alike q) (l : Link) : (p.cross l).Alike (q.cross l) where
  path := h.path
  lastCrossing := by simp [Progress.cross, h.path]
  crossings := by simp [Progress.cross, h.crossings]

end Progress.Alike

inductive WalkError.Alike : WalkError → WalkError → Prop
  | load {p q : Path} (texts : p.texts = q.texts) (l : Link) (source : LoadError) :
      Alike (.load l p source) (.load l q source)
  | budgetExceeded {p q : Path} (texts : p.texts = q.texts) (l : Link) :
      Alike (.budgetExceeded .link p (some l)) (.budgetExceeded .link q (some l))

/-- The loader does not look at how segments are spelled. -/
def Config.AnswersAlike (config : Config) : Prop :=
  ∀ loader, config.loader = some loader → ∀ l p q, Progress.Alike p q → loader l p = loader l q

/-- A loader that goes by the link alone does not look at places at all. -/
theorem BlockStore.answersAlike_loader (store : BlockStore) (budget : Option Budget) (once : Bool) :
    Config.AnswersAlike ⟨some store.loader, budget, once⟩ := by
  rintro loader ⟨⟩ l p q -
  rfl

/-! ## Runs that may load the same -/

namespace Run

/-- Two runs have met the same links and have as many left to load. -/
structure Alike (run : Run τ) (other : Run σ) : Prop where
  seen : run.seen = other.seen
  links : run.left? .link = other.left? .link

/-- Nothing has changed for the visitor, nor in how many nodes may be visited. -/
structure SameView (run run' : Run σ) : Prop where
  visitor : run'.visitor = run.visitor
  nodes : run'.left? .node = run.left? .node

variable {run : Run τ} {other other' other'' : Run σ}

theorem SameView.refl (run : Run σ) : run.SameView run := ⟨rfl, rfl⟩

theorem SameView.trans (h : other.SameView other') (h' : other'.SameView other'') :
    other.SameView other'' :=
  ⟨h'.visitor.trans h.visitor, h'.nodes.trans h.nodes⟩

theorem sameView_meet (run : Run σ) (once : Bool) (l : Link) : run.SameView (run.meet once l) := by
  cases once <;> exact ⟨rfl, rfl⟩

theorem sameView_of_spend?_link (h : other.spend? .link = some other') : other.SameView other' := by
  have hleft := left?_of_spend? h .node
  obtain ⟨budget, rfl⟩ := exists_budget_of_spend? h
  exact ⟨rfl, by simpa using hleft⟩

theorem Alike.meet (h : run.Alike other) (once : Bool) (l : Link) :
    (run.meet once l).Alike (other.meet once l) := by
  cases once with
  | false => exact h
  | true => exact ⟨by simp [Run.meet, h.seen], h.links⟩

theorem Alike.spend?_link (h : run.Alike other) :
    (run.spend? .link = none ∧ other.spend? .link = none) ∨
      ∃ run' other', run.spend? .link = some run' ∧ other.spend? .link = some other' ∧
        run'.Alike other' := by
  cases hrun : run.spend? .link with
  | none =>
    rw [spend?_eq_none_iff, h.links, ← spend?_eq_none_iff] at hrun
    exact .inl ⟨rfl, hrun⟩
  | some run' =>
    cases hother : other.spend? .link with
    | none =>
      rw [spend?_eq_none_iff, ← h.links, ← spend?_eq_none_iff, hrun] at hother
      cases hother
    | some other' =>
      refine .inr ⟨run', other', rfl, rfl, ⟨?_, ?_⟩⟩
      · rw [seen_of_spend? hrun, seen_of_spend? hother, h.seen]
      · rw [left?_of_spend? hrun, left?_of_spend? hother, h.links]

end Run

inductive LoadsAlike (other : Run σ) : EStateM.Result Halt (Run τ) (Option Node) →
    EStateM.Result Halt (Run σ) (Option Node) → Prop
  | ok {found : Option Node} {run' : Run τ} {other' : Run σ} (alike : run'.Alike other')
      (view : other.SameView other') : LoadsAlike other (.ok found run') (.ok found other')
  | error {e e' : WalkError} {run' : Run τ} {other' : Run σ} (alike : e.Alike e')
      (view : other.SameView other') :
      LoadsAlike other (.error (.failed e) run') (.error (.failed e') other')

theorem loadsAlike {run : Run τ} {other : Run σ} (h : run.Alike other) {loader : Loader} {l : Link}
    {p q : Progress} (hplace : q.Alike p) (hanswer : loader l q = loader l p) (once : Bool) :
    LoadsAlike other (Action.load once loader l q run) (Action.load once loader l p other) := by
  have hview := Run.sameView_meet other once l
  rw [Action.load_run, Action.load_run, h.seen]
  by_cases hmet : once ∧ l ∈ other.seen
  · rw [if_pos hmet, if_pos hmet]
    exact .ok h (.refl other)
  · rw [if_neg hmet, if_neg hmet]
    rcases (h.meet once l).spend?_link with ⟨hrun, hother⟩ | ⟨run', other', hrun, hother, halike⟩
    · rw [hrun, hother]
      exact .error (.budgetExceeded hplace.path l) hview
    · rw [hrun, hother]
      obtain ⟨hvisitor, hnodes⟩ := hview.trans (Run.sameView_of_spend?_link hother)
      simp only [Action.asked, hanswer]
      cases loader l p with
      | ok block => exact .ok ⟨halike.seen, halike.links⟩ ⟨hvisitor, hnodes⟩
      | error e =>
        cases e with
        | skip => exact .ok ⟨halike.seen, halike.links⟩ ⟨hvisitor, hnodes⟩
        | _ => exact .error (.load hplace.path l _) ⟨hvisitor, hnodes⟩

end DagSelect
