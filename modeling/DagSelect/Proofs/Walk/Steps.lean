import DagSelect.Walk.Walker
import DagSelect.Proofs.Node.Everywhere

/-!
# Laws of the steps of a walk

What can follow a load depends on the load only through the block that the loader gave, so two
walks that agree on every such block agree (`Action.load_bind_congr`). `Config.Serves P` says that
every block the loader of a configuration can give has the property `P`.

What a run does is followed by `Action.Logs`: everything it adds to the events has a property, and
if it is over before its time then for a reason that was allowed for. Sequences of steps keep to
this when each of them does.
-/

namespace DagSelect

variable {σ α : Type}

def Config.Serves (P : Node → Prop) (config : Config) : Prop :=
  ∀ loader, config.loader = some loader → ∀ l p block, loader l p = .ok block → P block

theorem BlockStore.serves_loader {P : Node → Prop} (store : BlockStore)
    (h : ∀ b ∈ store.blocks, P b.2) (budget : Option Budget) (once : Bool) :
    Config.Serves P ⟨some store.loader, budget, once⟩ := by
  rintro loader ⟨⟩ l p block hb
  simp only [BlockStore.loader] at hb
  split at hb
  · next n hn =>
    cases hb
    obtain ⟨_, _, hblocks, -⟩ := List.lookup_eq_some_iff.1 hn
    exact h (l, block) (by rw [hblocks]; simp)
  · cases hb

theorem Selector.reason_eq_matched_iff (s : Selector) : s.reason = .matched ↔ s.isMatch = true := by
  rw [reason]
  cases s.isMatch <;> simp

theorem forM_congr {m : Type → Type} [Monad m] {xs : List α} {f g : α → m Unit}
    (h : ∀ x ∈ xs, f x = g x) : forM xs f = forM xs g := by
  induction xs with
  | nil => rfl
  | cons x xs ih =>
    rw [List.forM_cons, List.forM_cons, h x (by simp)]
    have hs := ih fun y hy => h y (by simp [hy])
    rw [hs]

/-- Elements on which nothing is done may as well be left out. -/
theorem forM_filter {m : Type → Type} [Monad m] [LawfulMonad m] {xs : List α} {keep : α → Bool}
    {f : α → m Unit} (h : ∀ x, keep x = false → f x = pure ()) :
    forM (xs.filter keep) f = forM xs f := by
  induction xs with
  | nil => rfl
  | cons x xs ih =>
    cases hx : keep x with
    | true => rw [List.filter_cons_of_pos hx, List.forM_cons, List.forM_cons, ih]
    | false =>
      rw [List.filter_cons_of_neg (by simp [hx]), List.forM_cons, h x hx, pure_bind, ih]

namespace Action

/-- Every value that a step can give has a property, whatever the state of the run. -/
def Gives (x : Action σ α) (post : α → Prop) : Prop :=
  ∀ run a run', x run = .ok a run' → post a

theorem Gives.pure {post : α → Prop} {a : α} (h : post a) : Gives (σ := σ) (pure a) post := by
  intro run b run' hb
  cases hb
  exact h

theorem Gives.fail {post : α → Prop} (e : WalkError) : Gives (σ := σ) (fail e) post := by
  intro run a run' h
  cases h

theorem Gives.bind_of_gives {β : Type} {mid : α → Prop} {post : β → Prop} {x : Action σ α}
    {next : α → Action σ β} (hx : Gives x mid) (h : ∀ a, mid a → Gives (next a) post) :
    Gives (x >>= next) post := by
  intro run b run' hb
  change EStateM.bind x next run = _ at hb
  simp only [EStateM.bind] at hb
  split at hb
  · next a next' hstep => exact h a (hx run a next' hstep) _ _ _ hb
  · cases hb

/-- What a sequence of steps gives is given by its last step. -/
theorem Gives.bind {β : Type} {post : β → Prop} {x : Action σ α} {next : α → Action σ β}
    (h : ∀ a, Gives (next a) post) : Gives (x >>= next) post := by
  have hany : Gives x fun _ => True := fun _ _ _ _ => trivial
  exact hany.bind_of_gives fun a _ => h a

/-- What can follow a step depends on the step only through the values that it can give. -/
theorem Gives.bind_congr {β : Type} {post : α → Prop} {x : Action σ α} {f g : α → Action σ β}
    (hx : Gives x post) (h : ∀ a, post a → f a = g a) : x >>= f = x >>= g := by
  funext run
  show EStateM.bind _ _ run = EStateM.bind _ _ run
  simp only [EStateM.bind]
  cases hstep : x run with
  | ok a run' => simp only [h a (hx run a run' hstep)]
  | error halt run' => rfl

theorem gives_load_always (loader : Loader) (l : Link) (p : Progress) :
    Gives (σ := σ) (load false loader l p) fun found =>
      ∀ block ∈ found, loader l p = .ok block := by
  refine Gives.bind (x := spend .link p.path (some l)) fun _ => ?_
  refine Gives.bind (x := record (.load l p)) fun _ => ?_
  split
  · next n hn => exact .pure (by simpa using hn)
  · exact .pure (by simp)
  · exact .fail _

theorem gives_load (once : Bool) (loader : Loader) (l : Link) (p : Progress) :
    Gives (σ := σ) (load once loader l p) fun found => ∀ block ∈ found, loader l p = .ok block := by
  cases once with
  | false => exact gives_load_always loader l p
  | true =>
    refine Gives.bind (x := get) fun run => ?_
    cases hl : run.seen.contains l with
    | true =>
      simp only [if_pos]
      exact .pure (by simp)
    | false =>
      simp only [Bool.false_eq_true, if_false]
      exact .bind fun _ => gives_load_always loader l p

theorem load_bind_congr {once : Bool} {loader : Loader} {l : Link} {p : Progress}
    {f g : Option Node → Action σ α} (none : f none = g none)
    (some : ∀ block, loader l p = .ok block → f (some block) = g (some block)) :
    (load once loader l p >>= f) = load once loader l p >>= g := by
  refine (gives_load once loader l p).bind_congr fun found hfound => ?_
  cases found with
  | none => exact none
  | some block => exact some block (hfound block rfl)

/-! ## What is logged -/

/-- Everything an action adds to the events has a property, and it ends early only for an allowed
reason. -/
def Logs (Q : Event → Prop) (allowed : Halt → Prop) (x : Action σ α) : Prop :=
  ∀ run, (∀ e ∈ run.events, Q e) →
    match x run with
    | .ok _ run' => ∀ e ∈ run'.events, Q e
    | .error halt run' => allowed halt ∧ ∀ e ∈ run'.events, Q e

section Logs

variable {Q : Event → Prop} {allowed : Halt → Prop}

theorem logs_pure (a : α) : Logs (σ := σ) Q allowed (pure a) := fun _ h => h

theorem logs_throw {halt : Halt} (h : allowed halt) :
    Logs (σ := σ) (α := α) Q allowed (throw halt) :=
  fun _ hrun => ⟨h, hrun⟩

theorem Logs.bind {β : Type} {x : Action σ α} {next : α → Action σ β} (hx : Logs Q allowed x)
    (hnext : ∀ a, Logs Q allowed (next a)) : Logs Q allowed (x >>= next) := by
  intro run hrun
  change match EStateM.bind x next run with
    | .ok _ run' => ∀ e ∈ run'.events, Q e
    | .error halt run' => allowed halt ∧ ∀ e ∈ run'.events, Q e
  have h := hx run hrun
  rw [EStateM.bind]
  cases hrun' : x run with
  | ok a run' =>
    rw [hrun'] at h
    exact hnext a run' h
  | error halt run' =>
    rw [hrun'] at h
    exact h

theorem logs_forM {xs : List α} {f : α → Action σ Unit} (h : ∀ x ∈ xs, Logs Q allowed (f x)) :
    Logs Q allowed (forM xs f) := by
  induction xs with
  | nil => exact logs_pure ()
  | cons x xs ih =>
    rw [List.forM_cons]
    exact (h x (by simp)).bind fun _ => ih fun y hy => h y (by simp [hy])

/-- What leaves the events alone adds none without the property. -/
theorem logs_get_bind {next : Run σ → Action σ α} (h : ∀ run, Logs Q allowed (next run)) :
    Logs Q allowed (get >>= next) :=
  Logs.bind (x := get) (fun _ hrun => hrun) h

theorem logs_modify {f : Run σ → Run σ} (h : ∀ run, (f run).events = run.events) :
    Logs Q allowed (modify f) := by
  intro run hrun
  change ∀ e ∈ (f run).events, Q e
  rw [h run]
  exact hrun

theorem logs_record {e : Event} (he : Q e) : Logs (σ := σ) Q allowed (record e) := by
  intro run hrun f hf
  rcases Array.mem_push.1 hf with hf | rfl
  · exact hrun f hf
  · exact he

variable (hfailed : ∀ e, allowed (.failed e))

include hfailed

theorem logs_spend (resource : Resource) (path : Path) (link : Option Link) :
    Logs (σ := σ) Q allowed (spend resource path link) := by
  refine logs_get_bind fun run => ?_
  split
  · exact logs_pure ()
  · split
    · exact logs_modify fun _ => rfl
    · exact logs_throw (hfailed _)

theorem logs_load {once : Bool} {loader : Loader} {l : Link} {p : Progress} (he : Q (.load l p)) :
    Logs (σ := σ) Q allowed (load once loader l p) := by
  have always : Logs (σ := σ) Q allowed (load false loader l p) := by
    refine (logs_spend hfailed .link p.path (some l)).bind fun _ => ?_
    refine (logs_record he).bind fun _ => ?_
    split
    · exact logs_pure _
    · exact logs_pure _
    · exact logs_throw (hfailed _)
  cases once with
  | false => exact always
  | true =>
    refine logs_get_bind fun run => ?_
    cases run.seen.contains l with
    | true => exact logs_pure _
    | false =>
      let note (run : Run σ) : Run σ := { run with seen := l :: run.seen }
      exact Logs.bind (x := modify note) (logs_modify fun _ => rfl) fun _ => always

theorem logs_visit {visitor : Visitor σ} {v : Visit} (he : Q (.visit v)) :
    Logs Q allowed (visit visitor v) := by
  refine (logs_spend hfailed .node v.progress.path none).bind fun _ => ?_
  refine (logs_record he).bind fun _ => ?_
  refine logs_get_bind fun run => ?_
  split
  · exact logs_modify fun _ => rfl
  · exact logs_throw (hfailed _)

end Logs

end Action

end DagSelect
