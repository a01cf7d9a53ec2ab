import DagSelect.Proofs.Walk.Hops
import DagSelect.Proofs.Walk.LinkChains
import Mathlib.Order.WellFounded

/-!
# Following one path after another

Where a path is followed from makes no difference to where it leads, as long as nothing is bounded
and the loader goes by the link alone: the places on the way, and with them those that the failures
name, are further down, and that is all (`Action.Lowers`). A path that is made of two can therefore
be followed by two searches, the second of which takes what the first has found for its root
(`get_join`). This is so with every bound on the hops, so nothing has to be known about the chains
of links. Where they come to an end there is a bound that is never met.
-/

namespace DagSelect

variable {σ τ α β γ δ : Type}

theorem Path.join_push (p q : Path) (s : Segment) : p.join (q.push s) = (p.join q).push s := by
  simp [join, push]

/-! ## Failures further down -/

/-- The failure as it is seen from a root so much further up. -/
def WalkError.under (p : Path) : WalkError → WalkError
  | .load link path source => .load link (p.join path) source
  | .budgetExceeded resource path link => .budgetExceeded resource (p.join path) link
  | .pathNotFound path => .pathNotFound (p.join path)
  | .stopped => .stopped
  | .visitor message => .visitor message

def Halt.under (p : Path) : Halt → Halt
  | .failed e => .failed (e.under p)
  | .outOfHops => .outOfHops

def Found.under (p : Path) : Found α → Found α
  | .failed e => .failed (e.under p)
  | result => result

/-- What the loader answers depends on the link and not on the place where it was found. -/
def Config.AnswersByLink (config : Config) : Prop :=
  ∀ loader, config.loader = some loader → ∀ l p q, loader l p = loader l q

/-- There is a place at which the loader gives the answer to the link. -/
def Config.Answers (config : Config) (l : Link) (answer : Except LoadError Node) : Prop :=
  ∃ loader p, config.loader = some loader ∧ loader l p = answer

theorem BlockStore.answersByLink_loader (store : BlockStore) (budget : Option Budget)
    (once : Bool) :
    Config.AnswersByLink ⟨some store.loader, budget, once⟩ := by
  rintro loader ⟨⟩ l p q
  rfl

/-! ## The same steps further down -/

namespace Action

variable {p : Path} {same : α → β → Prop} {same' : γ → δ → Prop}

/-- The two steps have come to values that `same` relates, and there is still no budget, or to
failures of which the second is the first as it is seen from further up. -/
inductive LowersTo (p : Path) (same : α → β → Prop) :
    EStateM.Result Halt (Run σ) α → EStateM.Result Halt (Run τ) β → Prop
  | ok {a : α} {b : β} {run : Run σ} {run' : Run τ} (values : same a b)
      (budget : run.budget = none) (budget' : run'.budget = none) :
      LowersTo p same (.ok a run) (.ok b run')
  | error (halt : Halt) (run : Run σ) (run' : Run τ) :
      LowersTo p same (.error halt run) (.error (halt.under p) run')

/-- Without a budget the two steps come to the same, whatever was done before either. -/
def Lowers (p : Path) (same : α → β → Prop) (x : Action σ α) (y : Action τ β) : Prop :=
  ∀ run run', run.budget = none → run'.budget = none → LowersTo p same (x run) (y run')

theorem lowers_pure {a : α} {b : β} (h : same a b) :
    Lowers (σ := σ) (τ := τ) p same (pure a) (pure b) :=
  fun _ _ hrun hrun' => .ok h hrun hrun'

theorem lowers_throw (halt : Halt) :
    Lowers (σ := σ) (τ := τ) p same (throw halt) (throw (halt.under p)) :=
  fun run run' _ _ => .error halt run run'

theorem Lowers.bind {x : Action σ α} {y : Action τ β} {f : α → Action σ γ} {g : β → Action τ δ}
    (hx : Lowers p same x y) (hnext : ∀ a b, same a b → Lowers p same' (f a) (g b)) :
    Lowers p same' (x >>= f) (y >>= g) := by
  intro run run' hrun hrun'
  have h := hx run run' hrun hrun'
  rw [bind_run, bind_run]
  generalize x run = ended, y run' = ended' at h
  cases h with
  | ok values budget budget' => exact hnext _ _ values _ _ budget budget'
  | error halt last last' => exact .error halt last last'

theorem lowers_load {loader : Loader} (hlink : ∀ l p q, loader l p = loader l q) (l : Link)
    {q q' : Progress} (hplace : q'.path = p.join q.path) :
    Lowers (σ := σ) (τ := τ) p Eq (load false loader l q) (load false loader l q') := by
  intro run run' hrun hrun'
  rw [load_false_run, load_false_run, Run.spend?_of_budget_eq_none hrun,
    Run.spend?_of_budget_eq_none hrun']
  simp only [asked, hlink l q' q, hplace]
  cases loader l q with
  | ok block => exact .ok rfl hrun hrun'
  | error e =>
    cases e with
    | skip => exact .ok rfl hrun hrun'
    | _ => exact .error (.failed (.load l q.path _)) _ _

end Action

open DagSelect.Action

/-- The same node, and its place as it is seen from a root so much further up. -/
def SameBelow (p : Path) (found found' : Progress × Node) : Prop :=
  found'.1.path = p.join found.1.path ∧ found'.2 = found.2

section

variable {config : Config} (honce : config.once = false) (hlink : config.AnswersByLink) {p : Path}

include honce hlink

theorem lowers_resolve (hops : Nat) (n : Node) {q q' : Progress}
    (hplace : q'.path = p.join q.path) :
    Lowers (σ := σ) (τ := τ) p (SameBelow p) (resolve config hops q n)
      (resolve config hops q' n) := by
  refine resolve_rec (P := fun hops q n x => ∀ q' : Progress, q'.path = p.join q.path →
    Lowers p (SameBelow p) x (resolve config hops q' n)) ?_ ?_ ?_ hops q n q' hplace
  · intro hops q n h q' hplace
    rw [resolve_of_stands h]
    exact lowers_pure ⟨hplace, rfl⟩
  · intro loader q l hloader q' _
    rw [resolve_zero_link hloader]
    exact lowers_throw .outOfHops
  · intro loader hops q l hloader ih q' hplace
    rw [resolve_succ_link hloader, honce]
    refine (lowers_load (hlink loader hloader) l hplace).bind ?_
    rintro found _ rfl
    cases found with
    | none =>
      rw [hplace]
      exact lowers_throw (.failed (.pathNotFound q.path))
    | some block => exact ih block (q'.cross l) hplace

/-- A path leads from a node to the same wherever the node is. -/
theorem lowers_locate (hops : Nat) (n : Node) (segments : List Segment) {q q' : Progress}
    (hplace : q'.path = p.join q.path) :
    Lowers (σ := σ) (τ := τ) p (SameBelow p) (locate config hops q n segments)
      (locate config hops q' n segments) := by
  induction segments generalizing n q q' with
  | nil => exact lowers_resolve honce hlink hops n hplace
  | cons s segments ih =>
    rw [locate_cons, locate_cons]
    refine (lowers_resolve honce hlink hops n hplace).bind ?_
    rintro ⟨r, m⟩ ⟨r', m'⟩ ⟨hresolved, hsame⟩
    change r'.path = p.join r.path at hresolved
    change m' = m at hsame
    subst hsame
    have hpush : (r'.push s).path = p.join (r.push s).path := by
      rw [Progress.path_push, Progress.path_push, hresolved, Path.join_push]
    simp only
    cases m'.get? s with
    | none =>
      rw [hpush]
      exact lowers_throw (.failed (.pathNotFound (r.push s).path))
    | some child => exact ih child hpush

theorem budget_of_locate (hops : Nat) (q : Progress) (n : Node) (segments : List Segment)
    {run run' : Run σ} {found : Progress × Node} (hrun : run.budget = none)
    (h : locate config hops q n segments run = .ok found run') : run'.budget = none := by
  -- Followed from one place twice, the path comes to the same.
  have htwice := lowers_locate (p := .root) (τ := σ) honce hlink hops n segments
    (Path.root_join q.path).symm run run hrun hrun
  rw [h] at htwice
  cases htwice with
  | ok _ budget _ => exact budget

end

/-! ## Chains that end -/

def Config.Chains (config : Config) (l l' : Link) : Prop := config.Answers l (.ok (.link l'))

def Config.ChainsEnd (config : Config) : Prop := WellFounded fun l' l => config.Chains l l'

/-- In a store it is enough that no chain comes back to where it was. -/
theorem BlockStore.chainsEnd {store : BlockStore} (h : ∀ l, ¬ Relation.TransGen store.Chains l l)
    (budget : Option Budget) (once : Bool) :
    Config.ChainsEnd ⟨some store.loader, budget, once⟩ := by
  refine wellFounded_iff_isEmpty_descending_chain.2 ⟨fun ⟨f, hf⟩ => ?_⟩
  have hchain : ∀ i, store.Chains (f i) (f (i + 1)) := by
    intro i
    obtain ⟨_, p, ⟨⟩, hblock⟩ := hf i
    simp only [loader] at hblock
    split at hblock
    · next n hn =>
      rw [Except.ok.inj hblock] at hn
      exact hn
    · cases hblock
  have hlong : store.ChainFrom (store.size + 1) (f 0) := ⟨f, rfl, fun i _ => hchain i⟩
  obtain ⟨l, -, hloop⟩ := hlong.exists_loop (Nat.lt_succ_self _)
  exact h l hloop

namespace Action

/-- From some bound on the hops on, the step does not run out of them. -/
def EndsFrom (x : Nat → Action σ α) (run : Run σ) : Prop :=
  ∃ enough, ∀ hops, enough ≤ hops → ∀ last, x hops run ≠ .error .outOfHops last

theorem endsFrom_of_const {x : Nat → Action σ α} {y : Action σ α} (hx : ∀ hops, x hops = y)
    {run : Run σ} (hy : ∀ last, y run ≠ .error .outOfHops last) : EndsFrom x run :=
  ⟨0, fun hops _ last => by rw [hx hops]; exact hy last⟩

theorem endsFrom_of_succ {x : Nat → Action σ α} {run : Run σ}
    (h : EndsFrom (fun hops => x (hops + 1)) run) : EndsFrom x run := by
  obtain ⟨enough, hends⟩ := h
  refine ⟨enough + 1, fun hops hle last => ?_⟩
  obtain ⟨hops, rfl⟩ := Nat.exists_eq_add_one_of_ne_zero (Nat.ne_zero_of_lt hle)
  exact hends hops (Nat.le_of_succ_le_succ hle) last

/-- Steps one after the other do not run out of hops if none of them does on its own, and if with
enough of them the first does the same whatever their number is. -/
theorem EndsFrom.bind {x : Nat → Action σ α} {next : Nat → α → Action σ β} {run : Run σ}
    (hx : EndsFrom x run) (hmore : ∀ {hops hops'}, hops ≤ hops' → Completes (x hops) (x hops'))
    (hnext : ∀ hops a run', x hops run = .ok a run' → EndsFrom (fun hops => next hops a) run') :
    EndsFrom (fun hops => x hops >>= next hops) run := by
  obtain ⟨enough, hends⟩ := hx
  have hsame : ∀ hops, enough ≤ hops → x hops run = x enough run := fun hops hle =>
    (hmore hle run).resolve_left fun ⟨last, hout⟩ => hends enough (Nat.le_refl _) last hout
  cases hstep : x enough run with
  | ok a run' =>
    obtain ⟨enough', hends'⟩ := hnext enough a run' hstep
    refine ⟨max enough enough', fun hops hle last => ?_⟩
    have hfirst := (hsame hops (le_of_max_le_left hle)).trans hstep
    show (x hops >>= next hops) run ≠ _
    rw [bind_run_of_ok hfirst]
    exact hends' hops (le_of_max_le_right hle) last
  | error halt run' =>
    have hhalt : halt ≠ .outOfHops := by
      rintro rfl
      exact hends enough (Nat.le_refl _) run' hstep
    refine ⟨enough, fun hops hle last => ?_⟩
    show (x hops >>= next hops) run ≠ _
    rw [bind_run_of_error ((hsame hops hle).trans hstep)]
    rintro ⟨⟩
    exact hhalt rfl

theorem load_ne_outOfHops (once : Bool) (loader : Loader) (l : Link) (p : Progress)
    (run last : Run σ) : load once loader l p run ≠ .error .outOfHops last := by
  have h : Maintains (fun _ => True) (fun halt (_ : Run σ) => halt ≠ .outOfHops)
      (load once loader l p) :=
    maintains_load (fun _ _ _ => by rintro ⟨⟩) fun _ _ _ _ _ => ⟨trivial, fun _ _ => by rintro ⟨⟩⟩
  intro hout
  have hload := h run trivial
  rw [hout] at hload
  exact hload rfl

end Action

section

variable {config : Config} (hchains : config.ChainsEnd)

include hchains

theorem endsFrom_resolve (p : Progress) (n : Node) (run : Run σ) :
    EndsFrom (fun hops => resolve config hops p n) run := by
  have hstands : ∀ p n (run : Run σ), config.Stands n →
      EndsFrom (fun hops => resolve config hops p n) run := fun p n run h =>
    endsFrom_of_const (fun hops => resolve_of_stands h) fun last => by rintro ⟨⟩
  rcases config.stands_or_link n with h | ⟨loader, l, hloader, rfl⟩
  · exact hstands p n run h
  · induction l using hchains.induction generalizing p run with
    | _ l ih =>
      refine endsFrom_of_succ ?_
      simp only [resolve_succ_link hloader]
      refine EndsFrom.bind (x := fun _ => load config.once loader l p)
        (endsFrom_of_const (fun _ => rfl) fun last => load_ne_outOfHops _ _ _ _ _ last)
        (fun _ => completes_refl _) fun _ found run' hload => ?_
      cases found with
      | none => exact endsFrom_of_const (fun _ => rfl) fun last => by rintro ⟨⟩
      | some block =>
        have hgiven : loader l p = .ok block := gives_load _ _ _ _ _ _ _ hload block rfl
        rcases config.stands_or_link block with h | ⟨-, l', -, rfl⟩
        · exact hstands (p.cross l) block run' h
        · exact ih l' ⟨loader, p, hloader, hgiven⟩ (p.cross l) run'

/-- A path is followed to its end with hops enough. -/
theorem endsFrom_locate (p : Progress) (n : Node) (segments : List Segment) (run : Run σ) :
    EndsFrom (fun hops => locate config hops p n segments) run := by
  induction segments generalizing p n run with
  | nil => exact endsFrom_resolve hchains p n run
  | cons s segments ih =>
    simp only [locate_cons]
    refine (endsFrom_resolve hchains p n run).bind (fun hle => completes_resolve hle p n)
      fun _ found run' _ => ?_
    cases found.2.get? s with
    | none => exact endsFrom_of_const (fun _ => rfl) fun last => by rintro ⟨⟩
    | some child => exact ih (found.1.push s) child run'

end

/-! ## Two paths in a row -/

namespace Walker

/-- What was found at the end of the first path is what the second begins at. -/
theorem get_join_of_hops {w : Walker} (hbudget : w.config.budget = none)
    (honce : w.config.once = false) (hlink : w.config.AnswersByLink) (root : Node) (p q : Path)
    (hops : Nat) :
    (w.get hops root (p.join q)).1 =
      match (w.get hops root p).1 with
      | .found n => (w.get hops n q).1.under p
      | .failed e => .failed e
      | .unfinished => .unfinished := by
  have hbegin : ((new w.config).begin ()).budget = none := hbudget
  simp only [get, focus_eq, Path.segments_join, locate_append, bind_run]
  cases hstep : locate w.config hops .start root p.segments ((new w.config).begin ()) with
  | error halt run => cases halt <;> rfl
  | ok found run =>
    have hplace : found.1.path = p.join Progress.start.path := by
      rw [(gives_locate w.config hops .start root p.segments _ found run hstep).1]
      simp [Progress.start]
    have hrun : run.budget = none :=
      budget_of_locate honce hlink hops .start root p.segments hbegin hstep
    have hsecond := lowers_locate honce hlink hops found.2 q.segments hplace _ run hbegin hrun
    simp only [Found.ofAnswer]
    generalize locate w.config hops .start found.2 q.segments ((new w.config).begin ()) = second,
      locate w.config hops found.1 found.2 q.segments run = second' at hsecond
    cases hsecond with
    | ok values _ _ =>
      simp only [Found.under]
      rw [values.2]
    | error halt last last' => cases halt <;> rfl

theorem exists_get_ne_unfinished {w : Walker} (hchains : w.config.ChainsEnd) (root : Node)
    (p : Path) : ∃ enough, ∀ hops, enough ≤ hops → (w.get hops root p).1 ≠ .unfinished := by
  obtain ⟨enough, hends⟩ :=
    endsFrom_locate hchains .start root p.segments ((new w.config).begin ())
  refine ⟨enough, fun hops hle => ?_⟩
  rw [get, focus_eq]
  cases hstep : locate w.config hops .start root p.segments ((new w.config).begin ()) with
  | ok found run => rintro ⟨⟩
  | error halt run =>
    cases halt with
    | failed e => rintro ⟨⟩
    | outOfHops => exact absurd hstep (hends hops hle run)

end Walker

/-- What two paths in a row lead to is what the second leads to from the node that the first has
found, and a failure names the whole path up to it. Where the first fails, it is the same failure.
With hops enough the search is over, unless there is a chain of links without an end. -/
theorem get_join {w : Walker} (hbudget : w.config.budget = none) (honce : w.config.once = false)
    (hlink : w.config.AnswersByLink) (root : Node) (p q : Path) :
    (∀ hops, (w.get hops root (p.join q)).1 =
      match (w.get hops root p).1 with
      | .found n => (w.get hops n q).1.under p
      | .failed e => .failed e
      | .unfinished => .unfinished) ∧
    (w.config.ChainsEnd →
      ∃ enough, ∀ hops, enough ≤ hops → (w.get hops root (p.join q)).1 ≠ .unfinished) := by
  constructor
  · intro hops
    exact Walker.get_join_of_hops hbudget honce hlink root p q hops
  · intro hchains
    exact Walker.exists_get_ne_unfinished hchains root (p.join q)

/-- The first path ends at a link behind which there is another one. The second comes to a link to
which there is no block. -/
theorem get_join_chain_at_joint :
    let store : BlockStore :=
      ⟨[(⟨"x"⟩, .link ⟨"y"⟩), (⟨"y"⟩, .list [.link ⟨"z"⟩])]⟩
    let root : Node := .map [("a", .link ⟨"x"⟩)]
    let get (root : Node) (p : Path) (hops : Nat) :=
      ((Walker.new ⟨some store.loader, none, false⟩).get hops root p).1
    get root ⟨[.key "a"]⟩ 2 = .found (.list [.link ⟨"z"⟩]) ∧
      get root ⟨[.key "a", .index 0]⟩ 2 =
        .failed (.load ⟨"z"⟩ ⟨[.key "a", .index 0]⟩ (.notFound ⟨"z"⟩)) ∧
      ∃ enough, ∀ hops, enough ≤ hops → get root ⟨[.key "a", .index 0]⟩ hops ≠ .unfinished := by
  intro store root get
  have hjoin := get_join (w := .new ⟨some store.loader, none, false⟩) rfl rfl
    (store.answersByLink_loader none false) root ⟨[.key "a"]⟩ ⟨[.index 0]⟩
  -- There is one link that is chained to another, and the chain ends with the other.
  have hchains : ∀ l l', store.Chains l l' → l = ⟨"x"⟩ ∧ l' = ⟨"y"⟩ := by
    intro l l' h
    simp only [BlockStore.Chains, BlockStore.get?, store, List.lookup_cons, List.lookup_nil] at h
    split at h
    · next hx => exact ⟨by simpa using hx, by simpa using h.symm⟩
    · split at h <;> cases h
  have hnone : ∀ l, ¬ Relation.TransGen store.Chains l l := by
    intro l hloop
    obtain ⟨m, hfirst, hback⟩ := Relation.TransGen.head'_iff.1 hloop
    obtain ⟨rfl, rfl⟩ := hchains l m hfirst
    rcases hback.cases_head with heq | ⟨m, hsecond, -⟩
    · exact absurd heq (by decide)
    · exact absurd (hchains _ _ hsecond).1 (by decide)
  exact ⟨rfl, hjoin.1 2, hjoin.2 (BlockStore.chainsEnd hnone none false)⟩

end DagSelect
