import DagSelect.Proofs.Walk.Hops
import DagSelect.Proofs.Walk.Locate
import Mathlib.Data.Finset.Card
import Mathlib.Logic.Relation

/-!
# Chains of links

A block may itself be a link. Following a path goes on from link to link until there is a block that
is none, so what it does in a store of blocks is up to how the links of the store are chained
(`BlockStore.Chains`) and to which of them the path meets (`BlockStore.Meets`).

A chain has no more links than the store has blocks, unless it comes back to where it was
(`exists_loop_of_chain`). So following a path ends, for lack of a loop, within as many hops as there
are blocks, and otherwise with no number of hops (`focus_unfinished_iff`).
-/

namespace DagSelect

variable {σ α : Type}

open Relation (ReflTransGen TransGen)

namespace BlockStore

variable {store : BlockStore}

def Chains (store : BlockStore) (l l' : Link) : Prop := store.get? l = some (.link l')

/-- The link is among those that have to be replaced by their blocks where the segments lead from
the node, whatever else may be in the blocks. -/
inductive Meets (store : BlockStore) : Node → List Segment → Link → Prop
  | here (l : Link) (segments : List Segment) : Meets store (.link l) segments l
  | cross {l l' : Link} {block : Node} {segments : List Segment} (found : store.get? l = some block)
      (met : Meets store block segments l') : Meets store (.link l) segments l'
  | step {n child : Node} {s : Segment} {segments : List Segment} {l : Link}
      (notLink : n.link? = none) (found : n.get? s = some child)
      (met : Meets store child segments l) :
      Meets store n (s :: segments) l

theorem Meets.chains {n : Node} {segments : List Segment} {l l' : Link}
    (h : store.Meets n segments l) (hchain : store.Chains l l') : store.Meets n segments l' := by
  induction h with
  | here l segments => exact .cross hchain (.here l' segments)
  | cross found _ ih => exact .cross found (ih hchain)
  | step notLink found _ ih => exact .step notLink found (ih hchain)

theorem Meets.reaches {n : Node} {segments : List Segment} {l l' : Link}
    (h : store.Meets n segments l) (hchain : ReflTransGen store.Chains l l') :
    store.Meets n segments l' := by
  induction hchain with
  | refl => exact h
  | tail _ hlast ih => exact ih.chains hlast

/-! ## Long chains -/

/-- That many links are chained one after the other, from the first on. -/
def ChainFrom (store : BlockStore) (length : Nat) (l : Link) : Prop :=
  ∃ f : Nat → Link, f 0 = l ∧ ∀ i < length, store.Chains (f i) (f (i + 1))

theorem chainFrom_zero (l : Link) : store.ChainFrom 0 l :=
  ⟨fun _ => l, rfl, fun i hi => absurd hi (Nat.not_lt_zero i)⟩

theorem ChainFrom.cons {length : Nat} {l l' : Link} (hchain : store.Chains l l')
    (h : store.ChainFrom length l') : store.ChainFrom (length + 1) l := by
  obtain ⟨f, rfl, hf⟩ := h
  refine ⟨fun i => Nat.casesOn (motive := fun _ => Link) i l f, rfl, fun i hi => ?_⟩
  cases i with
  | zero => exact hchain
  | succ i => exact hf i (Nat.lt_of_succ_lt_succ hi)

theorem reflTransGen_of_chain {f : Nat → Link} {length : Nat}
    (hf : ∀ i < length, store.Chains (f i) (f (i + 1))) {i j : Nat} (hij : i ≤ j)
    (hj : j ≤ length) :
    ReflTransGen store.Chains (f i) (f j) := by
  induction j, hij using Nat.le_induction with
  | base => exact .refl
  | succ j hij ih => exact (ih (Nat.le_of_succ_le hj)).tail (hf j hj)

/-- A chain of more links than there are blocks comes back to where it was. -/
theorem ChainFrom.exists_loop {length : Nat} {l : Link} (h : store.ChainFrom length l)
    (hlength : store.size < length) :
    ∃ l', ReflTransGen store.Chains l l' ∧ TransGen store.Chains l' l' := by
  obtain ⟨f, rfl, hf⟩ := h
  let keys : Finset Link := (store.blocks.map Prod.fst).toFinset
  have hkeys : keys.card < (Finset.range length).card := by
    rw [Finset.card_range]
    refine Nat.lt_of_le_of_lt ?_ hlength
    exact (List.toFinset_card_le _).trans (Nat.le_of_eq (List.length_map _))
  have hmaps : ∀ i ∈ Finset.range length, f i ∈ keys := by
    intro i hi
    obtain ⟨_, _, hblocks, -⟩ := List.lookup_eq_some_iff.1 (hf i (Finset.mem_range.1 hi))
    simp [keys, hblocks]
  have hloop : ∀ i j, i < j → j < length → f i = f j →
      ∃ l', ReflTransGen store.Chains (f 0) l' ∧ TransGen store.Chains l' l' := by
    intro i j hij hj heq
    have hi : i < length := Nat.lt_trans hij hj
    refine ⟨f i, reflTransGen_of_chain hf (Nat.zero_le i) (Nat.le_of_lt hi), ?_⟩
    have hback : ReflTransGen store.Chains (f (i + 1)) (f i) := by
      rw [heq]
      exact reflTransGen_of_chain hf hij (Nat.le_of_lt hj)
    exact .head' (hf i hi) hback
  obtain ⟨i, hi, j, hj, hne, heq⟩ := Finset.exists_ne_map_eq_of_card_lt_of_maps_to hkeys hmaps
  rw [Finset.mem_range] at hi hj
  rcases Nat.lt_or_gt_of_ne hne with hij | hji
  · exact hloop i j hij hj heq
  · exact hloop j i hji hi heq.symm

end BlockStore

/-! ## Following links in a store -/

def Config.ofStore (store : BlockStore) : Config := ⟨some store.loader, none, false⟩

section

variable {store : BlockStore} {hops : Nat} {p : Progress} {n : Node} {run : Run σ}

theorem resolve_of_block (hbudget : run.budget = none) {l : Link} {block : Node}
    (hblock : store.get? l = some block) (hops : Nat) (p : Progress) :
    resolve (.ofStore store) (hops + 1) p (.link l) run =
      resolve (.ofStore store) hops (p.cross l) block (run.record (.load l p)) := by
  rw [resolve_succ_link rfl, Action.bind_run, show (Config.ofStore store).once = false from rfl,
    Action.load_false_run, Run.spend?_of_budget_eq_none hbudget]
  simp only [Action.asked, BlockStore.loader, hblock]

theorem resolve_of_no_block (hbudget : run.budget = none) {l : Link} (hblock : store.get? l = none)
    (hops : Nat) (p : Progress) :
    resolve (.ofStore store) (hops + 1) p (.link l) run =
      .error (.failed (.load l p.path (.notFound l))) (run.record (.load l p)) := by
  rw [resolve_succ_link rfl, Action.bind_run, show (Config.ofStore store).once = false from rfl,
    Action.load_false_run, Run.spend?_of_budget_eq_none hbudget]
  simp only [Action.asked, BlockStore.loader, hblock]

inductive Resolves (store : BlockStore) (hops : Nat) (n : Node) :
    EStateM.Result Halt (Run σ) (Progress × Node) → Prop
  | node {p : Progress} {m : Node} {run : Run σ} (budget : run.budget = none)
      (notLink : m.link? = none)
      (meets : ∀ segments l, store.Meets m segments l → store.Meets n segments l) :
      Resolves store hops n (.ok (p, m) run)
  | missing (l : Link) (p : Path) (run : Run σ) :
      Resolves store hops n (.error (.failed (.load l p (.notFound l))) run)
  | endless {l : Link} (link : n = .link l) (chain : store.ChainFrom hops l) (run : Run σ) :
      Resolves store hops n (.error .outOfHops run)

theorem Resolves.of_block {l : Link} {block : Node} (hblock : store.get? l = some block)
    {ended : EStateM.Result Halt (Run σ) (Progress × Node)} (h : Resolves store hops block ended) :
    Resolves store (hops + 1) (.link l) ended := by
  cases h with
  | node budget notLink meets =>
    exact .node budget notLink fun segments l' hmet => .cross hblock (meets segments l' hmet)
  | missing l' p run => exact .missing l' p run
  | endless link chain run =>
    subst link
    exact .endless rfl (chain.cons hblock) run

theorem resolves (hbudget : run.budget = none) :
    Resolves store hops n (resolve (.ofStore store) hops p n run) := by
  refine resolve_rec (P := fun hops _ n x => ∀ run : Run σ, run.budget = none →
    Resolves store hops n (x run)) ?_ ?_ ?_ hops p n run hbudget
  · intro hops p n hstands run hbudget
    exact .node hbudget (hstands.resolve_left (by rintro ⟨⟩)) fun _ _ h => h
  · exact fun loader p l _ run _ => .endless rfl (BlockStore.chainFrom_zero l) run
  · intro loader hops p l hloader ih run hbudget
    rw [← resolve_succ_link hloader]
    cases hblock : store.get? l with
    | none =>
      rw [resolve_of_no_block hbudget hblock]
      exact .missing l p.path _
    | some block =>
      rw [resolve_of_block hbudget hblock]
      exact .of_block hblock (ih block _ hbudget)

/-! ## Paths that end -/

inductive Locates : EStateM.Result Halt (Run σ) (Progress × Node) → Prop
  | node (p : Progress) (n : Node) (run : Run σ) : Locates (.ok (p, n) run)
  | nowhere (p : Path) (run : Run σ) : Locates (.error (.failed (.pathNotFound p)) run)
  | missing (l : Link) (p : Path) (run : Run σ) :
      Locates (.error (.failed (.load l p (.notFound l))) run)

/-- It is enough that following the path ends from where the node it begins at leads. -/
theorem locates_of_resolved (hhops : store.size < hops) {segments : List Segment}
    (hloop : ∀ l, store.Meets n segments l → ¬ TransGen store.Chains l l)
    (hbudget : run.budget = none)
    (hrest : ∀ q m (run' : Run σ), run'.budget = none → m.link? = none →
      (∀ l, store.Meets m segments l → store.Meets n segments l) →
      Locates (locate (.ofStore store) hops q m segments run')) :
    Locates (locate (.ofStore store) hops p n segments run) := by
  have hresolve : Resolves store hops n (resolve (.ofStore store) hops p n run) := resolves hbudget
  rw [locate_eq_resolve_bind, Action.bind_run]
  generalize resolve (.ofStore store) hops p n run = ended at hresolve ⊢
  cases hresolve with
  | node budget notLink meets => exact hrest _ _ _ budget notLink (meets segments)
  | missing l q run' => exact .missing l q run'
  | endless link chain run' =>
    subst link
    obtain ⟨l', hreach, hback⟩ := chain.exists_loop hhops
    exact absurd hback (hloop l' ((BlockStore.Meets.here _ segments).reaches hreach))

/-- A path that meets no loop is followed to its end with more hops than there are blocks. -/
theorem locates_of_no_loop (hhops : store.size < hops) {segments : List Segment}
    (hloop : ∀ l, store.Meets n segments l → ¬ TransGen store.Chains l l)
    (hbudget : run.budget = none) :
    Locates (locate (.ofStore store) hops p n segments run) := by
  induction segments generalizing p n run with
  | nil =>
    refine locates_of_resolved hhops hloop hbudget fun q m run' _ hm _ => ?_
    rw [locate_nil, resolve_of_stands (.inr hm)]
    exact .node q m run'
  | cons s segments ih =>
    refine locates_of_resolved hhops hloop hbudget fun q m run' hbudget' hm hmeets => ?_
    rw [locate_cons_of_stands (.inr hm)]
    cases hchild : m.get? s with
    | none => exact .nowhere _ run'
    | some child =>
      exact ih (fun l hmet => hloop l (hmeets l (.step hm hchild hmet))) hbudget'

/-! ## Paths that do not -/

/-- A link that is chained to itself is never replaced by a block. -/
theorem resolve_of_loop {l : Link} (hloop : TransGen store.Chains l l) (hops : Nat) (p : Progress)
    (hbudget : run.budget = none) :
    ∃ run', resolve (.ofStore store) hops p (.link l) run = .error .outOfHops run' := by
  suffices hendless : ∀ l', ReflTransGen store.Chains l' l →
      ∃ run', resolve (.ofStore store) hops p (.link l') run = .error .outOfHops run' from
    hendless l .refl
  induction hops generalizing p run with
  | zero => exact fun l' _ => ⟨run, by rw [resolve_zero_link rfl]; rfl⟩
  | succ hops ih =>
    intro l' hreach
    -- Wherever one has come to, the chain goes on, and on to the loop.
    have hnext : ∃ next, store.Chains l' next ∧ ReflTransGen store.Chains next l := by
      rcases hreach.cases_head with rfl | hnext
      · exact TransGen.head'_iff.1 hloop
      · exact hnext
    obtain ⟨next, hchain, hreach'⟩ := hnext
    rw [resolve_of_block hbudget hchain]
    refine ih (p.cross l') ?_ next hreach'
    exact hbudget

/-- A path that meets a loop is not followed to its end with any number of hops. -/
theorem locate_of_loop {segments : List Segment} {l : Link} (hmet : store.Meets n segments l)
    (hloop : TransGen store.Chains l l) (hops : Nat) (p : Progress) (hbudget : run.budget = none) :
    ∃ run', locate (.ofStore store) hops p n segments run = .error .outOfHops run' := by
  -- A link on the way uses up hops that are there again behind it.
  suffices hresolved : ∀ h p (run : Run σ), run.budget = none →
      ∃ run', (resolve (.ofStore store) h p n >>= fun found =>
        locate (.ofStore store) hops found.1 found.2 segments) run = .error .outOfHops run' by
    rw [locate_eq_resolve_bind]
    exact hresolved hops p run hbudget
  clear hbudget
  induction hmet with
  | here l segments =>
    intro h p run hbudget
    obtain ⟨run', hends⟩ := resolve_of_loop hloop h p hbudget
    exact ⟨run', Action.bind_run_of_error hends⟩
  | cross found _ ih =>
    intro h p run hbudget
    cases h with
    | zero =>
      rw [resolve_zero_link rfl]
      exact ⟨run, rfl⟩
    | succ h =>
      rw [Action.bind_run, resolve_of_block hbudget found, ← Action.bind_run]
      exact ih hloop h _ _ hbudget
  | step notLink found _ ih =>
    intro h p run hbudget
    rw [resolve_of_stands (.inr notLink), pure_bind, locate_cons_of_stands (.inr notLink), found]
    simp only
    rw [locate_eq_resolve_bind]
    exact ih hloop hops _ run hbudget

end

/-! ## Searches -/

/-- A search has found something, or has failed, for want of a block or of a node at the path. -/
def Found.IsOver (visit : Progress → Node → Except WalkError α) (result : Found α) : Prop :=
  (∃ p n, result = .ofAnswer (visit p n)) ∨ (∃ p, result = .failed (.pathNotFound p)) ∨
    ∃ l p, result = .failed (.load l p (.notFound l))

theorem Found.IsOver.ne_unfinished {visit : Progress → Node → Except WalkError α}
    {result : Found α} (h : result.IsOver visit) : result ≠ .unfinished := by
  rcases h with ⟨p, n, rfl⟩ | ⟨p, rfl⟩ | ⟨l, p, rfl⟩
  · cases visit p n <;> rintro ⟨⟩
  · rintro ⟨⟩
  · rintro ⟨⟩

section

variable {store : BlockStore} {w : Walker} (hw : w.config = .ofStore store) {root : Node}
  {path : Path} (visit : Progress → Node → Except WalkError α)

include hw

theorem Walker.focus_of_loop {l : Link} (hmet : store.Meets root path.segments l)
    (hloop : TransGen store.Chains l l) (hops : Nat) :
    (w.focus hops root path visit).1 = .unfinished := by
  have hbegin : ((Walker.new (.ofStore store)).begin ()).budget = none := rfl
  obtain ⟨run', hends⟩ := locate_of_loop hmet hloop hops .start hbegin
  rw [focus_eq, hw, hends]

theorem Walker.focus_of_no_loop {hops : Nat} (hhops : store.size < hops)
    (hloop : ∀ l, store.Meets root path.segments l → ¬ TransGen store.Chains l l) :
    (w.focus hops root path visit).1.IsOver visit ∧
      ∀ hops', hops ≤ hops' →
        (w.focus hops' root path visit).1 = (w.focus hops root path visit).1 := by
  have hends : Locates (locate (.ofStore store) hops .start root path.segments
      ((Walker.new (.ofStore store)).begin ())) := locates_of_no_loop hhops hloop rfl
  have hmore : ∀ hops', hops ≤ hops' →
      locate (.ofStore store) hops' .start root path.segments
        ((Walker.new (.ofStore store)).begin ()) =
        locate (.ofStore store) hops .start root path.segments
          ((Walker.new (.ofStore store)).begin ()) := by
    intro hops' hle
    rcases completes_locate hle .start root path.segments
      ((Walker.new (.ofStore store)).begin ()) with ⟨run', hlonger⟩ | hsame
    · rw [hlonger] at hends
      cases hends
    · exact hsame
  refine ⟨?_, fun hops' hle => ?_⟩
  · rw [focus_eq, hw]
    generalize locate (.ofStore store) hops .start root path.segments
      ((Walker.new (.ofStore store)).begin ()) = ended at hends
    cases hends with
    | node p n run => exact .inl ⟨p, n, rfl⟩
    | nowhere p run => exact .inr (.inl ⟨p, rfl⟩)
    | missing l p run => exact .inr (.inr ⟨l, p, rfl⟩)
  · rw [focus_eq, focus_eq, hw, hmore hops' hle]

end

/-- With more hops than there are blocks in the store, a search is over, and more hops change
nothing, unless the path meets a link that is chained to itself. Then no number of hops is
enough. -/
theorem focus_unfinished_iff {store : BlockStore} {w : Walker}
    (hw : w.config = ⟨some store.loader, none, false⟩) {hops : Nat} (hhops : store.size < hops)
    (root : Node) (path : Path) (visit : Progress → Node → Except WalkError α) :
    let result := (w.focus hops root path visit).1
    (result = .unfinished ↔
      ∃ l, store.Meets root path.segments l ∧ TransGen store.Chains l l) ∧
    (result ≠ .unfinished → result.IsOver visit) ∧
    ∀ hops', hops ≤ hops' → (w.focus hops' root path visit).1 = result := by
  intro result
  by_cases hloop : ∃ l, store.Meets root path.segments l ∧ TransGen store.Chains l l
  · obtain ⟨l, hmet, hback⟩ := hloop
    have hends : ∀ hops, (w.focus hops root path visit).1 = .unfinished :=
      Walker.focus_of_loop hw visit hmet hback
    exact ⟨⟨fun _ => ⟨l, hmet, hback⟩, fun _ => hends hops⟩, fun hne => absurd (hends hops) hne,
      fun hops' _ => (hends hops').trans (hends hops).symm⟩
  · obtain ⟨hover, hmore⟩ := Walker.focus_of_no_loop hw visit hhops fun l hmet hback =>
      hloop ⟨l, hmet, hback⟩
    exact ⟨⟨fun hends => absurd hends hover.ne_unfinished, fun h => absurd h hloop⟩, fun _ => hover,
      hmore⟩

/-- One path goes through two links to a node, the other to a link that is chained to itself. -/
theorem focus_unfinished_iff_two_paths :
    let store : BlockStore := .ofList
      [(⟨"a"⟩, .link ⟨"b"⟩), (⟨"b"⟩, .int 7), (⟨"x"⟩, .link ⟨"y"⟩), (⟨"y"⟩, .link ⟨"x"⟩)]
    let focus (i : Int) := ((Walker.new ⟨some store.loader, none, false⟩).focus 5
      (.list [.link ⟨"a"⟩, .link ⟨"x"⟩]) ⟨[.index i]⟩ fun _ n => .ok n).1
    store.size < 5 ∧ (focus 0).found? = some (.int 7) ∧ (focus 0).IsOver (fun _ n => .ok n) ∧
      focus 1 = .unfinished := by
  intro store focus
  have hsize : store.size < 5 := by decide
  have hfound : (focus 0).found? = some (.int 7) := rfl
  refine ⟨hsize, hfound, ?_, ?_⟩
  · refine (focus_unfinished_iff (w := .new ⟨some store.loader, none, false⟩) rfl hsize _ _ _).2.1
      ?_
    intro hends
    rw [show focus 0 = _ from hends] at hfound
    cases hfound
  · refine (focus_unfinished_iff (w := .new ⟨some store.loader, none, false⟩) rfl hsize _ _ _).1.2
      ?_
    refine ⟨⟨"x"⟩, .step rfl rfl (.here ⟨"x"⟩ []), ?_⟩
    have hthere : store.Chains ⟨"x"⟩ ⟨"y"⟩ := rfl
    exact .tail (.single hthere) rfl

/-- A link that is stored as its own block is never replaced by one, however many hops there are. -/
theorem exists_get_unfinished :
    ∃ (store : BlockStore) (root : Node) (path : Path), ∀ hops,
      ((Walker.new ⟨some store.loader, none, false⟩).get hops root path).1 = .unfinished := by
  let store : BlockStore := .ofList [(⟨"x"⟩, .link ⟨"x"⟩)]
  have hloop : TransGen store.Chains ⟨"x"⟩ ⟨"x"⟩ := .single rfl
  exact ⟨store, .link ⟨"x"⟩, .root, Walker.focus_of_loop rfl _ (.here ⟨"x"⟩ []) hloop⟩

end DagSelect
