import DagSelect.Walk.Focus
import DagSelect.Proofs.Walk.Run

/-!
# Laws of following a path

What `resolve` gives is a node that stands for itself: resolving it once more changes nothing
(`resolve_of_stands`). What is to be shown of resolving is shown once for a link and whatever is
behind it (`resolve_rec`).

Every step of `locate` begins by resolving the node it has come to, and the last one ends with it.
So following two paths one after the other is following both in one go (`locate_append`), although
the node between them is then resolved at the end of the first path and again at the beginning of
the second.
-/

namespace DagSelect

variable {σ α β : Type}

/-- The node is what it is: there is no block to be taken in its place. -/
def Config.Stands (config : Config) (n : Node) : Prop := config.loader = none ∨ n.link? = none

theorem Config.stands_or_link (config : Config) (n : Node) :
    config.Stands n ∨ ∃ loader l, config.loader = some loader ∧ n = .link l := by
  unfold Stands
  cases hloader : config.loader with
  | none => exact .inl (.inl rfl)
  | some loader =>
    cases hlink : n.link? with
    | none => exact .inl (.inr rfl)
    | some l => exact .inr ⟨loader, l, rfl, Node.link?_eq_some_iff.1 hlink⟩

section

variable {config : Config} {hops : Nat} {p : Progress} {n : Node}

theorem resolve_of_stands (h : config.Stands n) :
    resolve (σ := σ) config hops p n = pure (p, n) := by
  unfold resolve
  rcases h with h | h
  · rw [h]
  · rw [h]
    cases config.loader <;> rfl

theorem resolve_zero_link {loader : Loader} (hloader : config.loader = some loader) (l : Link) :
    resolve (σ := σ) config 0 p (.link l) = throw .outOfHops := by
  unfold resolve
  rw [hloader]
  rfl

theorem resolve_succ_link {loader : Loader} (hloader : config.loader = some loader) (l : Link) :
    resolve (σ := σ) config (hops + 1) p (.link l) =
      Action.load config.once loader l p >>= fun found =>
        match found with
        | none => Action.fail (.pathNotFound p.path)
        | some block => resolve config hops (p.cross l) block := by
  conv => lhs; unfold resolve
  rw [hloader]
  rfl

/-- To show something of replacing a node by what is behind it, show it of a node that stands for
itself, of a link where the bound is met, and of a link if it is so of every block behind it. -/
theorem resolve_rec {P : Nat → Progress → Node → Action σ (Progress × Node) → Prop}
    (node : ∀ hops p n, config.Stands n → P hops p n (pure (p, n)))
    (bound : ∀ loader p l, config.loader = some loader → P 0 p (.link l) (throw .outOfHops))
    (link : ∀ loader hops p l, config.loader = some loader →
      (∀ block, P hops (p.cross l) block (resolve config hops (p.cross l) block)) →
      P (hops + 1) p (.link l) (Action.load config.once loader l p >>= fun found =>
        match found with
        | none => Action.fail (.pathNotFound p.path)
        | some block => resolve config hops (p.cross l) block))
    (hops : Nat) (p : Progress) (n : Node) : P hops p n (resolve config hops p n) := by
  rcases config.stands_or_link n with h | ⟨loader, l, hloader, rfl⟩
  · rw [resolve_of_stands h]
    exact node hops p n h
  · induction hops generalizing p l with
    | zero =>
      rw [resolve_zero_link hloader]
      exact bound loader p l hloader
    | succ hops ih =>
      rw [resolve_succ_link hloader]
      refine link loader hops p l hloader fun block => ?_
      rcases config.stands_or_link block with h | ⟨_, l', _, rfl⟩
      · rw [resolve_of_stands h]
        exact node hops _ block h
      · exact ih (p.cross l) l'

/-- A node is resolved where it is, to one that stands for itself. -/
theorem gives_resolve (config : Config) (hops : Nat) (p : Progress) (n : Node) :
    Action.Gives (resolve (σ := σ) config hops p n) fun found =>
      found.1.path = p.path ∧ config.Stands found.2 := by
  refine resolve_rec (P := fun _ p _ x => Action.Gives x fun found =>
    found.1.path = p.path ∧ config.Stands found.2) ?_ ?_ ?_ hops p n
  · exact fun hops p n h => .pure ⟨rfl, h⟩
  · exact fun loader p l _ run a run' h => nomatch h
  · intro loader hops p l _ ih
    refine .bind fun found => ?_
    cases found with
    | none => exact .fail _
    | some block => exact ih block

theorem locate_nil : locate (σ := σ) config hops p n [] = resolve config hops p n := rfl

theorem locate_cons (s : Segment) (rest : List Segment) :
    locate (σ := σ) config hops p n (s :: rest) =
      resolve config hops p n >>= fun found =>
        match found.2.get? s with
        | none => Action.fail (.pathNotFound (found.1.push s).path)
        | some child => locate config hops (found.1.push s) child rest := rfl

theorem locate_cons_of_stands (h : config.Stands n) (s : Segment) (rest : List Segment) :
    locate (σ := σ) config hops p n (s :: rest) =
      match n.get? s with
      | none => Action.fail (.pathNotFound (p.push s).path)
      | some child => locate config hops (p.push s) child rest := by
  rw [locate_cons, resolve_of_stands h, pure_bind]

/-- A path leads to a node that stands for itself, at the end of the path. -/
theorem gives_locate (config : Config) (hops : Nat) (p : Progress) (n : Node)
    (segments : List Segment) :
    Action.Gives (locate (σ := σ) config hops p n segments) fun found =>
      found.1.path = p.path.join ⟨segments⟩ ∧ config.Stands found.2 := by
  induction segments generalizing p n with
  | nil =>
    rw [locate_nil, show (⟨[]⟩ : Path) = .root from rfl, Path.join_root]
    exact gives_resolve config hops p n
  | cons s segments ih =>
    rw [locate_cons]
    refine (gives_resolve config hops p n).bind_of_gives fun found hfound => ?_
    cases found.2.get? s with
    | none => exact .fail _
    | some child =>
      have hrest := ih (found.1.push s) child
      rw [Progress.path_push, hfound.1, Path.push_join] at hrest
      exact hrest

/-- Before anything else the node that the path begins at is resolved. -/
theorem locate_eq_resolve_bind (segments : List Segment) :
    locate (σ := σ) config hops p n segments =
      resolve config hops p n >>= fun found => locate config hops found.1 found.2 segments := by
  cases segments with
  | nil =>
    conv => lhs; rw [locate_nil, ← bind_pure (resolve config hops p n)]
    refine (gives_resolve config hops p n).bind_congr fun found hfound => ?_
    rw [locate_nil, resolve_of_stands hfound.2]
  | cons s rest =>
    rw [locate_cons]
    refine (gives_resolve config hops p n).bind_congr fun found hfound => ?_
    rw [locate_cons_of_stands hfound.2]

section Link

variable {loader : Loader} {l : Link} {run run' : Run σ}

theorem locate_link_of_some (hloader : config.loader = some loader) {block : Node}
    (hload : Action.load config.once loader l p run = .ok (some block) run')
    (hblock : config.Stands block) (segments : List Segment) :
    locate config (hops + 1) p (.link l) segments run =
      locate config (hops + 1) (p.cross l) block segments run' := by
  have hresolve : resolve config (hops + 1) p (.link l) run = .ok (p.cross l, block) run' := by
    rw [resolve_succ_link hloader, Action.bind_run_of_ok hload]
    simp only [resolve_of_stands hblock]
    rfl
  rw [locate_eq_resolve_bind, Action.bind_run_of_ok hresolve]

theorem locate_link_of_none (hloader : config.loader = some loader)
    (hload : Action.load config.once loader l p run = .ok none run') (segments : List Segment) :
    locate config (hops + 1) p (.link l) segments run =
      .error (.failed (.pathNotFound p.path)) run' := by
  have hresolve : resolve config (hops + 1) p (.link l) run =
      .error (.failed (.pathNotFound p.path)) run' := by
    rw [resolve_succ_link hloader, Action.bind_run_of_ok hload]
    rfl
  rw [locate_eq_resolve_bind, Action.bind_run_of_error hresolve]

theorem locate_link_of_error (hloader : config.loader = some loader) {halt : Halt}
    (hload : Action.load config.once loader l p run = .error halt run') (segments : List Segment) :
    locate config (hops + 1) p (.link l) segments run = .error halt run' := by
  have hresolve : resolve config (hops + 1) p (.link l) run = .error halt run' := by
    rw [resolve_succ_link hloader, Action.bind_run_of_error hload]
  rw [locate_eq_resolve_bind, Action.bind_run_of_error hresolve]

end Link

/-- Following two paths one after the other. -/
theorem locate_append (segments rest : List Segment) :
    locate (σ := σ) config hops p n (segments ++ rest) =
      locate config hops p n segments >>= fun found =>
        locate config hops found.1 found.2 rest := by
  induction segments generalizing p n with
  | nil => exact locate_eq_resolve_bind rest
  | cons s segments ih =>
    rw [List.cons_append, locate_cons, locate_cons, bind_assoc]
    congr 1
    funext found
    cases found.2.get? s with
    | none => rfl
    | some child => exact ih

end

/-! ## What a search gives -/

def Found.ofAnswer : Except WalkError α → Found α
  | .ok a => .found a
  | .error e => .failed e

def Found.found? : Found α → Option α
  | .found a => some a
  | _ => none

/-- The end of the path is handed to the visitor, unless following it has failed before. -/
theorem Walker.focus_eq (w : Walker) (hops : Nat) (root : Node) (path : Path)
    (visit : Progress → Node → Except WalkError α) :
    (w.focus hops root path visit).1 =
      match locate w.config hops .start root path.segments ((new w.config).begin ()) with
      | .ok found _ => .ofAnswer (visit found.1 found.2)
      | .error (.failed e) _ => .failed e
      | .error .outOfHops _ => .unfinished := by
  simp only [focus, reset, new, EStateM.run]
  split
  · next p n run heq =>
    rw [heq]
    simp only
    cases visit p n <;> rfl
  · next e run heq => rw [heq]
  · next run heq => rw [heq]

end DagSelect
