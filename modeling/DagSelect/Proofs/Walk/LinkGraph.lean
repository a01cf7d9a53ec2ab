import DagSelect.Proofs.Node.Everywhere
import DagSelect.Walk.Config
import Mathlib.Data.Set.Card
import Mathlib.Logic.Relation
import Mathlib.Tactic.Choose

/-!
# The graph of blocks

A loader that does not look at where a link was found is a function of links, `Answers`, and makes a
graph of them: one link leads to another when its block holds the other. Where the part of this
graph that is reached from a node is finite and has no cycle, all links in the node can be replaced
by the blocks behind them, and the links in those, until none is left. `Inlines` says what this
comes to, and `exists_inlines` that it comes to an end: of a link that leads on less is reached than
of the link before it.
-/

namespace DagSelect

namespace Node

def links : Node → List Link :=
  fold fun n children => n.link?.toList ++ children.flatMap fun e => e.2.2

theorem links_eq (n : Node) :
    n.links = n.link?.toList ++ n.children.flatMap fun e => e.2.links := by
  conv => lhs; rw [links, fold_eq]
  rw [List.flatMap_map]
  rfl

theorem links_link (l : Link) : (Node.link l).links = [l] := rfl

theorem mem_links_of_child {n : Node} {e : Segment × Node} (he : e ∈ n.children) {l : Link}
    (hl : l ∈ e.2.links) : l ∈ n.links := by
  rw [links_eq]
  exact List.mem_append_right _ (List.mem_flatMap.2 ⟨e, he, hl⟩)

end Node

/-- What links lead to, wherever they are found. -/
abbrev Answers := Link → Except LoadError Node

namespace Answers

variable (answers : Answers)

def loader : Loader := fun l _ => answers l

def Leads (l l' : Link) : Prop := ∃ block, answers l = .ok block ∧ l' ∈ block.links

/-- A link is in a node, or it is led to from there. -/
def Reaches (n : Node) (l : Link) : Prop :=
  ∃ first ∈ n.links, Relation.ReflTransGen answers.Leads first l

/-- One node is the other with every link replaced by the block behind it, inlined in turn. -/
inductive Inlines : Node → Node → Prop
  | link {l : Link} {block m : Node} (found : answers l = .ok block) (inlined : Inlines block m) :
      Inlines (.link l) m
  | map (entries : List (String × Node × Node)) (inlined : ∀ e ∈ entries, Inlines e.2.1 e.2.2) :
      Inlines (.map (entries.map fun e => (e.1, e.2.1))) (.map (entries.map fun e => (e.1, e.2.2)))
  | list (items : List (Node × Node)) (inlined : ∀ x ∈ items, Inlines x.1 x.2) :
      Inlines (.list (items.map Prod.fst)) (.list (items.map Prod.snd))
  | scalar {n : Node} (leaf : n.kind.isContainer = false) (notLink : n.link? = none) : Inlines n n

variable {answers}

/-! ## What is reached -/

theorem reaches_of_child {n : Node} {e : Segment × Node} (he : e ∈ n.children) {l : Link}
    (hl : answers.Reaches e.2 l) : answers.Reaches n l := by
  obtain ⟨first, hfirst, hpath⟩ := hl
  exact ⟨first, Node.mem_links_of_child he hfirst, hpath⟩

theorem reaches_of_block {l : Link} {block : Node} (hblock : answers l = .ok block) {l' : Link}
    (hl' : answers.Reaches block l') : answers.Reaches (.link l) l' := by
  obtain ⟨first, hfirst, hpath⟩ := hl'
  exact ⟨l, by simp [Node.links_link], .head ⟨block, hblock, hfirst⟩ hpath⟩

theorem Reaches.leads {n : Node} {l l' : Link} (hl : answers.Reaches n l)
    (h : answers.Leads l l') : answers.Reaches n l' := by
  obtain ⟨first, hfirst, hpath⟩ := hl
  exact ⟨first, hfirst, hpath.tail h⟩

/-! ## Inlining -/

theorem map_eq_map_of_determined {α β γ : Type} {f : α → β} {g : α → γ} {xs ys : List α}
    (h : xs.map f = ys.map f) (hg : ∀ x ∈ xs, ∀ y ∈ ys, f x = f y → g x = g y) :
    xs.map g = ys.map g := by
  induction xs generalizing ys with
  | nil =>
    obtain rfl := List.map_eq_nil_iff.1 h.symm
    rfl
  | cons x xs ih =>
    obtain ⟨y, ys, rfl, hy, hys⟩ := List.map_eq_cons_iff.1 h.symm
    rw [List.map_cons, List.map_cons, hg x (by simp) y (by simp) hy.symm,
      ih hys.symm fun x hx y hy => hg x (by simp [hx]) y (by simp [hy])]

/-- A node has one inlining at most. -/
theorem Inlines.unique {n m m' : Node} (h : answers.Inlines n m) (h' : answers.Inlines n m') :
    m = m' := by
  induction h generalizing m' with
  | link found _ ih =>
    cases h' with
    | link found' inlined' =>
      rw [found, Except.ok.injEq] at found'
      subst found'
      exact ih inlined'
    | scalar _ notLink => cases notLink
  | map entries _ ih =>
    generalize hn : Node.map (entries.map fun e => (e.1, e.2.1)) = n at h'
    cases h' with
    | map entries' inlined' =>
      refine congrArg Node.map (map_eq_map_of_determined (Node.map.inj hn) ?_)
      intro e he f hf hsame
      obtain ⟨hkey, hnode⟩ := Prod.mk.inj hsame
      refine Prod.ext hkey (ih e he ?_)
      rw [hnode]
      exact inlined' f hf
    | link => cases hn
    | list => cases hn
    | scalar leaf =>
      subst hn
      cases leaf
  | list items _ ih =>
    generalize hn : Node.list (items.map Prod.fst) = n at h'
    cases h' with
    | list items' inlined' =>
      refine congrArg Node.list (map_eq_map_of_determined (Node.list.inj hn) ?_)
      intro x hx y hy hsame
      refine ih x hx ?_
      rw [hsame]
      exact inlined' y hy
    | link => cases hn
    | map => cases hn
    | scalar leaf =>
      subst hn
      cases leaf
  | scalar leaf notLink =>
    cases h' with
    | link => cases notLink
    | map => cases leaf
    | list => cases leaf
    | scalar => rfl

/-- A node can be inlined when the links in it can. -/
theorem exists_inlines_of_links {n : Node} (h : ∀ l ∈ n.links, ∃ m, answers.Inlines (.link l) m) :
    ∃ m, answers.Inlines n m := by
  induction n with
  | link l => exact h l (by simp [Node.links_link])
  | map entries ih =>
    have hentries : ∀ e ∈ entries, ∃ m, answers.Inlines e.2 m := by
      intro e he
      refine ih e he fun l hl => h l ?_
      exact Node.mem_links_of_child (Node.mem_children_map.2 ⟨e.1, rfl, he⟩) hl
    choose! f hf using hentries
    have hinlined : ∀ t ∈ entries.map fun e => (e.1, e.2, f e), answers.Inlines t.2.1 t.2.2 := by
      intro t ht
      obtain ⟨e, he, rfl⟩ := List.mem_map.1 ht
      exact hf e he
    have hmap := Inlines.map _ hinlined
    simp only [List.map_map, Function.comp_def, List.map_id'] at hmap
    exact ⟨_, hmap⟩
  | list items ih =>
    have hitems : ∀ x ∈ items, ∃ m, answers.Inlines x m := by
      intro x hx
      refine ih x hx fun l hl => h l ?_
      obtain ⟨i, hi⟩ := Node.exists_mem_children_list hx
      exact Node.mem_links_of_child hi hl
    choose! f hf using hitems
    have hinlined : ∀ t ∈ items.map fun x => (x, f x), answers.Inlines t.1 t.2 := by
      intro t ht
      obtain ⟨x, hx, rfl⟩ := List.mem_map.1 ht
      exact hf x hx
    have hlist := Inlines.list _ hinlined
    simp only [List.map_map, Function.comp_def, List.map_id'] at hlist
    exact ⟨_, hlist⟩
  | _ => exact ⟨_, .scalar rfl rfl⟩

section

variable {root : Node} (hresolve : ∀ l, answers.Reaches root l → ∃ block, answers l = .ok block)
  (hfinite : {l | answers.Reaches root l}.Finite)
  (hacyclic : ∀ l, answers.Reaches root l → ¬ Relation.TransGen answers.Leads l l)

include hresolve hfinite hacyclic

/-- Following a link leaves less to be reached, since no link leads back to itself. -/
theorem exists_inlines_of_reaches {l : Link} (hl : answers.Reaches root l) :
    ∃ m, answers.Inlines (.link l) m := by
  let below (l : Link) : Set Link := {l' | Relation.TransGen answers.Leads l l'}
  have hbelow : ∀ l, answers.Reaches root l → (below l).Finite := by
    intro l hl
    refine hfinite.subset fun l' hpath => ?_
    induction hpath with
    | single h => exact hl.leads h
    | tail _ h ih => exact Reaches.leads ih h
  induction hsize : (below l).ncard using Nat.strong_induction_on generalizing l with
  | _ size ih =>
    obtain ⟨block, hblock⟩ := hresolve l hl
    have hlinks : ∀ l' ∈ block.links, ∃ m, answers.Inlines (.link l') m := by
      intro l' hl'
      have hleads : answers.Leads l l' := ⟨block, hblock, hl'⟩
      have hreached := hl.leads hleads
      have hless : below l' ⊂ below l := by
        refine ⟨fun _ hpath => .head hleads hpath, fun hsub => ?_⟩
        exact hacyclic l' hreached (hsub (.single hleads))
      exact ih _ (hsize ▸ Set.ncard_lt_ncard hless (hbelow l hl)) hreached rfl
    obtain ⟨m, hm⟩ := exists_inlines_of_links hlinks
    exact ⟨m, .link hblock hm⟩

theorem exists_inlines : ∃ m, answers.Inlines root m :=
  exists_inlines_of_links fun l hl =>
    exists_inlines_of_reaches hresolve hfinite hacyclic ⟨l, hl, .refl⟩

end

end Answers

end DagSelect
