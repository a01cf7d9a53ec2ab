import DagSelect.Proofs.Walk.LinkGraph
import DagSelect.Proofs.Walk.Undisturbed

/-!
# Links are transparent

A walk through links visits what the walk of the inlined document visits. What a selector does at a
container depends on its kind, on how many children it has and under which segments, and inlining
changes none of this: a container and its inlining have the same children in the same places, each
the inlining of the other. So the induction is on the derivation of `Inlines`, which goes through
the nodes of a block and through the blocks at once, and the selector that is handed over at a link
is arbitrary in it.

How deep links have to be followed depends on the document only, so one bound serves all selectors.
-/

namespace DagSelect

/-! ## Two steps side by side -/

namespace Action

variable {α : Type}

/-- Two steps go to their end, and what one of them visits is related to what the other visits. -/
def Mirrors (R : Visit → Visit → Prop) (x y : Action Unit Unit) : Prop :=
  ∃ es fs, Emits x () es ∧ Emits y () fs ∧
    List.Forall₂ R (es.filterMap Event.visit?) (fs.filterMap Event.visit?)

variable {R : Visit → Visit → Prop}

theorem mirrors_pure : Mirrors R (pure ()) (pure ()) :=
  ⟨[], [], emits_pure (), emits_pure (), .nil⟩

theorem mirrors_visit {v w : Visit} (h : R v w) :
    Mirrors R (visit .onlooker v) (visit .onlooker w) :=
  ⟨[.visit v], [.visit w], emits_visit v, emits_visit w, .cons h .nil⟩

theorem Mirrors.bind {x y : Action Unit Unit} {next next' : Unit → Action Unit Unit}
    (h : Mirrors R x y) (hnext : Mirrors R (next ()) (next' ())) :
    Mirrors R (x >>= next) (y >>= next') := by
  obtain ⟨es, fs, hx, hy, hR⟩ := h
  obtain ⟨es', fs', hx', hy', hR'⟩ := hnext
  refine ⟨es ++ es', fs ++ fs', hx.bind hx', hy.bind hy', ?_⟩
  rw [List.filterMap_append, List.filterMap_append]
  exact List.rel_append hR hR'

theorem mirrors_forM {xs : List α} {f g : α → Action Unit Unit}
    (h : ∀ x ∈ xs, Mirrors R (f x) (g x)) : Mirrors R (forM xs f) (forM xs g) := by
  induction xs with
  | nil => exact mirrors_pure
  | cons x xs ih =>
    rw [List.forM_cons, List.forM_cons]
    exact (h x List.mem_cons_self).bind (ih fun y hy => h y (List.mem_cons_of_mem x hy))

/-- A load leaves no visit behind. -/
theorem Mirrors.load {loader : Loader} {l : Link} {p : Progress} {block : Node}
    (hblock : loader l p = .ok block) {next : Option Node → Action Unit Unit}
    {y : Action Unit Unit} (h : Mirrors R (next (some block)) y) :
    Mirrors R (load false loader l p >>= next) y := by
  obtain ⟨es, fs, hx, hy, hR⟩ := h
  exact ⟨_, fs, (emits_load hblock).bind hx, hy, hR⟩

end Action

/-! ## Containers of one shape -/

namespace Selector

/-- Of the container that is explored only the kind matters. -/
theorem explore?_congr_kind {n m : Node} (h : m.kind = n.kind) (s : Segment) (t : Selector) :
    t.explore? m s = t.explore? n s := by
  induction t with
  | union members ih =>
    rw [explore?, explore?, exploreIn_eq_filterMap, exploreIn_eq_filterMap,
      List.filterMap_congr fun t ht => ih t ht]
  | recursive limit sequence current _ ih => rw [explore?, explore?, ih]
  | index position next => rw [explore?, explore?, h]
  | range start stop next => rw [explore?, explore?, h]
  | _ => rfl

end Selector

namespace Node

/-- Two nodes of the same kind and length, in which segments address the same positions, with their
children side by side. -/
structure SameShape (n m : Node) (children : List (Segment × Node × Node)) : Prop where
  kind : m.kind = n.kind
  length : m.length = n.length
  position (s : Segment) : m.position? s = n.position? s
  left : n.children = children.map fun c => (c.1, c.2.1)
  right : m.children = children.map fun c => (c.1, c.2.2)

theorem sameShape_map (entries : List (String × Node × Node)) :
    SameShape (.map (entries.map fun e => (e.1, e.2.1))) (.map (entries.map fun e => (e.1, e.2.2)))
      (entries.map fun e => (.key e.1, e.2)) where
  kind := rfl
  length := by simp [length]
  position s := by simp [position?, List.findIdx?_map, Function.comp_def]
  left := by simp [children, Function.comp_def]
  right := by simp [children, Function.comp_def]

theorem sameShape_list (items : List (Node × Node)) :
    SameShape (.list (items.map Prod.fst)) (.list (items.map Prod.snd))
      (items.zipIdx.map fun x => (.index x.2, x.1)) where
  kind := rfl
  length := by simp [length]
  position s := by simp [position?]
  left := by simp [children, List.zipIdx_map, Function.comp_def]
  right := by simp [children, List.zipIdx_map, Function.comp_def]

theorem sameShape_scalar {n : Node} (leaf : n.kind.isContainer = false) : SameShape n n [] where
  kind := rfl
  length := rfl
  position _ := rfl
  left := by cases n <;> first | rfl | cases leaf
  right := by cases n <;> first | rfl | cases leaf

theorem SameShape.picks? {n m : Node} {children : List (Segment × Node × Node)}
    (h : SameShape n m children) (s : Selector) : s.picks? m = s.picks? n := by
  have hposition : m.position? = n.position? := funext h.position
  rw [Selector.picks?, Selector.picks?, h.length, hposition]

end Node

/-! ## Walking side by side -/

namespace Answers

variable {answers : Answers}

variable (answers) in
def Inlined (v w : Visit) : Prop :=
  w.progress.path = v.progress.path ∧ w.reason = v.reason ∧ answers.Inlines v.node w.node

variable (answers) in
def walkLinked (hops : Nat) : Node → Progress → Selector → Action Unit Unit :=
  enter Selector.picks? .onlooker
    (follow Selector.picks? ⟨some answers.loader, none, false⟩ .onlooker hops)

def walkUnlinked (hops : Nat) : Node → Progress → Selector → Action Unit Unit :=
  enter Selector.picks? .onlooker (follow Selector.picks? .plain .onlooker hops)

variable (answers) in
/-- With so many hops a node is walked like its inlining, whatever selector holds there. -/
def Mirrored (hops hops' : Nat) (n m : Node) : Prop :=
  ∀ (p q : Progress) (s : Selector), q.path = p.path →
    Action.Mirrors answers.Inlined (answers.walkLinked hops n p s) (walkUnlinked hops' m q s)

/-- Nodes of one shape are walked alike when their children are. -/
theorem mirrored_of_sameShape {hops hops' : Nat} {n m : Node}
    {children : List (Segment × Node × Node)} (hn : n.link? = none) (hm : m.link? = none)
    (hinlines : answers.Inlines n m) (shape : Node.SameShape n m children)
    (h : ∀ c ∈ children, answers.Mirrored hops hops' c.2.1 c.2.2) :
    answers.Mirrored hops hops' n m := by
  intro p q s hpath
  simp only [walkLinked, walkUnlinked, enter, hn, hm]
  rw [walkBlock_eq, walkBlock_eq, shape.picks?, shape.left, shape.right, keepPicked_map,
    keepPicked_map]
  simp only [List.forM_eq_forM, List.forM_map]
  refine (Action.mirrors_visit ⟨hpath, rfl, hinlines⟩).bind (Action.mirrors_forM fun c hc => ?_)
  rw [Selector.explore?_congr_kind shape.kind]
  cases s.explore? n c.1 with
  | none => exact Action.mirrors_pure
  | some next =>
    have hplace : (q.push c.1).path = (p.push c.1).path := by simp [hpath]
    exact h c (mem_of_mem_keepPicked hc) _ _ next hplace

/-- Some number of hops is enough for all elements when for each of them some number is. -/
theorem exists_hops_of_forall {α : Type} {xs : List α} {P : α → Nat → Prop}
    (h : ∀ x ∈ xs, ∃ bound, ∀ hops, bound ≤ hops → P x hops) :
    ∃ bound, ∀ hops, bound ≤ hops → ∀ x ∈ xs, P x hops := by
  induction xs with
  | nil => exact ⟨0, fun _ _ x hx => (List.not_mem_nil hx).elim⟩
  | cons x xs ih =>
    obtain ⟨first, hfirst⟩ := h x List.mem_cons_self
    obtain ⟨rest, hrest⟩ := ih fun y hy => h y (List.mem_cons_of_mem x hy)
    refine ⟨max first rest, fun hops hhops y hy => ?_⟩
    rcases List.mem_cons.1 hy with rfl | hy
    · exact hfirst hops (by omega)
    · exact hrest hops (by omega) y hy

theorem exists_hops_mirrored {n m : Node} (hinlines : answers.Inlines n m)
    (hblocks : ∀ l, answers.Reaches n l → ∀ block, answers l = .ok block → block.link? = none) :
    ∃ bound, ∀ hops, bound ≤ hops → ∀ hops', answers.Mirrored hops hops' n m := by
  induction hinlines with
  | @link l block m found inlined ih =>
    have hblock := hblocks l ⟨l, by simp [Node.links_link], .refl⟩ block found
    obtain ⟨bound, hbound⟩ := ih fun l' hl' => hblocks l' (reaches_of_block found hl')
    refine ⟨bound + 1, fun hops hhops hops' p q s hpath => ?_⟩
    obtain ⟨hops, rfl⟩ := Nat.exists_eq_add_one_of_ne_zero (Nat.ne_zero_of_lt hhops)
    have hbelow := hbound hops (by omega) hops' (p.cross l) q s hpath
    have hload : answers.loader l p = .ok block := found
    simp only [walkLinked, enter, hblock] at hbelow
    exact Action.Mirrors.load hload hbelow
  | map entries inlined ih =>
    have shape := Node.sameShape_map entries
    have hreached : ∀ e ∈ entries, ∀ l, answers.Reaches e.2.1 l →
        answers.Reaches (.map (entries.map fun e => (e.1, e.2.1))) l := by
      intro e he l hl
      have hchild := Node.mem_children_map.2
        ⟨e.1, rfl, List.mem_map_of_mem (f := fun e => (e.1, e.2.1)) he⟩
      exact reaches_of_child hchild hl
    obtain ⟨bound, hbound⟩ := exists_hops_of_forall fun e he =>
      ih e he fun l hl => hblocks l (hreached e he l hl)
    refine ⟨bound, fun hops hhops hops' => ?_⟩
    refine mirrored_of_sameShape rfl rfl (.map entries inlined) shape fun c hc => ?_
    obtain ⟨e, he, rfl⟩ := List.mem_map.1 hc
    exact hbound hops hhops e he hops'
  | list items inlined ih =>
    have shape := Node.sameShape_list items
    have hreached : ∀ x ∈ items, ∀ l, answers.Reaches x.1 l →
        answers.Reaches (.list (items.map Prod.fst)) l := by
      intro x hx l hl
      obtain ⟨i, hi⟩ := Node.exists_mem_children_list (List.mem_map_of_mem (f := Prod.fst) hx)
      exact reaches_of_child hi hl
    obtain ⟨bound, hbound⟩ := exists_hops_of_forall fun x hx =>
      ih x hx fun l hl => hblocks l (hreached x hx l hl)
    refine ⟨bound, fun hops hhops hops' => ?_⟩
    refine mirrored_of_sameShape rfl rfl (.list items inlined) shape fun c hc => ?_
    obtain ⟨x, hx, rfl⟩ := List.mem_map.1 hc
    exact hbound hops hhops x.1 (List.fst_mem_of_mem_zipIdx hx) hops'
  | scalar leaf notLink =>
    refine ⟨0, fun hops _ hops' => ?_⟩
    exact mirrored_of_sameShape notLink notLink (.scalar leaf notLink) (Node.sameShape_scalar leaf)
      fun c hc => (List.not_mem_nil hc).elim

end Answers

/-- A document whose links all lead to blocks, and nowhere back, has an inlining, and it is walked
like that: the same paths for the same reasons, and each node visited is inlined in the other
walk. -/
theorem walk_inline (answers : Answers) (root : Node)
    (hresolve : ∀ l, answers.Reaches root l →
      ∃ block, answers l = .ok block ∧ block.link? = none) :
    ({l | answers.Reaches root l}.Finite →
      (∀ l, answers.Reaches root l → ¬ Relation.TransGen answers.Leads l l) →
        ∃! m, answers.Inlines root m) ∧
      ∀ m, answers.Inlines root m → ∃ bound, ∀ hops, bound ≤ hops → ∀ hops' s,
        let linked :=
          ((Walker.new ⟨some answers.loader, none, false⟩).walk hops root s .onlooker ()).1
        let inlined := ((Walker.new .plain).walk hops' m s .onlooker ()).1
        linked.outcome = .done ∧ inlined.outcome = .done ∧
          List.Forall₂ (fun v w => w.progress.path = v.progress.path ∧ w.reason = v.reason ∧
            answers.Inlines v.node w.node) linked.visits inlined.visits := by
  constructor
  · intro hfinite hacyclic
    obtain ⟨m, hm⟩ := Answers.exists_inlines
      (fun l hl => (hresolve l hl).imp fun _ h => h.1) hfinite hacyclic
    exact ⟨m, hm, fun m' hm' => hm'.unique hm⟩
  · intro m hm
    have hblocks : ∀ l, answers.Reaches root l → ∀ block, answers l = .ok block →
        block.link? = none := by
      intro l hl block hblock
      obtain ⟨found, hfound, hnotLink⟩ := hresolve l hl
      rw [hblock, Except.ok.injEq] at hfound
      rwa [hfound]
    obtain ⟨bound, hbound⟩ := Answers.exists_hops_mirrored hm hblocks
    refine ⟨bound, fun hops hhops hops' s => ?_⟩
    obtain ⟨es, fs, hes, hfs, hvisits⟩ := hbound hops hhops hops' .start .start s rfl
    intro linked inlined
    have hlinked : linked = ⟨.done, es, ()⟩ := Walker.walkPruned_of_emits rfl hes
    have hinlined : inlined = ⟨.done, fs, ()⟩ := Walker.walkPruned_of_emits rfl hfs
    rw [hlinked, hinlined]
    exact ⟨rfl, rfl, hvisits⟩

/-- A block that is reached twice, once from the root and once through another block. -/
theorem walk_inline_shared_block :
    let answers : Answers := fun l =>
      if l.text = "a" then .ok (.map [("k", .link ⟨"b"⟩)])
      else if l.text = "b" then .ok (.list [.null])
      else .error (.notFound l)
    let root : Node := .list [.link ⟨"a"⟩, .link ⟨"b"⟩]
    {l | answers.Reaches root l}.Finite ∧
      (∀ l, answers.Reaches root l → ¬ Relation.TransGen answers.Leads l l) ∧
      ∃ m, answers.Inlines root m ∧ ∃ bound, ∀ hops, bound ≤ hops → ∀ s,
        let linked :=
          ((Walker.new ⟨some answers.loader, none, false⟩).walk hops root s .onlooker ()).1
        let inlined := ((Walker.new .plain).walk 0 m s .onlooker ()).1
        linked.outcome = .done ∧
          linked.visits.map (·.progress.path) = inlined.visits.map (·.progress.path) := by
  intro answers root
  -- The first block leads to the second, and that is all there is.
  have hleads : ∀ l l', answers.Leads l l' → l.text = "a" ∧ l' = ⟨"b"⟩ := by
    rintro l l' ⟨block, hblock, hl'⟩
    simp only [answers] at hblock
    split at hblock
    · next ha =>
      cases hblock
      exact ⟨ha, List.mem_singleton.1 hl'⟩
    · split at hblock
      · cases hblock
        cases hl'
      · cases hblock
  have hreached : ∀ l, answers.Reaches root l → l = ⟨"a"⟩ ∨ l = ⟨"b"⟩ := by
    rintro l ⟨first, hfirst, hpath⟩
    rcases Relation.ReflTransGen.cases_tail hpath with rfl | ⟨_, _, h⟩
    · simpa [root, Node.links, Node.fold, Node.foldItems, Node.link?] using hfirst
    · exact .inr (hleads _ _ h).2
  have hresolve : ∀ l, answers.Reaches root l →
      ∃ block, answers l = .ok block ∧ block.link? = none := by
    intro l hl
    rcases hreached l hl with rfl | rfl
    · exact ⟨_, rfl, rfl⟩
    · exact ⟨_, rfl, rfl⟩
  have hfinite : {l | answers.Reaches root l}.Finite :=
    ((Set.finite_singleton (⟨"b"⟩ : Link)).insert ⟨"a"⟩).subset fun l hl => hreached l hl
  have hacyclic : ∀ l, answers.Reaches root l → ¬ Relation.TransGen answers.Leads l l := by
    intro l _ hcycle
    obtain ⟨next, hfirst, -⟩ := Relation.TransGen.head'_iff.1 hcycle
    obtain ⟨_, _, hlast⟩ := Relation.TransGen.tail'_iff.1 hcycle
    have ha := (hleads _ _ hfirst).1
    rw [(hleads _ _ hlast).2] at ha
    exact absurd ha (by decide)
  have hwalk := walk_inline answers root hresolve
  obtain ⟨m, hm, -⟩ := hwalk.1 hfinite hacyclic
  obtain ⟨bound, hbound⟩ := hwalk.2 m hm
  refine ⟨hfinite, hacyclic, m, hm, bound, fun hops hhops s => ?_⟩
  obtain ⟨hdone, -, hvisits⟩ := hbound hops hhops 0 s
  refine ⟨hdone, ?_⟩
  rw [← List.forall₂_eq_eq_eq, List.forall₂_map_left_iff, List.forall₂_map_right_iff]
  exact hvisits.imp fun v w h => h.1.symm

end DagSelect
