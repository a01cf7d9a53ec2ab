import DagSelect.Proofs.Walk.Composition
import DagSelect.Proofs.Walk.Once

/-!
# Paths that meet a link twice

A search that loads each link at most once finds nothing behind a link that it meets again, where a
search that loads links as often as it meets them goes on. Up to there the two do the same
(`tracks_locate_once`), and where they part the one ends with the failure of a path that leads
nowhere.

The other does not come to the very same failure later. At that place it could only do so at the end
of a chain of links that the loader leaves out. Such a chain has no link twice (`Config.Dies.nodup`)
and none that has led to a node before (`Config.Leads.not_dies`), so all that a search meets where
it finds nothing is new to it (`triple_locate_settled`). The two searches therefore come to the same
if and only if the path meets no link twice (`get_once`).
-/

namespace DagSelect

variable {σ : Type}

namespace Run

/-- The two runs have loaded the same and no link twice, and the first has noted every link of
it. -/
structure InStep (run other : Run σ) : Prop where
  loads : other.loads = run.loads
  nodup : (run.loads.map Prod.fst).Nodup
  seen : ∀ l, l ∈ run.seen ↔ l ∈ run.loads.map Prod.fst
  budget : run.budget = none
  budget' : other.budget = none

theorem InStep.load {run other : Run σ} (h : run.InStep other) {l : Link} (hl : l ∉ run.seen)
    (p : Progress) :
    ((run.meet true l).record (.load l p)).InStep (other.record (.load l p)) where
  loads := by simp [h.loads]
  nodup := by
    have hnew : l ∉ run.loads.map Prod.fst := fun hmem => hl ((h.seen l).2 hmem)
    rw [loads_record_load, loads_meet, List.map_append, List.map_cons, List.map_nil,
      ← List.concat_eq_append]
    exact h.nodup.concat hnew
  seen l' := by
    rw [loads_record_load, loads_meet, List.map_append, List.mem_append]
    show l' ∈ l :: run.seen ↔ _
    rw [List.mem_cons, h.seen, or_comm]
    simp
  budget := h.budget
  budget' := h.budget'

end Run

open DagSelect.Action

/-! ## Two searches side by side -/

theorem extends_resolve (config : Config) (hops : Nat) (p : Progress) (n : Node) :
    Extends (σ := σ) (resolve config hops p n) := by
  refine resolve_rec (P := fun _ _ _ x => Extends x) ?_ ?_ ?_ hops p n
  · exact fun _ _ _ _ => extends_pure _
  · exact fun _ _ _ _ => extends_throw _
  · intro loader hops p l _ ih
    refine (extends_load config.once loader l p).bind fun found => ?_
    cases found with
    | none => exact extends_throw _
    | some block => exact ih block

/-- The first search ended at a link that it had loaded before. The other loads it again. -/
def CutAtRepeat (halt : Halt) (es fs : List Event) : Prop :=
  ∃ l p, halt = .failed (.pathNotFound p.path) ∧ l ∈ linksOf es ∧ (linksOf es).Nodup ∧
    es.filterMap Event.load? ++ [(l, p)] <+: fs.filterMap Event.load?

theorem lasting_cutAtRepeat : Lasting CutAtRepeat := by
  rintro halt es fs gs ⟨l, p, hhalt, hmet, hnodup, hagain⟩ hmore
  exact ⟨l, p, hhalt, hmet, hnodup, hagain.trans (hmore.filterMap _)⟩

section

variable {config config' : Config} (hloader : config'.loader = config.loader)
  (honce : config.once = true) (honce' : config'.once = false)

include honce'

/-- A link that has to be replaced is loaded first. -/
theorem loads_prefix_of_resolve_link {loader : Loader} (hconfig : config'.loader = some loader)
    {run : Run σ} (hrun : run.budget = none) (hops : Nat) (l : Link) (p : Progress) :
    run.loads ++ [(l, p)] <+: (left (resolve config' (hops + 1) p (.link l) run)).loads := by
  have hload : left (load false loader l p run) = run.record (.load l p) := by
    rw [load_false_run, Run.spend?_of_budget_eq_none hrun]
    simp only [asked]
    rcases loader l p with (_ | _ | _ | _) | _ <;> rfl
  rw [← Run.loads_record_load, ← hload, resolve_succ_link hconfig, honce', bind_run]
  cases hstep : load false loader l p run with
  | error halt last => exact List.prefix_rfl
  | ok found next =>
    refine List.IsPrefix.filterMap _ (Extends.log_prefix ?_ next)
    cases found with
    | none => exact extends_throw _
    | some block => exact extends_resolve config' hops (p.cross l) block

include hloader honce

theorem tracks_resolve_once (hops : Nat) (p : Progress) (n : Node) :
    Tracks (σ := σ) (τ := σ) Run.InStep CutAtRepeat (resolve config hops p n)
      (resolve config' hops p n) := by
  refine resolve_rec (P := fun hops p n x => Tracks Run.InStep CutAtRepeat x
    (resolve config' hops p n)) ?_ ?_ ?_ hops p n
  · intro hops p n h
    have h' : config'.Stands n := by rwa [Config.Stands, hloader]
    rw [resolve_of_stands h']
    exact tracks_pure _
  · intro loader p l hconfig
    rw [resolve_zero_link (hloader.trans hconfig)]
    exact tracks_throw _
  · intro loader hops p l hconfig ih
    have hconfig' : config'.loader = some loader := hloader.trans hconfig
    refine ⟨extends_resolve config' _ p _, fun run other h => ?_⟩
    rw [honce, bind_run]
    -- A link that was met before ends the one search, and is loaded again by the other.
    by_cases hl : l ∈ run.seen
    · rw [load_run, if_pos ⟨rfl, hl⟩]
      have hagain := loads_prefix_of_resolve_link honce' hconfig' h.budget' hops l p
      rw [h.loads] at hagain
      exact .inr ⟨l, p, rfl, (h.seen l).1 hl, h.nodup, hagain⟩
    · have hnext := h.load hl p
      rw [resolve_succ_link hconfig', honce', bind_run, load_run, load_false_run,
        if_neg fun hmet => hl hmet.2,
        Run.spend?_of_budget_eq_none ((Run.budget_meet run true l).trans h.budget),
        Run.spend?_of_budget_eq_none h.budget']
      simp only [asked]
      cases loader l p with
      | ok block => exact (ih block).step _ _ hnext
      | error e => cases e <;> exact .inl ⟨_, rfl, hnext⟩

theorem tracks_locate_once (hops : Nat) (p : Progress) (n : Node) (segments : List Segment) :
    Tracks (σ := σ) (τ := σ) Run.InStep CutAtRepeat (locate config hops p n segments)
      (locate config' hops p n segments) := by
  induction segments generalizing p n with
  | nil => exact tracks_resolve_once hloader honce honce' hops p n
  | cons s segments ih =>
    rw [locate_cons, locate_cons]
    refine (tracks_resolve_once hloader honce honce' hops p n).bind lasting_cutAtRepeat
      fun found => ?_
    cases found.2.get? s with
    | none => exact tracks_throw _
    | some child => exact ih (found.1.push s) child

end

namespace Walker

theorem loads_focus {α : Type} (w : Walker) (hops : Nat) (root : Node) (path : Path)
    (visit : Progress → Node → Except WalkError α) :
    (w.focus hops root path visit).2.1 =
      (left (locate w.config hops .start root path.segments ((new w.config).begin ()))).loads := by
  simp only [focus, reset, new, EStateM.run]
  split
  · next p n run heq =>
    rw [heq]
    cases visit p n <;> rfl
  · next e run heq =>
    rw [heq]
    rfl
  · next run heq =>
    rw [heq]
    rfl

end Walker

/-! ## Chains of which nothing comes -/

namespace Config

/-- The links of a chain, at the end of which the loader leaves the branch out. -/
inductive Dies (config : Config) : List Link → Prop
  | skip {l : Link} (left : config.Answers l (.error .skip)) : Dies config [l]
  | chain {l l' : Link} {rest : List Link} (next : config.Chains l l')
      (dies : Dies config (l' :: rest)) : Dies config (l :: l' :: rest)

inductive Leads (config : Config) : Link → Prop
  | node {l : Link} {n : Node} (block : config.Answers l (.ok n)) (notLink : n.link? = none) :
      Leads config l
  | chain {l l' : Link} (next : config.Chains l l') (leads : Leads config l') : Leads config l

variable {config : Config} (hlink : config.AnswersByLink)

include hlink

theorem Answers.unique {l : Link} {a b : Except LoadError Node} (ha : config.Answers l a)
    (hb : config.Answers l b) : a = b := by
  obtain ⟨loader, p, hloader, rfl⟩ := ha
  obtain ⟨loader', q, hloader', rfl⟩ := hb
  obtain rfl := Option.some.inj (hloader.symm.trans hloader')
  exact hlink loader hloader l p q

theorem Chains.unique {l m m' : Link} (h : config.Chains l m) (h' : config.Chains l m') :
    m = m' := by
  cases Answers.unique hlink h h'
  rfl

theorem Leads.not_dies {l : Link} (h : config.Leads l) (rest : List Link) :
    ¬ config.Dies (l :: rest) := by
  induction h generalizing rest with
  | node block notLink =>
    intro hdies
    cases hdies with
    | skip left => cases Answers.unique hlink block left
    | chain next _ =>
      cases Answers.unique hlink block next
      cases notLink
  | chain next _ ih =>
    intro hdies
    cases hdies with
    | skip left => cases Answers.unique hlink next left
    | chain next' dies =>
      obtain rfl := Chains.unique hlink next next'
      exact ih _ dies

/-- Where a chain goes on to is settled by where it begins. -/
theorem Dies.unique {ls ls' : List Link} (h : config.Dies ls) (h' : config.Dies ls')
    (hhead : ls.head? = ls'.head?) : ls = ls' := by
  induction h generalizing ls' with
  | skip left =>
    cases h' with
    | skip _ => rw [Option.some.inj hhead]
    | chain next _ =>
      obtain rfl := Option.some.inj hhead
      cases Answers.unique hlink left next
  | chain next _ ih =>
    cases h' with
    | skip left =>
      obtain rfl := Option.some.inj hhead
      cases Answers.unique hlink next left
    | chain next' dies' =>
      obtain rfl := Option.some.inj hhead
      obtain rfl := Chains.unique hlink next next'
      rw [ih dies' rfl]

omit hlink in
theorem Dies.exists_of_mem {ls : List Link} (h : config.Dies ls) {l : Link} (hl : l ∈ ls) :
    ∃ rest, config.Dies (l :: rest) ∧ rest.length < ls.length := by
  induction h with
  | skip left =>
    obtain rfl := List.mem_singleton.1 hl
    exact ⟨[], .skip left, Nat.zero_lt_one⟩
  | @chain m m' rest next dies ih =>
    rcases List.mem_cons.1 hl with rfl | hl
    · exact ⟨m' :: rest, .chain next dies, Nat.lt_succ_self _⟩
    · obtain ⟨rest', hdies, hlength⟩ := ih hl
      exact ⟨rest', hdies, Nat.lt_succ_of_lt hlength⟩

/-- A chain that came back to a link would go round and never end. -/
theorem Dies.nodup {ls : List Link} (h : config.Dies ls) : ls.Nodup := by
  induction h with
  | skip left => exact List.nodup_singleton _
  | @chain l l' rest next dies ih =>
    refine List.nodup_cons.2 ⟨fun hmem => ?_, ih⟩
    obtain ⟨rest', hdies, hlength⟩ := dies.exists_of_mem hmem
    have hsame := (Dies.chain next dies).unique hlink hdies rfl
    rw [List.cons.inj hsame |>.2] at hlength
    exact Nat.lt_irrefl _ hlength

end Config

/-! ## Where a search finds nothing -/

theorem List.exists_of_prefix_append {α : Type} {as bs cs : List α} {x : α}
    (h : as ++ [x] <+: bs ++ cs) (hx : x ∉ bs) :
    ∃ between after, as = bs ++ between ∧ cs = between ++ x :: after := by
  obtain ⟨after, hall⟩ := h
  rw [List.append_assoc, List.singleton_append] at hall
  rcases List.append_eq_append_iff.1 hall with ⟨first, rfl, hrest⟩ | ⟨between, rfl, hrest⟩
  · cases first with
    | nil => exact ⟨[], after, by simp, by simpa using hrest.symm⟩
    | cons y first =>
      obtain ⟨rfl, -⟩ := List.cons.inj hrest
      exact absurd (by simp) hx
  · exact ⟨between, after, rfl, hrest⟩

/-- Every link that was loaded leads to a node, and was loaded at a place less deep. -/
structure Run.Settled (config : Config) (depth : Nat) (run : Run σ) : Prop where
  budget : run.budget = none
  leads : ∀ e ∈ run.loads, config.Leads e.1
  above : ∀ e ∈ run.loads, e.2.path.length < depth

theorem Run.Settled.deeper {config : Config} {depth : Nat} {run : Run σ}
    (h : run.Settled config depth) : run.Settled config (depth + 1) :=
  { h with above := fun e he => Nat.lt_succ_of_lt (h.above e he) }

/-- Where the search has found nothing, no link was loaded that had been loaded before. -/
def Halt.FoundNothingNew (halt : Halt) (run : Run σ) : Prop :=
  ∀ p, halt = .failed (.pathNotFound p) → ∀ before l q, before ++ [(l, q)] <+: run.loads →
    q.path = p → l ∉ before.map Prod.fst

inductive Replaces (config : Config) (p : Path) (l : Link) (before : List (Link × Progress)) :
    EStateM.Result Halt (Run σ) (Progress × Node) → Prop
  | node {found : Progress × Node} {run : Run σ} {loads : List (Link × Progress)}
      (budget : run.budget = none) (log : run.loads = before ++ loads)
      (places : ∀ e ∈ loads, e.2.path = p) (leads : ∀ e ∈ loads, config.Leads e.1)
      (here : l ∈ loads.map Prod.fst) : Replaces config p l before (.ok found run)
  | nothing {run : Run σ} {loads : List (Link × Progress)} {rest : List Link}
      (log : run.loads = before ++ loads) (places : ∀ e ∈ loads, e.2.path = p)
      (links : loads.map Prod.fst = l :: rest) (dies : config.Dies (l :: rest)) :
      Replaces config p l before (.error (.failed (.pathNotFound p)) run)
  | otherwise {halt : Halt} {run : Run σ} (ne : ∀ q, halt ≠ .failed (.pathNotFound q)) :
      Replaces config p l before (.error halt run)

theorem Replaces.of_chain {config : Config} {q : Progress} {l l' : Link}
    {before : List (Link × Progress)} {ended : EStateM.Result Halt (Run σ) (Progress × Node)}
    (hchain : config.Chains l l') (h : Replaces config q.path l' (before ++ [(l, q)]) ended) :
    Replaces config q.path l before ended := by
  cases h with
  | node budget log places leads here =>
    obtain ⟨e, he, rfl⟩ := List.mem_map.1 here
    rw [List.append_assoc] at log
    exact .node budget log (List.forall_mem_cons.2 ⟨rfl, places⟩)
      (List.forall_mem_cons.2 ⟨.chain hchain (leads e he), leads⟩) List.mem_cons_self
  | nothing log places links dies =>
    rw [List.append_assoc] at log
    exact .nothing log (List.forall_mem_cons.2 ⟨rfl, places⟩) (congrArg (l :: ·) links)
      (.chain hchain dies)
  | otherwise ne => exact .otherwise ne

section

variable {config : Config} (honce : config.once = false)

include honce

theorem replaces {loader : Loader} (hloader : config.loader = some loader) (hops : Nat)
    (p : Progress) (l : Link) {run : Run σ} (hrun : run.budget = none) :
    Replaces config p.path l run.loads (resolve config hops p (.link l) run) := by
  induction hops generalizing p l run with
  | zero =>
    rw [resolve_zero_link hloader]
    exact .otherwise fun q => by rintro ⟨⟩
  | succ hops ih =>
    rw [resolve_succ_link hloader, honce, bind_run, load_false_run,
      Run.spend?_of_budget_eq_none hrun]
    simp only [asked]
    have hlog : (run.record (.load l p)).loads = run.loads ++ [(l, p)] :=
      Run.loads_record_load run l p
    have hplace : ∀ e ∈ [(l, p)], e.2.path = p.path := List.forall_mem_singleton.2 rfl
    cases hanswer : loader l p with
    | ok block =>
      have hgiven : config.Answers l (.ok block) := ⟨loader, p, hloader, hanswer⟩
      simp only
      cases hblock : block.link? with
      | some l' =>
        obtain rfl := Node.link?_eq_some_iff.1 hblock
        have hrest : Replaces config p.path l' (run.record (.load l p)).loads
            (resolve config hops (p.cross l) (.link l') (run.record (.load l p))) :=
          ih (p.cross l) l' hrun
        rw [hlog] at hrest
        exact .of_chain hgiven hrest
      | none =>
        rw [resolve_of_stands (.inr hblock)]
        exact .node hrun hlog hplace (List.forall_mem_singleton.2 (.node hgiven hblock))
          (List.mem_singleton_self l)
    | error e =>
      cases e with
      | skip => exact .nothing hlog hplace rfl (.skip ⟨loader, p, hloader, hanswer⟩)
      | _ => exact .otherwise fun q => by rintro ⟨⟩

variable (hlink : config.AnswersByLink)

include hlink

theorem triple_resolve_settled (hops : Nat) (p : Progress) (n : Node) :
    Triple (σ := σ) (Run.Settled config p.path.length) (resolve config hops p n)
      (fun found run => found.1.path = p.path ∧ run.Settled config (p.path.length + 1))
      Halt.FoundNothingNew := by
  intro run hrun
  rcases config.stands_or_link n with h | ⟨loader, l, hloader, rfl⟩
  · rw [resolve_of_stands h]
    exact ⟨rfl, hrun.deeper⟩
  · have hends := replaces honce hloader hops p l hrun.budget
    have hgives := gives_resolve (σ := σ) config hops p (.link l) run
    generalize resolve config hops p (.link l) run = ended at hends hgives
    cases hends with
    | @node found run' _ budget log places leads _ =>
      refine ⟨(hgives found run' rfl).1, budget, ?_, ?_⟩
      · rw [log]
        exact List.forall_mem_append.2 ⟨hrun.leads, leads⟩
      · rw [log]
        refine List.forall_mem_append.2 ⟨hrun.deeper.above, fun e he => ?_⟩
        rw [places e he]
        exact Nat.lt_succ_self _
    | @nothing run' loads rest log places links dies =>
      rintro _ ⟨⟩ before l' q hbefore hplace hmem
      rw [log] at hbefore
      -- What was loaded earlier was loaded at places less deep, so this is one of the new loads.
      have hnew : (l', q) ∉ run.loads := fun hold =>
        absurd (hrun.above _ hold) (by rw [hplace]; exact Nat.lt_irrefl _)
      obtain ⟨between, after, rfl, rfl⟩ := List.exists_of_prefix_append hbefore hnew
      -- The link is in the chain of which nothing comes, which has it only once.
      have hdies : l' ∈ l :: rest := by
        rw [← links]
        simp
      rw [List.map_append, List.mem_append] at hmem
      rcases hmem with hold | hagain
      · obtain ⟨e, he, rfl⟩ := List.mem_map.1 hold
        obtain ⟨_, hdead, -⟩ := dies.exists_of_mem hdies
        exact (hrun.leads e he).not_dies hlink _ hdead
      · have hnodup := dies.nodup hlink
        rw [← links, List.map_append, List.nodup_append] at hnodup
        exact hnodup.2.2 l' hagain l' (by simp) rfl
    | otherwise ne => exact fun q hq => absurd hq (ne q)

theorem triple_locate_settled (hops : Nat) (p : Progress) (n : Node) (segments : List Segment) :
    Triple (σ := σ) (Run.Settled config p.path.length) (locate config hops p n segments)
      (fun _ _ => True) Halt.FoundNothingNew := by
  induction segments generalizing p n with
  | nil => exact (triple_resolve_settled honce hlink hops p n).of_imp fun _ _ _ => trivial
  | cons s segments ih =>
    rw [locate_cons]
    refine (triple_resolve_settled honce hlink hops p n).bind fun found run ⟨hplace, hrun⟩ => ?_
    have hlength : (found.1.push s).path.length = p.path.length + 1 := by
      simp [Path.length, hplace]
    cases found.2.get? s with
    | none =>
      rintro _ ⟨⟩ before l q hbefore hq
      have habove := hrun.above (l, q) (hbefore.subset (by simp))
      rw [hq, hlength] at habove
      exact absurd habove (Nat.lt_irrefl _)
    | some child => exact ih (found.1.push s) child run (hlength ▸ hrun)

end

/-! ## The two searches -/

section

variable {loader : Option Loader} (w : Walker) (hw : w.config = ⟨loader, none, false⟩) (hops : Nat)
  (root : Node) (path : Path)

include hw

/-- A search that finds nothing at a place does not say so of a link that it has met before. -/
theorem Walker.notMem_of_get_found_nothing (hlink : w.config.AnswersByLink) {p : Path}
    (h : (w.get hops root path).1 = .failed (.pathNotFound p)) {before : List (Link × Progress)}
    {l : Link} {q : Progress} (hbefore : before ++ [(l, q)] <+: (w.get hops root path).2.1)
    (hplace : q.path = p) : l ∉ before.map Prod.fst := by
  have hbegin : ((new w.config).begin ()).Settled w.config 0 := by
    rw [hw]
    exact ⟨rfl, fun _ he => absurd he List.not_mem_nil, fun _ he => absurd he List.not_mem_nil⟩
  have hsettled := triple_locate_settled (by rw [hw]) hlink hops .start root path.segments _ hbegin
  simp only [get, loads_focus, focus_eq] at h hbefore
  cases hstep : locate w.config hops .start root path.segments ((new w.config).begin ()) with
  | ok found run =>
    rw [hstep] at h
    cases h
  | error halt run =>
    rw [hstep] at h hbefore hsettled
    cases halt with
    | outOfHops => cases h
    | failed e =>
      cases h
      exact hsettled p rfl before l q hbefore hplace

variable (w' : Walker) (hw' : w'.config = ⟨loader, none, true⟩)

include hw'

/-- Both come to the same, or the one ends at the first link that the other loads again. -/
theorem Walker.get_once_cases :
    let all := w.get hops root path
    let once := w'.get hops root path
    (once.1 = all.1 ∧ once.2.1 = all.2.1 ∧ (all.2.1.map Prod.fst).Nodup) ∨
      ∃ l p, once.1 = .failed (.pathNotFound p.path) ∧ l ∈ once.2.1.map Prod.fst ∧
        (once.2.1.map Prod.fst).Nodup ∧ once.2.1 ++ [(l, p)] <+: all.2.1 := by
  intro all once
  have hloader : w.config.loader = w'.config.loader := by rw [hw, hw']
  have hbegin : ((new w'.config).begin ()).InStep ((new w.config).begin ()) := by
    rw [hw, hw']
    exact ⟨rfl, List.nodup_nil, fun l => iff_of_false List.not_mem_nil List.not_mem_nil, rfl, rfl⟩
  have htracks :=
    (tracks_locate_once (σ := Unit) hloader (by rw [hw']) (by rw [hw]) hops .start root
    path.segments).step _ _ hbegin
  simp only [all, once, get, loads_focus, focus_eq]
  cases hstep : locate w'.config hops .start root path.segments ((new w'.config).begin ()) with
  | ok found run =>
    rw [hstep] at htracks
    obtain ⟨run', hstep', h⟩ := htracks
    rw [hstep']
    exact .inl ⟨rfl, h.loads.symm, h.loads ▸ h.nodup⟩
  | error halt run =>
    rw [hstep] at htracks
    rcases htracks with ⟨run', hstep', h⟩ | ⟨l, p, rfl, hmet, hnodup, hagain⟩
    · rw [hstep']
      refine .inl ⟨?_, h.loads.symm, h.loads ▸ h.nodup⟩
      cases halt <;> rfl
    · exact .inr ⟨l, p, rfl, hmet, hnodup, hagain⟩

end

/-- A search that loads each link once comes to what the search comes to that loads links as often
as it meets them if and only if the path meets no link twice. Otherwise it ends at the first link
that it meets again, as if there were nothing at that place. -/
theorem get_once {loader : Option Loader} (w w' : Walker) (hw : w.config = ⟨loader, none, false⟩)
    (hw' : w'.config = ⟨loader, none, true⟩) (hlink : w.config.AnswersByLink) (hops : Nat)
    (root : Node) (path : Path) :
    let all := w.get hops root path
    let once := w'.get hops root path
    (once.1 = all.1 ↔ (all.2.1.map Prod.fst).Nodup) ∧
      ((all.2.1.map Prod.fst).Nodup → once.2.1 = all.2.1) ∧
      (¬ (all.2.1.map Prod.fst).Nodup → ∃ before l p after,
        all.2.1 = before ++ (l, p) :: after ∧ (before.map Prod.fst).Nodup ∧
        l ∈ before.map Prod.fst ∧ once.1 = .failed (.pathNotFound p.path) ∧ once.2.1 = before) := by
  intro all once
  rcases Walker.get_once_cases w hw hops root path w' hw' with
    ⟨hsame, hloads, hnodup⟩ | ⟨l, p, hfailed, hmet, hnodup, after, hagain⟩
  · exact ⟨iff_of_true hsame hnodup, fun _ => hloads, fun htwice => absurd hnodup htwice⟩
  · have hall : all.2.1 = once.2.1 ++ (l, p) :: after := by
      rw [← hagain, List.append_assoc]
      rfl
    have htwice : ¬ (all.2.1.map Prod.fst).Nodup := by
      rw [hall, List.map_append, List.nodup_append]
      exact fun h => h.2.2 l hmet l (by simp) rfl
    have hdiffer : once.1 ≠ all.1 := fun hsame =>
      Walker.notMem_of_get_found_nothing w hw hops root path hlink (hsame.symm.trans hfailed)
        ⟨after, hagain⟩ rfl hmet
    exact ⟨iff_of_false hdiffer htwice, fun h => absurd h htwice, fun _ =>
      ⟨once.2.1, l, p, after, hall, hnodup, hmet, hfailed, rfl⟩⟩

/-- The one path goes through the block once, the other a second time. -/
theorem get_once_two_paths :
    let store : BlockStore := ⟨[(⟨"x"⟩, .map [("a", .int 1), ("b", .link ⟨"x"⟩)])]⟩
    let get (once : Bool) (path : Path) :=
      ((Walker.new ⟨some store.loader, none, once⟩).get 1 (.link ⟨"x"⟩) path).1
    get true ⟨[.key "a"]⟩ = get false ⟨[.key "a"]⟩ ∧
      get true ⟨[.key "b", .key "a"]⟩ ≠ get false ⟨[.key "b", .key "a"]⟩ := by
  intro store get
  have hget :=
    get_once (.new ⟨some store.loader, none, false⟩) (.new ⟨some store.loader, none, true⟩)
    rfl rfl (store.answersByLink_loader none false) 1 (.link ⟨"x"⟩)
  exact ⟨(hget ⟨[.key "a"]⟩).1.2 (by decide), fun hsame =>
    absurd ((hget ⟨[.key "b", .key "a"]⟩).1.1 hsame) (by decide)⟩

/-- In the block that the path leads into there is the link that it came through. -/
theorem exists_get_once_pathNotFound :
    ∃ (store : BlockStore) (root : Node) (path : Path) (n : Node) (hops : Nat),
      ((Walker.new ⟨some store.loader, none, false⟩).get hops root path).1 = .found n ∧
        ((Walker.new ⟨some store.loader, none, true⟩).get hops root path).1 =
          .failed (.pathNotFound path) :=
  ⟨⟨[(⟨"x"⟩, .list [.link ⟨"x"⟩])]⟩, .link ⟨"x"⟩, ⟨[.key "0"]⟩, .list [.link ⟨"x"⟩], 1, rfl, rfl⟩

end DagSelect
