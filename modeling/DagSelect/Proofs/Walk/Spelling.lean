import DagSelect.Proofs.Path.Text
import DagSelect.Proofs.Selector.Interests
import DagSelect.Proofs.Walk.Locate

/-!
# Following a path that is read back

The path that is read from the text of a path has keys where that had indices. A key addresses what
its text does, so both lead to the same, step by step, through the same blocks and to the same
failures (`echoes_locate`). Only the loader can tell them apart, as it is told at which place a link
was found: `Config.toldKeys` tells it keys in any case, and is no change for one that does not look
(`Config.toldKeys_eq`).

So what can be read back from the text of a path leads where the path does (`get_ofText_text`),
unless the loader looks at how segments are spelled. Then it may lead elsewhere.
-/

namespace DagSelect

variable {σ τ α β γ δ : Type}

namespace Segment

/-- A segment that can be written down and its text as a key address the same child. -/
theorem Fits.get?_key_text {s : Segment} (hs : s.Fits) (n : Node) :
    n.get? (.key s.text) = n.get? s := by
  rw [Node.get?, Node.get?, Node.find?, Node.find?, Node.position?_key_text_of_fits hs]

end Segment

/-! ## The same steps at places that read alike -/

/-- One failure of following a path, whose path may be spelled otherwise. -/
inductive WalkError.ReadsAlike : WalkError → WalkError → Prop
  | following {e e' : WalkError} : e.Alike e' → ReadsAlike e e'
  | pathNotFound {p q : Path} : p.texts = q.texts → ReadsAlike (.pathNotFound p) (.pathNotFound q)

inductive Halt.Alike : Halt → Halt → Prop
  | failed {e e' : WalkError} : e.ReadsAlike e' → Alike (.failed e) (.failed e')
  | outOfHops : Alike .outOfHops .outOfHops

namespace Action

variable {same : α → β → Prop} {same' : γ → δ → Prop}

/-- The two steps have come to values that `same` relates, and may still load the same, or to
failures that read alike. -/
inductive EchoesTo (same : α → β → Prop) :
    EStateM.Result Halt (Run σ) α → EStateM.Result Halt (Run τ) β → Prop
  | ok {a : α} {b : β} {run : Run σ} {run' : Run τ} (values : same a b) (alike : run.Alike run') :
      EchoesTo same (.ok a run) (.ok b run')
  | error {halt halt' : Halt} (alike : halt.Alike halt') (run : Run σ) (run' : Run τ) :
      EchoesTo same (.error halt run) (.error halt' run')

/-- As long as they may load the same, the two steps come to the same. -/
def Echoes (same : α → β → Prop) (x : Action σ α) (y : Action τ β) : Prop :=
  ∀ run run', run.Alike run' → EchoesTo same (x run) (y run')

theorem echoes_pure {a : α} {b : β} (h : same a b) :
    Echoes (σ := σ) (τ := τ) same (pure a) (pure b) :=
  fun _ _ hruns => .ok h hruns

theorem echoes_throw {halt halt' : Halt} (h : halt.Alike halt') :
    Echoes (σ := σ) (τ := τ) same (throw halt) (throw halt') :=
  fun run run' _ => .error h run run'

theorem Echoes.bind {x : Action σ α} {y : Action τ β} {f : α → Action σ γ} {g : β → Action τ δ}
    (hx : Echoes same x y) (hnext : ∀ a b, same a b → Echoes same' (f a) (g b)) :
    Echoes same' (x >>= f) (y >>= g) := by
  intro run run' hruns
  have h := hx run run' hruns
  rw [bind_run, bind_run]
  generalize x run = ended, y run' = ended' at h
  cases h with
  | ok values alike => exact hnext _ _ values _ _ alike
  | error alike last last' => exact .error alike last last'

theorem load_congr {loader loader' : Loader} {l : Link} {p : Progress}
    (h : loader l p = loader' l p) (once : Bool) :
    load (σ := σ) once loader l p = load once loader' l p := by
  simp only [load, h]

theorem echoes_load {loader loader' : Loader} {l : Link} {p q : Progress} (hplace : p.Alike q)
    (hanswer : loader l p = loader' l q) (once : Bool) :
    Echoes (σ := σ) (τ := τ) Eq (load once loader l p) (load once loader' l q) := by
  intro run run' hruns
  -- Each loader is asked once, so it might as well give that answer always.
  let always : Loader := fun _ _ => loader l p
  have hfirst : load (σ := σ) once loader l p = load once always l p := load_congr rfl once
  have hsecond : load (σ := τ) once loader' l q = load once always l q :=
    load_congr hanswer.symm once
  have h : LoadsAlike run' (load once always l p run) (load once always l q run') :=
    loadsAlike hruns hplace rfl once
  rw [hfirst, hsecond]
  generalize load once always l p run = ended, load once always l q run' = ended' at h
  cases h with
  | ok alike _ => exact .ok rfl alike
  | error alike _ => exact .error (.failed (.following alike)) _ _

end Action

open DagSelect.Action

/-! ## Telling a loader keys -/

namespace Progress

def asKeys (p : Progress) : Progress where
  path := p.path.asKeys
  lastCrossing := p.lastCrossing.map fun c => ⟨c.path.asKeys, c.link⟩
  crossings := p.crossings

theorem alike_asKeys (p : Progress) : p.asKeys.Alike p where
  path := p.path.texts_asKeys
  lastCrossing := by
    rw [asKeys, Option.map_map]
    congr 1
    funext c
    simp only [Function.comp, Path.texts_asKeys]
  crossings := rfl

theorem asKeys_push (p : Progress) (s : Segment) :
    (p.push s).asKeys = p.asKeys.push (.key s.text) := by
  simp [asKeys, push, Path.asKeys, Path.push]

end Progress

/-- The same settings, but the loader is told every place as if its segments were keys. -/
def Config.toldKeys (config : Config) : Config :=
  { config with loader := config.loader.map fun loader l p => loader l p.asKeys }

section

variable {config : Config}

theorem Config.stands_toldKeys_iff {n : Node} : config.toldKeys.Stands n ↔ config.Stands n := by
  simp [Stands, toldKeys]

/-- It makes no difference to a loader that does not look at how segments are spelled. -/
theorem Config.toldKeys_eq (h : config.AnswersAlike) : config.toldKeys = config := by
  obtain ⟨loader, budget, once⟩ := config
  cases loader with
  | none => rfl
  | some loader =>
    have hsame : (fun l p => loader l p.asKeys) = loader :=
      funext fun l => funext fun p => h loader rfl l _ _ p.alike_asKeys
    rw [toldKeys, Option.map_some, hsame]

theorem Config.loader_toldKeys {loader : Loader} (h : config.loader = some loader) :
    config.toldKeys.loader = some fun l p => loader l p.asKeys := by
  rw [toldKeys, h]
  rfl

/-- One node, at a place and at the same place spelled in keys. -/
inductive AsKeys : Progress × Node → Progress × Node → Prop
  | intro (p : Progress) (n : Node) : AsKeys (p.asKeys, n) (p, n)

theorem echoes_resolve (hops : Nat) (p : Progress) (n : Node) :
    Echoes (σ := σ) (τ := τ) AsKeys (resolve config hops p.asKeys n)
      (resolve config.toldKeys hops p n) := by
  refine resolve_rec (P := fun hops q n x => ∀ p : Progress, q = p.asKeys →
    Echoes AsKeys x (resolve config.toldKeys hops p n)) ?_ ?_ ?_ hops p.asKeys n p rfl
  · rintro hops _ n h p rfl
    rw [resolve_of_stands (Config.stands_toldKeys_iff.2 h)]
    exact echoes_pure (.intro p n)
  · rintro loader _ l hloader p rfl
    rw [resolve_zero_link (Config.loader_toldKeys hloader)]
    exact echoes_throw .outOfHops
  · rintro loader hops _ l hloader ih p rfl
    rw [resolve_succ_link (Config.loader_toldKeys hloader)]
    refine (echoes_load p.alike_asKeys rfl config.once).bind ?_
    rintro found _ rfl
    cases found with
    | none => exact echoes_throw (.failed (.pathNotFound p.path.texts_asKeys))
    | some block => exact ih block (p.cross l) rfl

/-- A path spelled in keys leads to the same. -/
theorem echoes_locate (hops : Nat) (p : Progress) (n : Node) {segments : List Segment}
    (hfits : ∀ s ∈ segments, s.Fits) :
    Echoes (σ := σ) (τ := τ) AsKeys
      (locate config hops p.asKeys n (segments.map fun s => .key s.text))
      (locate config.toldKeys hops p n segments) := by
  induction segments generalizing p n with
  | nil => exact echoes_resolve hops p n
  | cons s segments ih =>
    obtain ⟨hs, hrest⟩ := List.forall_mem_cons.1 hfits
    rw [List.map_cons, locate_cons, locate_cons]
    refine (echoes_resolve hops p n).bind ?_
    rintro _ _ ⟨r, m⟩
    simp only [hs.get?_key_text, ← r.asKeys_push]
    cases m.get? s with
    | none => exact echoes_throw (.failed (.pathNotFound (r.push s).path.texts_asKeys))
    | some child => exact ih (r.push s) child hrest

end

/-! ## Paths that are read back -/

/-- Two searches gave one result, or failed alike, or neither came to an end. -/
inductive Found.Alike : Found α → Found α → Prop
  | found (a : α) : Alike (.found a) (.found a)
  | failed {e e' : WalkError} : e.ReadsAlike e' → Alike (.failed e) (.failed e')
  | unfinished : Alike .unfinished .unfinished

theorem Walker.get_asKeys (w : Walker) (hops : Nat) (root : Node) {p : Path}
    (hfits : ∀ s ∈ p.segments, s.Fits) :
    (w.get hops root p.asKeys).1.Alike ((Walker.new w.config.toldKeys).get hops root p).1 := by
  simp only [get, focus_eq]
  have hruns : ((new w.config).begin ()).Alike ((new w.config.toldKeys).begin ()) := ⟨rfl, rfl⟩
  have hlocate : EchoesTo AsKeys
      (locate w.config hops .start root p.asKeys.segments ((new w.config).begin ()))
      (locate w.config.toldKeys hops .start root p.segments
        ((new w.config.toldKeys).begin ())) :=
    echoes_locate hops .start root hfits _ _ hruns
  rw [show (new w.config.toldKeys).config = w.config.toldKeys from rfl]
  generalize locate w.config hops .start root p.asKeys.segments _ = ended,
    locate w.config.toldKeys hops .start root p.segments _ = ended' at hlocate
  cases hlocate with
  | ok values _ =>
    obtain ⟨q, n⟩ := values
    exact .found n
  | error alike _ _ =>
    cases alike with
    | failed h => exact .failed h
    | outOfHops => exact .unfinished

/-- The text of a path is read as the same segments exactly when each of them can stand between two
slashes. Then the path that is read leads to the same as the path itself, whatever it is followed
through, as long as the loader does not look at how segments are spelled. A path that was read from
a text is always read from its own text again. -/
theorem get_ofText_text :
    (∀ p : Path, (Path.ofText p.text).texts = p.texts ↔
      ∀ s ∈ p.segments, s.text ≠ "" ∧ '/' ∉ s.text.toList) ∧
    (∀ (w : Walker) (p : Path), (∀ s ∈ p.segments, s.Fits) →
      (∀ s ∈ p.segments, s.text ≠ "" ∧ '/' ∉ s.text.toList) → ∀ (hops : Nat) (root : Node),
        (w.get hops root (Path.ofText p.text)).1.Alike
          ((Walker.new w.config.toldKeys).get hops root p).1 ∧
        (w.config.AnswersAlike →
          (w.get hops root (Path.ofText p.text)).1.Alike (w.get hops root p).1)) ∧
    ∀ text : String, Path.ofText (Path.ofText text).text = Path.ofText text := by
  refine ⟨Path.texts_ofText_text_iff, ?_, Path.ofText_text_ofText⟩
  intro w p hfits hread hops root
  rw [Path.ofText_text hread]
  have h := Walker.get_asKeys w hops root hfits
  refine ⟨h, fun hanswers => ?_⟩
  rw [Config.toldKeys_eq hanswers] at h
  exact h

/-- A path through a link, with an index and a key that is one too, and a path that leads
nowhere. -/
theorem get_ofText_text_through_link :
    let store : BlockStore := ⟨[(⟨"x"⟩, .list [.null, .null, .string "here"])]⟩
    let root : Node := .map [("a", .list [.null, .link ⟨"x"⟩])]
    let w := Walker.new ⟨some store.loader, some ⟨0, 1⟩, true⟩
    let p : Path := ⟨[.key "a", .index 1, .key "+2"]⟩
    let q : Path := ⟨[.key "a", .index (-1)]⟩
    (w.get 1 root p).1 = .found (.string "here") ∧
      (w.get 1 root (Path.ofText p.text)).1.Alike (.found (.string "here")) ∧
      (w.get 1 root q).1 = .failed (.pathNotFound q) ∧
      (w.get 1 root (Path.ofText q.text)).1.Alike (.failed (.pathNotFound q)) := by
  intro store root w p q
  have hp : (w.get 1 root p).1 = .found (.string "here") := rfl
  have hq : (w.get 1 root q).1 = .failed (.pathNotFound q) := rfl
  have hfits : ∀ s ∈ p.segments ++ q.segments, s.Fits := by
    simp only [p, q, List.cons_append, List.nil_append, List.forall_mem_cons]
    exact ⟨trivial, ⟨1, rfl⟩, trivial, trivial, ⟨-1, rfl⟩, List.forall_mem_nil _⟩
  have hpieces : ∀ s ∈ p.segments ++ q.segments, s.text ≠ "" ∧ '/' ∉ s.text.toList := by
    decide
  have hanswers : w.config.AnswersAlike := store.answersAlike_loader _ _
  have hread (r : Path) (hr : ∀ s ∈ r.segments, s ∈ p.segments ++ q.segments) :
      (w.get 1 root (Path.ofText r.text)).1.Alike (w.get 1 root r).1 :=
    (get_ofText_text.2.1 w r (fun s hs => hfits s (hr s hs)) (fun s hs => hpieces s (hr s hs)) 1
      root).2 hanswers
  refine ⟨hp, ?_, hq, ?_⟩
  · rw [← hp]
    exact hread p fun s hs => List.mem_append_left _ hs
  · rw [← hq]
    exact hread q fun s hs => List.mem_append_right _ hs

/-- A loader that looks at how segments are spelled. It is told an index, and a key when the path
has been read back. -/
theorem exists_get_ofText_text_astray :
    let loader : Loader := fun _ p => .ok (.bool (p.path = ⟨[.index 0]⟩))
    let w := Walker.new ⟨some loader, none, false⟩
    let root : Node := .list [.link ⟨"x"⟩]
    let p : Path := ⟨[.index 0]⟩
    (∀ s ∈ p.segments, s.Fits ∧ s.text ≠ "" ∧ '/' ∉ s.text.toList) ∧
      (w.get 1 root p).1 = .found (.bool true) ∧
      (w.get 1 root (Path.ofText p.text)).1 = .found (.bool false) := by
  intro loader w root p
  have hread : Path.ofText p.text = ⟨[.key "0"]⟩ := by decide
  refine ⟨?_, rfl, ?_⟩
  · simp only [p, List.forall_mem_singleton]
    exact ⟨⟨0, rfl⟩, by decide⟩
  · rw [hread]
    rfl

end DagSelect
