import DagSelect.Proofs.DagJson.Image
import DagSelect.Proofs.Walk.Steps
import DagSelect.Proofs.Selector.Interests

/-!
# Pruning never changes a walk

A walk that looks up the children its selector lists does what the walk does that tries every
child. The two differ in `Pruning` only, the parameter that names the children to be tried, and two
prunings give one and the same walk as soon as they try the same children among those that are
explored at all (`walkPruned_congr`).

Lookup by key finds the first entry with that key. So in a map that is pruned, an entry whose key
has occurred before is never tried, and the walk to compare with is `Pruning.exceptRepeats`. Where
keys are distinct it is the walk of the whole, `Pruning.whole`.
-/

namespace DagSelect

variable {σ : Type}

/-! ## Picked elements -/

def isPicked (picks : Option (List Nat)) (i : Nat) : Bool := picks.all (·.contains i)

theorem isPicked_some_iff (positions : List Nat) (i : Nat) :
    isPicked (some positions) i = true ↔ i ∈ positions := by
  rw [isPicked, Option.all_some, List.contains_iff_mem]

theorem keepPicked_eq_filter {α : Type} (picks : Option (List Nat)) (xs : List α) :
    keepPicked picks xs = (xs.zipIdx.filter fun e => isPicked picks e.2).map Prod.fst := by
  cases picks with
  | none =>
    have hall : (xs.zipIdx.filter fun e => isPicked none e.2) = xs.zipIdx :=
      List.filter_eq_self.2 fun _ _ => rfl
    rw [hall, List.zipIdx_map_fst, keepPicked]
  | some positions => rfl

theorem mem_of_mem_keepPicked {α : Type} {picks : Option (List Nat)} {xs : List α} {x : α}
    (hx : x ∈ keepPicked picks xs) : x ∈ xs := by
  rw [keepPicked_eq_filter] at hx
  obtain ⟨e, he, rfl⟩ := List.mem_map.1 hx
  exact List.fst_mem_of_mem_zipIdx (List.mem_filter.1 he).1

/-- Two picks keep the same elements when they agree on the positions of these elements. -/
theorem filter_keepPicked_congr {α : Type} {ps qs : Option (List Nat)} {keep : α → Bool}
    {xs : List α}
    (h : ∀ i x, xs[i]? = some x → keep x = true → isPicked ps i = isPicked qs i) :
    (keepPicked ps xs).filter keep = (keepPicked qs xs).filter keep := by
  simp only [keepPicked_eq_filter, List.filter_map, List.filter_filter]
  congr 1
  apply List.filter_congr
  rintro ⟨x, i⟩ hx
  simp only [Function.comp_apply]
  cases hk : keep x with
  | false => rfl
  | true => rw [h i x (List.mk_mem_zipIdx_iff_getElem?.1 hx) hk]

/-! ## The prunings compared -/

namespace Pruning

def whole : Pruning := fun _ _ => none

def firstPositions (entries : List (String × Node)) : List Nat :=
  (entries.zipIdx.filter fun e => (entries.take e.2).all fun f => f.1 != e.1.1).map Prod.snd

/-- Every child is tried, but in a map for which a selector lists fewer segments than there are
entries, the entries are left out whose key has occurred before. -/
def exceptRepeats : Pruning := fun s n =>
  match n with
  | .map entries =>
    match s.interests? entries.length with
    | some segments =>
      if segments.length < entries.length then some (firstPositions entries) else none
    | none => none
  | _ => none

def explored (prune : Pruning) (s : Selector) (n : Node) : List (Segment × Node) :=
  (keepPicked (prune s n) n.children).filter fun e => (s.explore? n e.1).isSome

theorem mem_children_of_mem_explored {prune : Pruning} {s : Selector} {n : Node}
    {e : Segment × Node} (he : e ∈ explored prune s n) : e ∈ n.children :=
  mem_of_mem_keepPicked (List.mem_filter.1 he).1

theorem mem_firstPositions_iff {entries : List (String × Node)} {i : Nat} {e : String × Node}
    (he : entries[i]? = some e) :
    i ∈ firstPositions entries ↔ ∀ f ∈ entries.take i, f.1 ≠ e.1 := by
  simp only [firstPositions, List.mem_map, List.mem_filter, List.mem_zipIdx_iff_getElem?,
    List.all_eq_true, bne_iff_ne]
  constructor
  · rintro ⟨⟨f, j⟩, ⟨hf, hnew⟩, rfl⟩
    rw [he, Option.some.injEq] at hf
    subst hf
    exact hnew
  · intro hnew
    exact ⟨(e, i), ⟨he, hnew⟩, rfl⟩

/-- Lookup by key finds the entries whose key has not occurred before, and no others. -/
theorem mem_firstPositions_iff_position? {entries : List (String × Node)} {i : Nat}
    {e : String × Node} (he : entries[i]? = some e) :
    i ∈ firstPositions entries ↔ (Node.map entries).position? (.key e.1) = some i := by
  obtain ⟨hi, rfl⟩ := List.getElem?_eq_some_iff.1 he
  rw [mem_firstPositions_iff he, Node.position?, List.findIdx?_eq_some_iff_getElem]
  simp only [Segment.text_key, beq_self_eq_true, true_and, hi, exists_true_left, beq_iff_eq]
  constructor
  · intro hnew j hj
    exact hnew _ (List.mem_take_iff_getElem.2 ⟨j, by omega, rfl⟩)
  · intro hnew f hf
    obtain ⟨j, hj, rfl⟩ := List.mem_take_iff_getElem.1 hf
    exact hnew j (by omega)

end Pruning

/-! ## Which children are explored -/

theorem Selector.position?_of_mem_picks? {s : Selector} {n : Node} {positions : List Nat}
    (hp : s.picks? n = some positions) {i : Nat} (hi : i ∈ positions) :
    ∃ t, n.position? t = some i := by
  unfold Selector.picks? at hp
  split at hp
  · rw [Option.ite_none_right_eq_some, Option.some.injEq] at hp
    obtain ⟨-, rfl⟩ := hp
    obtain ⟨t, -, ht⟩ := List.mem_filterMap.1 hi
    exact ⟨t, ht⟩
  · cases hp

namespace Node

theorem getElem?_children_map {entries : List (String × Node)} {i : Nat} {t : Segment} {c : Node}
    (h : (Node.map entries).children[i]? = some (t, c)) :
    ∃ e, entries[i]? = some e ∧ t = .key e.1 := by
  simp only [children, List.getElem?_map, Option.map_eq_some_iff, Prod.mk.injEq] at h
  obtain ⟨e, he, rfl, -⟩ := h
  exact ⟨e, he, rfl⟩

theorem getElem?_children_list {items : List Node} {i : Nat} {t : Segment} {c : Node}
    (h : (Node.list items).children[i]? = some (t, c)) : t = .index i ∧ i < items.length := by
  simp only [children, List.getElem?_map, List.getElem?_zipIdx, Option.map_map,
    Option.map_eq_some_iff, Function.comp_apply, Prod.mk.injEq] at h
  obtain ⟨x, hx, rfl, -⟩ := h
  exact ⟨by simp, (List.getElem?_eq_some_iff.1 hx).1⟩

/-- A segment addresses an entry of a map by its key. -/
theorem text_of_position? {entries : List (String × Node)} {i : Nat} {e : String × Node}
    (he : entries[i]? = some e) {t : Segment} (ht : (Node.map entries).position? t = some i) :
    t.text = e.1 := by
  obtain ⟨hi, rfl⟩ := List.getElem?_eq_some_iff.1 he
  rw [position?, List.findIdx?_eq_some_iff_getElem] at ht
  obtain ⟨_, heq, -⟩ := ht
  exact (beq_iff_eq.1 heq).symm

end Node

namespace Pruning

/-- A map is pruned of its repeats exactly where the selector looks children up. -/
theorem exceptRepeats_map (s : Selector) (entries : List (String × Node)) :
    exceptRepeats s (.map entries) =
      (s.picks? (.map entries)).map fun _ => firstPositions entries := by
  simp only [exceptRepeats, Selector.picks?, Node.length]
  cases s.interests? entries.length with
  | none => rfl
  | some segments =>
    by_cases short : segments.length < entries.length
    · simp [short]
    · simp [short]

theorem isPicked_picks?_of_explore? {s : Selector} {n : Node} (hn : n.ItemsIndexed) {t : Segment}
    {i : Nat} (ht : n.position? t = some i) (hs : (s.explore? n t).isSome = true) :
    isPicked (s.picks? n) i = true := by
  obtain ⟨next, hnext⟩ := Option.isSome_iff_exists.1 hs
  unfold Selector.picks?
  split
  · next segments hl =>
    split
    · obtain ⟨u, hu, hi⟩ :=
        Selector.exists_interest_of_explore? ht (Node.position?_key_text hn ht) s hnext hl
      exact (isPicked_some_iff _ _).2 (List.mem_filterMap.2 ⟨u, hu, hi⟩)
    · rfl
  · rfl

/-- Looking up what a selector lists leaves out of the explored children the repeats in a map, and
nothing else. -/
theorem explored_picks? {s : Selector} {n : Node} (hn : n.ItemsIndexed) :
    explored Selector.picks? s n = explored exceptRepeats s n := by
  apply filter_keepPicked_congr
  rintro i ⟨t, c⟩ hc hs
  cases n with
  | map entries =>
    obtain ⟨e, he, rfl⟩ := Node.getElem?_children_map hc
    have hpick : (Node.map entries).position? (.key e.1) = some i →
        isPicked (s.picks? (.map entries)) i = true :=
      fun hi => isPicked_picks?_of_explore? hn hi hs
    rw [exceptRepeats_map]
    cases hp : s.picks? (.map entries) with
    | none => rfl
    | some positions =>
      rw [hp] at hpick
      rw [Option.map_some, Bool.eq_iff_iff, isPicked_some_iff, isPicked_some_iff,
        mem_firstPositions_iff_position? he]
      constructor
      · intro hi
        obtain ⟨u, hu⟩ := Selector.position?_of_mem_picks? hp hi
        rw [← Node.text_of_position? he hu]
        exact hu
      · intro hi
        exact (isPicked_some_iff _ _).1 (hpick hi)
  | list items =>
    obtain ⟨rfl, hi⟩ := Node.getElem?_children_list hc
    exact isPicked_picks?_of_explore? hn (Node.position?_list_eq_some_iff.2 ⟨rfl, hi⟩) hs
  | _ => simp [Node.children] at hc

/-- Where keys are distinct there are no repeats to leave out. -/
theorem explored_exceptRepeats {s : Selector} {n : Node} (hn : n.KeysDiffer) :
    explored exceptRepeats s n = explored whole s n := by
  apply filter_keepPicked_congr
  rintro i ⟨t, c⟩ hc -
  cases n with
  | map entries =>
    obtain ⟨e, he, rfl⟩ := Node.getElem?_children_map hc
    have hfirst : i ∈ firstPositions entries := by
      obtain ⟨hi, rfl⟩ := List.getElem?_eq_some_iff.1 he
      rw [mem_firstPositions_iff he]
      intro f hf
      obtain ⟨j, hj, rfl⟩ := List.mem_take_iff_getElem.1 hf
      have hd := List.pairwise_iff_getElem.1 hn j i (by simp; omega) (by simpa using hi) (by omega)
      simpa using hd
    rw [exceptRepeats_map, whole]
    cases s.picks? (.map entries) with
    | none => rfl
    | some positions => exact (isPicked_some_iff _ _).2 hfirst
  | _ => rfl

end Pruning

/-! ## Walks that explore the same children -/

section Congruence

variable {p q : Pruning} {P : Node → Prop}

/-- A walk of a block depends on its pruning only through the children explored. -/
theorem walkBlock_eq_explored (prune : Pruning) (visitor : Visitor σ) (follow : Follow σ) (n : Node)
    (place : Progress) (s : Selector) :
    walkBlock prune visitor follow n place s = (do
      Action.visit visitor ⟨place, n, s.reason⟩
      (Pruning.explored prune s n).forM fun e =>
        match s.explore? n e.1 with
        | none => pure ()
        | some next => enter prune visitor follow e.2 (place.push e.1) next) := by
  rw [walkBlock_eq]
  congr 1
  funext _
  refine (forM_filter ?_).symm
  intro e he
  rw [Option.isSome_eq_false_iff, Option.isNone_iff_eq_none] at he
  rw [he]

theorem walkBlock_congr (hpq : ∀ s n, P n → p.explored s n = q.explored s n) (visitor : Visitor σ)
    (follow : Follow σ) {n : Node} (hn : n.Everywhere P) (place : Progress) (s : Selector) :
    walkBlock p visitor follow n place s = walkBlock q visitor follow n place s := by
  induction hn generalizing place s with
  | @intro n here _ ih =>
    rw [walkBlock_eq_explored, walkBlock_eq_explored, hpq s n here]
    congr 1
    funext _
    apply forM_congr
    intro e he
    have hchild := Pruning.mem_children_of_mem_explored he
    cases s.explore? n e.1 with
    | none => rfl
    | some next =>
      simp only [enter]
      cases e.2.link? with
      | some l => rfl
      | none => exact ih e hchild _ _

/-- So do walks through links, as long as every block that is loaded is one on which the prunings
agree. -/
theorem follow_congr (hpq : ∀ s n, P n → p.explored s n = q.explored s n)
    (hlink : ∀ l, P (.link l)) {config : Config} (hc : config.Serves (Node.Everywhere P))
    (visitor : Visitor σ) (hops : Nat) :
    follow p config visitor hops = follow q config visitor hops := by
  induction hops with
  | zero =>
    funext l place s
    unfold follow
    cases config.loader with
    | none => exact walkBlock_congr hpq _ _ (.leaf rfl (hlink l)) _ _
    | some loader => rfl
  | succ hops ih =>
    funext l place s
    unfold follow
    cases hl : config.loader with
    | none => exact walkBlock_congr hpq _ _ (.leaf rfl (hlink l)) _ _
    | some loader =>
      apply Action.load_bind_congr
      · rfl
      · intro block hb
        simp only [ih]
        exact walkBlock_congr hpq _ _ (hc loader hl l place block hb) _ _

theorem walkPruned_congr (hpq : ∀ s n, P n → p.explored s n = q.explored s n)
    (hlink : ∀ l, P (.link l)) (w : Walker) (hc : w.config.Serves (Node.Everywhere P)) (hops : Nat)
    {root : Node} (hroot : root.Everywhere P) (s : Selector) (visitor : Visitor σ) (state : σ) :
    w.walkPruned p hops root s visitor state = w.walkPruned q hops root s visitor state := by
  have henter : enter p visitor (follow p w.config visitor hops) root .start s =
      enter q visitor (follow q w.config visitor hops) root .start s := by
    rw [follow_congr hpq hlink hc]
    simp only [enter]
    cases root.link? with
    | some l => rfl
    | none => exact walkBlock_congr hpq _ _ hroot _ _
  simp only [Walker.walkPruned, Walker.reset, Walker.new, henter]

end Congruence

/-- Walks of documents that repeat no key try every child there is. -/
theorem Walker.walk_eq_whole {w : Walker} (hkeys : w.config.Serves Node.DistinctKeys)
    (haddress : w.config.Serves Node.Addressable) (hops : Nat) {root : Node}
    (hroot : root.DistinctKeys) (hroot' : root.Addressable) (s : Selector) (visitor : Visitor σ)
    (state : σ) :
    w.walk hops root s visitor state = w.walkPruned Pruning.whole hops root s visitor state := by
  have hwhole : ∀ s n, Node.KeysDiffer n ∧ Node.ItemsIndexed n →
      Pruning.explored Selector.picks? s n = Pruning.explored Pruning.whole s n := fun s n hn =>
    (Pruning.explored_picks? hn.2).trans (Pruning.explored_exceptRepeats hn.1)
  exact walkPruned_congr hwhole (fun _ => ⟨trivial, trivial⟩) w
    (fun loader hloader l p block hblock => (hkeys loader hloader l p block hblock).and
      (haddress loader hloader l p block hblock)) hops (hroot.and hroot') s visitor state

/-- Looking up what a selector lists gives the same run, loads and visits and outcome alike, as
trying every child of every container, repeats in pruned maps excepted. Where no map repeats a key
there is no exception, and no document that was read repeats one. -/
theorem walk_eq_walkPruned :
    (∀ (σ : Type) (w : Walker) (hops : Nat) (root : Node) (s : Selector) (visitor : Visitor σ)
      (state : σ), root.Addressable → w.config.Serves Node.Addressable →
        w.walk hops root s visitor state =
            w.walkPruned Pruning.exceptRepeats hops root s visitor state ∧
          (root.DistinctKeys → w.config.Serves Node.DistinctKeys →
            w.walk hops root s visitor state =
              w.walkPruned Pruning.whole hops root s visitor state)) ∧
      ∀ source n, DagJson.decode source = .ok n → n.DistinctKeys := by
  constructor
  · intro σ w hops root s visitor state hroot hblocks
    have hrepeats := walkPruned_congr (fun s n hn => Pruning.explored_picks? hn)
      (fun _ => trivial) w hblocks hops hroot s visitor state
    constructor
    · exact hrepeats
    · intro hdistinct hserves
      apply hrepeats.trans
      exact walkPruned_congr (fun s n hn => Pruning.explored_exceptRepeats hn) (fun _ => trivial) w
        hserves hops hdistinct s visitor state
  · intro source n h
    exact (Node.written_iff.1 (DagJson.written_of_decode h)).1

/-- A map with a repeated key, reached through a link and pruned there. -/
theorem walk_eq_walkPruned_repeated_key :
    let block : Node := .map [("a", .int 1), ("b", .list [.null]), ("a", .int 2)]
    let config : Config := ⟨some (BlockStore.ofList [(⟨"x"⟩, block)]).loader, none, true⟩
    let selector : Selector := .fields [("a", .matcher)]
    (Walker.new config).walk 1 (.link ⟨"x"⟩) selector .onlooker () =
      (Walker.new config).walkPruned Pruning.exceptRepeats 1
      (.link ⟨"x"⟩) selector .onlooker () := by
  intro block config selector
  refine (walk_eq_walkPruned.1 Unit (.new config) 1 _ selector _ () ?_ ?_).1
  · decide
  · refine BlockStore.serves_loader _ ?_ _ _
    intro b hb
    rw [List.mem_singleton.1 hb]
    exact (by decide : block.Addressable)

/-- Without the exception the second entry with the key is visited too. -/
example :
    let n : Node := .map [("a", .int 1), ("b", .null), ("a", .int 2)]
    let visits (prune : Pruning) :=
      ((Walker.new .plain).walkPruned prune 0 n (.fields [("a", .matcher)]) .onlooker ()).1.visits
    (visits Pruning.exceptRepeats).length = 2 ∧ (visits Pruning.whole).length = 3 := by
  decide

end DagSelect
