import DagSelect.Json.Tree
import Mathlib.Data.List.Basic
import Mathlib.Tactic.SplitIfs

/-!
# Trees and the tokens they were put together from

A token does not see beyond the innermost container that is open (`step?_splice`). So every
container could have been put together alone, from its own tokens, and so could every value in it: a
part of a tree is the tree of a run of its tokens, and its place is from the first to the last of
these (`stands_of_trees?`).
-/

namespace DagSelect.Json

/-! ## Parts -/

def Key.lexeme (k : Key) : Lexeme := ⟨.atom (.string k.literal), k.span⟩

namespace Tree

/-- The tree is itself, or contains somewhere, the other. -/
inductive Has : Tree → Tree → Prop
  | self (t : Tree) : Has t t
  | item {items : List Tree} {span : Span} {t u : Tree} :
      t ∈ items → t.Has u → Has (.array items span) u
  | value {entries : List (Key × Tree)} {span : Span} {e : Key × Tree} {u : Tree} :
      e ∈ entries → e.2.Has u → Has (.object entries span) u

theorem Has.trans {t u v : Tree} (htu : t.Has u) (huv : u.Has v) : t.Has v := by
  induction htu with
  | self t => exact huv
  | item hmem _ ih => exact .item hmem (ih huv)
  | value hmem _ ih => exact .value hmem (ih huv)

/-- The tokens whose text the tree keeps, those of its parts left out. -/
def ownLexemes : Tree → List Lexeme
  | .atom a span => [⟨.atom a, span⟩]
  | .array _ _ => []
  | .object entries _ => entries.map fun e => e.1.lexeme

/-- The tree was put together from a run of the tokens. -/
structure Stands (lexemes : List Lexeme) (t : Tree) : Prop where
  /-- The run alone gives this tree, which reaches from its first to its last token. -/
  alone : ∃ before mid behind first last, lexemes = before ++ mid ++ behind ∧
    mid.head? = some first ∧ mid.getLast? = some last ∧
    t.span = ⟨first.span.start, last.span.stop⟩ ∧ trees? mid = some [t]
  own : ∀ l ∈ t.ownLexemes, l ∈ lexemes

/-- The tree and all its parts were put together from the tokens. -/
def StandsWhole (lexemes : List Lexeme) (t : Tree) : Prop := ∀ u, t.Has u → u.Stands lexemes

variable {lexemes : List Lexeme} {t : Tree}

theorem Stands.append (h : t.Stands lexemes) (l : Lexeme) : t.Stands (lexemes ++ [l]) := by
  obtain ⟨⟨before, mid, behind, first, last, rfl, h⟩, hown⟩ := h
  exact ⟨⟨before, mid, behind ++ [l], first, last, List.append_assoc _ _ _, h⟩,
    fun x hx => List.mem_append_left _ (hown x hx)⟩

theorem StandsWhole.append (h : t.StandsWhole lexemes) (l : Lexeme) :
    t.StandsWhole (lexemes ++ [l]) :=
  fun u hu => (h u hu).append l

theorem standsWhole_atom {a : Atom} {l : Lexeme} (hl : l.token = .atom a) :
    (atom a l.span).StandsWhole (lexemes ++ [l]) := by
  rintro u ⟨⟩
  obtain ⟨token, span⟩ := l
  obtain rfl : token = .atom a := hl
  refine ⟨⟨lexemes, [_], [], _, _, (List.append_nil _).symm, rfl, rfl, rfl, ?_⟩, ?_⟩
  · rfl
  · intro x hx
    exact List.mem_append_right _ hx

end Tree

/-! ## Containers that are open -/

namespace Frame

def start : Frame → Nat
  | .array start _ | .object start _ | .entry start _ _ => start

def parts : Frame → List Tree
  | .array _ items => items
  | .object _ entries | .entry _ entries _ => entries.map Prod.snd

def keys : Frame → List Key
  | .array _ _ => []
  | .object _ entries => entries.map Prod.fst
  | .entry _ entries key => key :: entries.map Prod.fst

def close? (stop : Nat) : Frame → Option Tree
  | .array start items => some (.array items.reverse ⟨start, stop⟩)
  | .object start entries => some (.object entries.reverse ⟨start, stop⟩)
  | .entry _ _ _ => none

variable {f : Frame} {stop : Nat} {t : Tree}

theorem span_of_close? (h : f.close? stop = some t) : t.span = ⟨f.start, stop⟩ := by
  cases f with
  | array start items => cases h; rfl
  | object start entries => cases h; rfl
  | entry start entries key => cases h

theorem has_of_close? (h : f.close? stop = some t) {u : Tree} (hu : t.Has u) :
    u = t ∨ ∃ p ∈ f.parts, p.Has u := by
  cases f with
  | array start items =>
    cases h
    cases hu with
    | self => exact .inl rfl
    | item hmem hu => exact .inr ⟨_, List.mem_reverse.1 hmem, hu⟩
  | object start entries =>
    cases h
    cases hu with
    | self => exact .inl rfl
    | value hmem hu => exact .inr ⟨_, List.mem_map_of_mem (List.mem_reverse.1 hmem), hu⟩
  | entry start entries key => cases h

theorem ownLexemes_of_close? (h : f.close? stop = some t) {l : Lexeme} (hl : l ∈ t.ownLexemes) :
    ∃ k ∈ f.keys, l = k.lexeme := by
  cases f with
  | array start items =>
    cases h
    cases hl
  | object start entries =>
    cases h
    obtain ⟨e, he, rfl⟩ := List.mem_map.1 hl
    exact ⟨e.1, List.mem_map_of_mem (List.mem_reverse.1 he), rfl⟩
  | entry start entries key => cases h

/-- Everything in the container was put together from the tokens. -/
structure Holds (lexemes : List Lexeme) (f : Frame) : Prop where
  parts : ∀ t ∈ f.parts, t.StandsWhole lexemes
  keys : ∀ k ∈ f.keys, k.lexeme ∈ lexemes

end Frame

namespace Builder

/-! ## What one token does -/

/-- Continues a state in which some containers are open inside others; a value that is complete goes
there. -/
def splice? (outer : List Frame) (values : List Tree) (b : Builder) : Option Builder :=
  match b.values with
  | [] => some ⟨b.stack ++ outer, values, b.awaited⟩
  | t :: _ => (⟨outer, values, .value⟩ : Builder).place? t

variable {outer : List Frame} {values : List Tree}

theorem place?_splice (inner : List Frame) (awaited : Awaited) (t : Tree) :
    (⟨inner ++ outer, values, awaited⟩ : Builder).place? t =
      ((⟨inner, [], awaited⟩ : Builder).place? t).bind (splice? outer values) := by
  cases inner with
  | cons f inner => cases f <;> rfl
  | nil =>
    cases outer with
    | nil => rfl
    | cons f outer => cases f <;> rfl

/-- A token does not see beyond the innermost container. -/
theorem step?_splice {inner : List Frame} (hne : inner ≠ []) (awaited : Awaited) (l : Lexeme) :
    (⟨inner ++ outer, values, awaited⟩ : Builder).step? l =
      ((⟨inner, [], awaited⟩ : Builder).step? l).bind (splice? outer values) := by
  obtain ⟨token, span⟩ := l
  obtain ⟨f, inner, rfl⟩ := List.exists_cons_of_ne_nil hne
  have htakes : (⟨f :: inner ++ outer, values, awaited⟩ : Builder).takesValue =
      (⟨f :: inner, [], awaited⟩ : Builder).takesValue := by
    cases f <;> cases awaited <;> rfl
  cases token with
  | comment => rfl
  | atom a =>
    simp only [step?, htakes]
    split_ifs
    · exact place?_splice (f :: inner) awaited _
    · cases a <;> cases f <;> cases awaited <;> rfl
  | symbol s =>
    cases s with
    | openBrace | openBracket =>
      simp only [step?, htakes]
      split_ifs <;> rfl
    | closeBrace | closeBracket =>
      cases f <;> cases awaited <;> first | rfl | exact place?_splice inner _ _
    | colon => cases awaited <;> rfl
    | comma => cases awaited <;> rfl

/-- A value goes to the others, or into the innermost container. -/
theorem place?_cases {b r : Builder} {t : Tree} (h : b.place? t = some r) :
    b.stack = [] ∧ r = ⟨[], t :: b.values, .value⟩ ∨
      ∃ f g rest, b.stack = f :: rest ∧ r = ⟨g :: rest, b.values, .next⟩ ∧ g.start = f.start ∧
        g.parts = t :: f.parts ∧ g.keys = f.keys := by
  obtain ⟨stack, values, awaited⟩ := b
  cases stack with
  | nil => exact .inl ⟨rfl, (Option.some.inj h).symm⟩
  | cons f rest =>
    cases f with
    | array start items => exact .inr ⟨_, _, _, rfl, (Option.some.inj h).symm, rfl, rfl, rfl⟩
    | object start entries => cases h
    | entry start entries key => exact .inr ⟨_, _, _, rfl, (Option.some.inj h).symm, rfl, rfl, rfl⟩

inductive Step (b : Builder) (l : Lexeme) : Builder → Prop
  | turn (awaited : Awaited) : Step b l { b with awaited := awaited }
  | key {start : Nat} {entries : List (Key × Tree)} {rest : List Frame} {k : Key} :
      b.stack = .object start entries :: rest → l = k.lexeme →
      Step b l ⟨.entry start entries k :: rest, b.values, .colon⟩
  | push {f : Frame} : f.start = l.span.start → f.parts = [] → f.keys = [] →
      Builder.start.step? l = some ⟨[f], [], .first⟩ → Step b l ⟨f :: b.stack, b.values, .first⟩
  | atom {a : Atom} {r : Builder} : l.token = .atom a →
      b.place? (.atom a l.span) = some r → Step b l r
  | close {f : Frame} {rest : List Frame} {t : Tree} {r : Builder} : b.stack = f :: rest →
      f.close? l.span.stop = some t →
      (⟨[f], [], b.awaited⟩ : Builder).step? l = some ⟨[], [t], .value⟩ →
      (⟨rest, b.values, b.awaited⟩ : Builder).place? t = some r → Step b l r

theorem step?_cases {b r : Builder} {l : Lexeme} (h : b.step? l = some r) : Step b l r := by
  obtain ⟨stack, values, awaited⟩ := b
  obtain ⟨token, span⟩ := l
  cases token with
  | comment =>
    obtain rfl := Option.some.inj h
    exact .turn awaited
  | atom a =>
    simp only [step?] at h
    split_ifs at h
    · exact .atom rfl h
    · split at h
      · obtain rfl := Option.some.inj h
        exact .key rfl rfl
      · obtain rfl := Option.some.inj h
        exact .key rfl rfl
      · cases h
  | symbol s =>
    cases s with
    | openBrace | openBracket =>
      simp only [step?] at h
      split_ifs at h
      obtain rfl := Option.some.inj h
      exact .push rfl rfl rfl rfl
    | closeBrace | closeBracket =>
      simp only [step?] at h
      split at h
      · exact .close rfl rfl rfl h
      · exact .close rfl rfl rfl h
      · cases h
    | colon =>
      simp only [step?] at h
      split_ifs at h
      obtain rfl := Option.some.inj h
      exact .turn .value
    | comma =>
      simp only [step?] at h
      split at h
      · obtain rfl := Option.some.inj h
        exact .turn .part
      · cases h

/-- A container is opened, or one that was open is now the innermost, or none is open. -/
theorem Step.stack {b r : Builder} {l : Lexeme} (h : Step b l r) :
    (∃ f, r.stack = f :: b.stack ∧ f.start = l.span.start ∧
      Builder.start.step? l = some ⟨[f], [], r.awaited⟩) ∨
      (∃ inner f g outer, b.stack = inner ++ f :: outer ∧ r.stack = g :: outer ∧
        g.start = f.start) ∨
      r.stack = [] := by
  cases h with
  | turn awaited =>
    cases hstack : b.stack with
    | nil => exact .inr (.inr rfl)
    | cons f outer => exact .inr (.inl ⟨[], f, f, outer, rfl, rfl, rfl⟩)
  | key hstack _ => exact .inr (.inl ⟨[], _, _, _, hstack, rfl, rfl⟩)
  | push hstart _ _ hopen => exact .inl ⟨_, rfl, hstart, hopen⟩
  | atom _ hplace =>
    obtain ⟨-, rfl⟩ | ⟨f, g, outer, hstack, rfl, hstart, -, -⟩ := place?_cases hplace
    · exact .inr (.inr rfl)
    · exact .inr (.inl ⟨[], f, g, outer, hstack, rfl, hstart⟩)
  | @close closed _ _ _ hstack _ _ hplace =>
    obtain ⟨-, rfl⟩ | ⟨f, g, outer, hrest, rfl, hstart, -, -⟩ := place?_cases hplace
    · exact .inr (.inr rfl)
    · refine .inr (.inl ⟨[closed], f, g, outer, ?_, rfl, hstart⟩)
      rw [hstack]
      exact congrArg (List.cons closed) hrest

/-! ## What a run has put together -/

/-- Everything in the state was put together from the tokens. -/
structure Holds (lexemes : List Lexeme) (b : Builder) : Prop where
  frames : ∀ f ∈ b.stack, f.Holds lexemes
  values : ∀ t ∈ b.values, t.StandsWhole lexemes

/-- The container was opened at the first of the last few tokens, and these alone open it and those
inside it. -/
def Opened (lexemes : List Lexeme) (inner : List Frame) (f : Frame) (awaited : Awaited) : Prop :=
  ∃ before mid first, lexemes = before ++ mid ∧ mid.head? = some first ∧
    f.start = first.span.start ∧ Builder.start.run? mid = some ⟨inner ++ [f], [], awaited⟩

structure Tracks (lexemes : List Lexeme) (b : Builder) : Prop extends Holds lexemes b where
  opened : ∀ inner f outer, b.stack = inner ++ f :: outer → Opened lexemes inner f b.awaited

variable {lexemes : List Lexeme} {l : Lexeme} {b r : Builder}

theorem run?_append_singleton {e : Builder} (h : e.run? lexemes = some b)
    (hstep : b.step? l = some r) :
    e.run? (lexemes ++ [l]) = some r := by
  rw [run?_append, h, Option.bind_some, run?_cons, hstep]
  rfl

theorem Holds.append (h : Holds lexemes b) (l : Lexeme) : Holds (lexemes ++ [l]) b where
  frames f hf := ⟨fun t ht => ((h.frames f hf).parts t ht).append l,
    fun k hk => List.mem_append_left _ ((h.frames f hf).keys k hk)⟩
  values t ht := (h.values t ht).append l

/-- A value put where it belongs is the only thing that is new. -/
theorem Holds.place (h : Holds lexemes b) {t : Tree} (ht : t.StandsWhole lexemes)
    (hplace : b.place? t = some r) : Holds lexemes r := by
  obtain ⟨-, rfl⟩ | ⟨f, g, outer, hstack, rfl, -, hparts, hkeys⟩ := place?_cases hplace
  · exact ⟨by simp, List.forall_mem_cons.2 ⟨ht, h.values⟩⟩
  · have hframes := h.frames
    rw [hstack] at hframes
    obtain ⟨hf, houter⟩ := List.forall_mem_cons.1 hframes
    refine ⟨List.forall_mem_cons.2 ⟨⟨?_, ?_⟩, houter⟩, h.values⟩
    · rw [hparts]
      exact List.forall_mem_cons.2 ⟨ht, hf.parts⟩
    · rw [hkeys]
      exact hf.keys

theorem Opened.step {inner inner' outer : List Frame} {f g : Frame}
    (h : Opened lexemes inner f b.awaited) (hstack : b.stack = inner ++ f :: outer)
    (hstep : b.step? l = some r) (hr : r.stack = inner' ++ g :: outer)
    (hstart : g.start = f.start) :
    Opened (lexemes ++ [l]) inner' g r.awaited := by
  obtain ⟨before, mid, first, rfl, hfirst, hat, hrun⟩ := h
  have hb : b = ⟨(inner ++ [f]) ++ outer, b.values, b.awaited⟩ := by
    rw [List.append_assoc, List.singleton_append, ← hstack]
  rw [hb, step?_splice (by simp)] at hstep
  obtain ⟨e, he, hsplice⟩ := Option.bind_eq_some_iff.1 hstep
  refine ⟨before, mid ++ [l], first, List.append_assoc _ _ _, by simp [hfirst],
    hstart.trans hat, ?_⟩
  rw [run?_append_singleton hrun he]
  obtain ⟨stack, values, awaited⟩ := e
  cases values with
  | nil =>
    obtain rfl := Option.some.inj hsplice
    have hinner : stack ++ outer = (inner' ++ [g]) ++ outer := by
      rw [List.append_assoc]
      exact hr
    rw [List.append_cancel_right hinner]
  | cons t values =>
    have hlength : r.stack.length = inner'.length + (outer.length + 1) := by
      rw [hr, List.length_append, List.length_cons]
    obtain ⟨-, rfl⟩ | ⟨x, y, rest, hrest, rfl, -, -, -⟩ := place?_cases hsplice
    · cases hlength
    · obtain rfl : outer = x :: rest := hrest
      simp only [List.length_cons] at hlength
      omega

/-- A container that ends is the tree of the tokens since it was opened. -/
theorem Tracks.standsWhole_close (h : Tracks lexemes b) {f : Frame} {outer : List Frame} {t : Tree}
    (hstack : b.stack = f :: outer) (hclose : f.close? l.span.stop = some t)
    (hstep : (⟨[f], [], b.awaited⟩ : Builder).step? l = some ⟨[], [t], .value⟩) :
    t.StandsWhole (lexemes ++ [l]) := by
  have hf := h.frames f (by simp [hstack])
  intro u hu
  obtain rfl | ⟨p, hp, hu⟩ := Frame.has_of_close? hclose hu
  · obtain ⟨before, mid, first, rfl, hfirst, hat, hrun⟩ := h.opened [] f outer hstack
    refine ⟨⟨before, mid ++ [l], [], first, l, by simp, by simp [hfirst], by simp, ?_, ?_⟩, ?_⟩
    · rw [Frame.span_of_close? hclose, hat]
    · rw [trees?, run?_append_singleton hrun hstep]
      rfl
    · intro x hx
      obtain ⟨k, hk, rfl⟩ := Frame.ownLexemes_of_close? hclose hx
      exact List.mem_append_left _ (hf.keys k hk)
  · exact (hf.parts p hp u hu).append l

theorem Tracks.step (h : Tracks lexemes b) (hstep : b.step? l = some r) :
    Tracks (lexemes ++ [l]) r := by
  have hcases := step?_cases hstep
  refine ⟨?_, ?_⟩
  · have hold := h.append l
    have hframes := hold.frames
    cases hcases with
    | turn awaited => exact ⟨hframes, hold.values⟩
    | key hstack hl =>
      rw [hstack] at hframes
      obtain ⟨hf, houter⟩ := List.forall_mem_cons.1 hframes
      refine ⟨List.forall_mem_cons.2 ⟨⟨hf.parts, ?_⟩, houter⟩, hold.values⟩
      exact List.forall_mem_cons.2 ⟨List.mem_append_right _ (List.mem_singleton.2 hl.symm), hf.keys⟩
    | push _ hparts hkeys _ =>
      exact ⟨List.forall_mem_cons.2 ⟨⟨by simp [hparts], by simp [hkeys]⟩, hframes⟩, hold.values⟩
    | atom hl hplace => exact hold.place (Tree.standsWhole_atom hl) hplace
    | @close f rest t r hstack hclose hend hplace =>
      rw [hstack] at hframes
      have hrest : Holds (lexemes ++ [l]) ⟨rest, b.values, b.awaited⟩ :=
        ⟨(List.forall_mem_cons.1 hframes).2, hold.values⟩
      exact hrest.place (h.standsWhole_close hstack hclose hend) hplace
  · intro inner g outer hr
    obtain ⟨f, hpush, hstart, hopen⟩ | ⟨inner', f, g', outer', hb, hr', hstart⟩ | hnone :=
      hcases.stack
    · rw [hpush] at hr
      cases inner with
      | nil =>
        obtain ⟨rfl, rfl⟩ := List.cons.inj hr
        refine ⟨lexemes, [l], l, rfl, rfl, hstart, ?_⟩
        rw [run?_cons, hopen]
        rfl
      | cons x inner =>
        obtain ⟨rfl, hb⟩ := List.cons.inj hr
        exact (h.opened inner g outer hb).step hb hstep (hpush.trans hr) rfl
    · rw [hr'] at hr
      cases inner with
      | nil =>
        obtain ⟨rfl, rfl⟩ := List.cons.inj hr
        exact (h.opened inner' f outer' hb).step hb hstep hr' hstart
      | cons x inner =>
        obtain ⟨rfl, rfl⟩ := List.cons.inj hr
        have hwhole : b.stack = (inner' ++ f :: inner) ++ g :: outer := by simp [hb]
        exact (h.opened _ g outer hwhole).step hwhole hstep hr' rfl
    · rw [hnone] at hr
      cases inner <;> cases hr

theorem Tracks.of_run? (h : Tracks lexemes b) {more : List Lexeme} (hrun : b.run? more = some r) :
    Tracks (lexemes ++ more) r := by
  induction more generalizing b lexemes with
  | nil =>
    obtain rfl := Option.some.inj hrun
    rwa [List.append_nil]
  | cons l more ih =>
    rw [run?_cons] at hrun
    obtain ⟨e, he, hmore⟩ := Option.bind_eq_some_iff.1 hrun
    have hall := ih (h.step he) hmore
    rwa [List.append_assoc] at hall

theorem Tracks.start : Tracks [] .start where
  frames := by simp [Builder.start]
  values := by simp [Builder.start]
  opened inner f outer h := by cases inner <;> cases h

end Builder

/-- All trees that a run of tokens gives stand in it, with all their parts. -/
theorem standsWhole_of_trees? {lexemes : List Lexeme} {ts : List Tree}
    (h : trees? lexemes = some ts) {t : Tree} (ht : t ∈ ts) : t.StandsWhole lexemes := by
  obtain ⟨b, hrun, hfinish⟩ := Option.bind_eq_some_iff.1 h
  rw [Builder.finish?] at hfinish
  split_ifs at hfinish
  obtain rfl := Option.some.inj hfinish
  exact (Builder.Tracks.start.of_run? hrun).values t (List.mem_reverse.1 ht)

end DagSelect.Json
