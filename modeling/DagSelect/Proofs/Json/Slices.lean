import DagSelect.Json.Token
import Mathlib.Data.String.Basic
import Mathlib.Tactic.SplitIfs

/-!
# Tokens and the text they were found in

Places are byte offsets in the whole text, so the scanner may be started anywhere in it. Started
where a token begins, it gets to the same state as before, without the tokens in front of that one
(`Restarts`); and the text up to the end of a token reads as the tokens up to that one. So a run of
tokens is what the part of the text from the first to the last of them reads as, on its own but at
its place (`scan?_slice`), and a number or a string literal is the very text it was found in
(`scan?_text`).
-/

namespace DagSelect.Json

open String (utf8Len)

variable {d : Dialect}

/-- A token that keeps its text was read from that text. -/
def Token.Reads : Token → List Char → Prop
  | .atom (.number text), read => text = read
  | .atom (.string literal), read => literal = read
  | _, _ => True

namespace Mode

def start : Mode → Nat
  | .gap _ start | .word _ _ start | .number _ _ start | .string _ _ start => start

/-- What has been read since then, as far as it is kept; a word is told by its first letter and
keeps nothing. -/
def Reads : Mode → List Char → Prop
  | .gap _ _, _ => True
  | .word _ a _, _ => ∀ read, (Token.atom a).Reads read
  | .number _ text _, read => text.reverse = read
  | .string _ text _, read => text.reverse = read

end Mode

namespace Scanner

/-! ## What one character can do -/

def settle? (d : Dialect) (s : Scanner) : Option Scanner :=
  match s.mode with
  | .gap .blank _ => some s
  | .gap .line start => some (s.emit .comment start s.offset)
  | .number part text start =>
    if part.isComplete d then some (s.emit (.atom (.number text.reverse)) start s.offset) else none
  | _ => none

theorem finish?_eq (s : Scanner) :
    s.finish? d = (s.settle? d).map fun q => q.lexemes.reverse := by
  obtain ⟨lexemes, mode, offset⟩ := s
  cases mode with
  | gap g start => cases g <;> rfl
  | word rest a start => rfl
  | number part text start =>
    simp only [finish?, settle?]
    split_ifs <;> rfl
  | string part text start => rfl

/-- Nothing was being read, or it is a token now. -/
theorem settle?_cases {s q : Scanner} (h : s.settle? d = some q) :
    q = s ∨ ∃ t : Token, q = s.emit t s.mode.start s.offset ∧
      ∀ read, s.mode.Reads read → t.Reads read := by
  unfold settle? at h
  split at h
  · exact .inl (Option.some.inj h).symm
  · next hmode => exact .inr ⟨.comment, by rw [hmode]; exact (Option.some.inj h).symm,
      fun _ _ => trivial⟩
  · next hmode =>
    split_ifs at h
    refine .inr ⟨_, by rw [hmode]; exact (Option.some.inj h).symm, ?_⟩
    intro read hread
    rwa [hmode] at hread
  · cases h

theorem settle?_offset {s q : Scanner} (h : s.settle? d = some q) : q.offset = s.offset := by
  obtain rfl | ⟨t, rfl, -⟩ := settle?_cases h <;> rfl

/-- The first character of a token is the whole of it, or begins it. -/
theorem begin?_cases {s r : Scanner} {c : Char} (h : s.begin? d c = some r) :
    (∃ symbol, r = s.emit (.symbol symbol) s.offset (s.offset + c.utf8Size)) ∨
      ∃ m : Mode, r = s.enter c m ∧ m.start = s.offset ∧ m.Reads [c] := by
  unfold begin? at h
  split at h
  · next symbol _ => exact .inl ⟨symbol, (Option.some.inj h).symm⟩
  · refine .inr ?_
    split_ifs at h
    · exact ⟨_, (Option.some.inj h).symm, rfl, trivial⟩
    · exact ⟨_, (Option.some.inj h).symm, rfl, trivial⟩
    · exact ⟨_, (Option.some.inj h).symm, rfl, rfl⟩
    · exact ⟨_, (Option.some.inj h).symm, rfl, fun _ => trivial⟩
    · exact ⟨_, (Option.some.inj h).symm, rfl, fun _ => trivial⟩
    · exact ⟨_, (Option.some.inj h).symm, rfl, fun _ => trivial⟩
    · obtain ⟨part, -, rfl⟩ := Option.map_eq_some_iff.1 h
      exact ⟨_, rfl, rfl, rfl⟩

/-- A character goes on with what is being read, or is the last of it, or stands behind it. -/
inductive Step (d : Dialect) (s : Scanner) (c : Char) : Scanner → Prop
  | goOn {m : Mode} : m.start = s.mode.start →
      (∀ read, s.mode.Reads read → m.Reads (read ++ [c])) → Step d s c (s.enter c m)
  | close {t : Token} : (∀ read, s.mode.Reads read → t.Reads (read ++ [c])) →
      Step d s c (s.emit t s.mode.start (s.offset + c.utf8Size))
  | settle {q r : Scanner} : s.settle? d = some q → q.begin? d c = some r → Step d s c r

theorem step?_cases {s r : Scanner} {c : Char} (h : s.step? d c = some r) : Step d s c r := by
  unfold step? at h
  split at h
  · cases h
  split at h
  · next hmode => exact .settle (by rw [settle?, hmode]) h
  · next hmode =>
    split_ifs at h
    · exact .settle (by rw [settle?, hmode]) h
    · obtain rfl := Option.some.inj h
      exact .goOn rfl (by rw [hmode]; exact fun _ _ => trivial)
  · next hmode =>
    split at h
    · obtain rfl := Option.some.inj h
      have hclose := Step.close (d := d) (s := s) (c := c) (t := .comment) fun _ _ => trivial
      rwa [hmode] at hclose
    · obtain rfl := Option.some.inj h
      exact .goOn (by rw [hmode]; rfl) fun _ _ => trivial
    · cases h
  · cases h
  · next e rest a start hmode =>
    split_ifs at h
    · obtain rfl := Option.some.inj h
      have hclose := Step.close (d := d) (s := s) (c := c) (t := .atom a)
        (by rw [hmode]; exact fun _ hread => hread _)
      rwa [hmode] at hclose
    · obtain rfl := Option.some.inj h
      exact .goOn (by rw [hmode]; rfl) (by rw [hmode]; exact fun _ hread => hread)
  · next part text start hmode =>
    split at h
    · obtain rfl := Option.some.inj h
      refine .goOn (by rw [hmode]; rfl) ?_
      rw [hmode]
      rintro read rfl
      exact List.reverse_cons
    · split_ifs at h with hcomplete
      exact .settle (by rw [settle?, hmode]; exact if_pos hcomplete) h
  · next part text start hmode =>
    split_ifs at h
    · obtain rfl := Option.some.inj h
      have hclose :=
        Step.close (d := d) (s := s) (c := c) (t := .atom (.string (c :: text).reverse))
        (by rw [hmode]; rintro read rfl; exact List.reverse_cons)
      rwa [hmode] at hclose
    · obtain ⟨part, -, rfl⟩ := Option.map_eq_some_iff.1 h
      refine .goOn (by rw [hmode]; rfl) ?_
      rw [hmode]
      rintro read rfl
      exact List.reverse_cons

/-! ## Starting in the middle -/

/-- The state with other tokens in front of those it has found. -/
def after (earlier : List Lexeme) (s : Scanner) : Scanner :=
  { s with lexemes := s.lexemes ++ earlier }

variable (earlier : List Lexeme) (s : Scanner)

/-- What begins a token depends on the offset alone. -/
theorem begin?_eq (c : Char) :
    s.begin? d c = ((ofOffset s.offset).begin? d c).map (after s.lexemes) := by
  unfold begin?
  split
  · rfl
  · simp only [apply_ite (Option.map (after s.lexemes)), Option.map_map]
    rfl

theorem begin?_after (c : Char) :
    (s.after earlier).begin? d c = (s.begin? d c).map (after earlier) := by
  rw [begin?_eq, begin?_eq s, Option.map_map]
  congr 1
  funext r
  simp only [after, Function.comp, List.append_assoc]

theorem eq_of_after_eq {earlier : List Lexeme} {s r : Scanner}
    (h : s.after earlier = r.after earlier) :
    s = r := by
  obtain ⟨lexemes, mode, offset⟩ := s
  obtain ⟨lexemes', mode', offset'⟩ := r
  simpa only [after, Scanner.mk.injEq, List.append_cancel_right_eq] using h

theorem step?_after (c : Char) :
    (s.after earlier).step? d c = (s.step? d c).map (after earlier) := by
  have hbegin (t : Token) (start : Nat) :
      ((s.after earlier).emit t start s.offset).begin? d c =
        ((s.emit t start s.offset).begin? d c).map (after earlier) :=
    begin?_after earlier (s.emit t start s.offset) c
  unfold step?
  rw [apply_ite (Option.map (after earlier))]
  congr 1
  rw [show (s.after earlier).mode = s.mode from rfl]
  split
  · exact begin?_after earlier s c
  · rw [apply_ite (Option.map (after earlier)), ← hbegin]
    rfl
  · split <;> rfl
  · rfl
  · simp only [apply_ite (Option.map (after earlier))]
    rfl
  · split
    · rfl
    · rw [apply_ite (Option.map (after earlier)), ← hbegin]
      rfl
  · rw [apply_ite (Option.map (after earlier)), Option.map_map]
    rfl

theorem settle?_after : (s.after earlier).settle? d = (s.settle? d).map (after earlier) := by
  unfold settle?
  rw [show (s.after earlier).mode = s.mode from rfl]
  split
  · rfl
  · rfl
  · rw [apply_ite (Option.map (after earlier))]
    rfl
  · rfl

/-! ## Tokens in place -/

section

variable {o : Nat} {text : List Char} {c : Char}

/-- Started at an offset `b` of the text, which is at the offset `o`, the scanner gets to the same
state but for the tokens `earlier`; these are what the text in front of `b` reads as. -/
def Restarts (d : Dialect) (o : Nat) (text : List Char) (b : Nat) (earlier : List Lexeme)
    (s : Scanner) : Prop :=
  ∃ pre cur r, text = pre ++ cur ∧ b = o + utf8Len pre ∧ scan? d o pre = some earlier.reverse ∧
    (ofOffset b).run? d cur = some r ∧ s = r.after earlier

/-- How a token that is behind the tokens `earlier` stands in the text that has been read. -/
structure Finds (d : Dialect) (o : Nat) (text : List Char) (s : Scanner) (l : Lexeme)
    (earlier : List Lexeme) : Prop where
  /-- The scanner can be started where the token begins. -/
  started : Restarts d o text l.span.start earlier s
  /-- The text up to the end of the token reads as the tokens up to it. -/
  stopped : ∃ part, part <+: text ∧ l.span.stop = o + utf8Len part ∧
    scan? d o part = some (l :: earlier).reverse
  /-- The token was read from what stands in its place. -/
  quoted : ∃ pre read, pre ++ read <+: text ∧ l.token.Reads read ∧
    l.span.start = o + utf8Len pre ∧ l.span.stop = o + utf8Len (pre ++ read)

def FindsAll (d : Dialect) (o : Nat) (text : List Char) (s : Scanner) (lexemes : List Lexeme) :
    Prop :=
  ∀ l earlier, (l :: earlier) <:+ lexemes → Finds d o text s l earlier

structure Tracks (d : Dialect) (o : Nat) (text : List Char) (s : Scanner) : Prop where
  run : (ofOffset o).run? d text = some s
  offset : s.offset = o + utf8Len text
  /-- The scanner can be started where it began what it is reading. -/
  current : ∃ pre read, text = pre ++ read ∧ s.mode.start = o + utf8Len pre ∧
    scan? d o pre = some s.lexemes.reverse ∧
    (ofOffset s.mode.start).run? d read = some ⟨[], s.mode, s.offset⟩ ∧ s.mode.Reads read
  found : FindsAll d o text s s.lexemes

theorem run?_append_singleton {s r e : Scanner} (hs : e.run? d text = some s)
    (h : s.step? d c = some r) : e.run? d (text ++ [c]) = some r := by
  rw [run?_append, hs, Option.bind_some, run?_cons, h]
  rfl

theorem scan?_of_settle? {s q : Scanner} (hs : (ofOffset o).run? d text = some s)
    (hq : s.settle? d = some q) : scan? d o text = some q.lexemes.reverse := by
  rw [scan?, hs, Option.bind_some, finish?_eq, hq]
  rfl

theorem Restarts.step {b : Nat} {earlier : List Lexeme} {s r : Scanner}
    (h : Restarts d o text b earlier s) (hstep : s.step? d c = some r) :
    Restarts d o (text ++ [c]) b earlier r := by
  obtain ⟨pre, cur, e, rfl, hb, hscan, hrun, rfl⟩ := h
  rw [step?_after] at hstep
  obtain ⟨r, hr, rfl⟩ := Option.map_eq_some_iff.1 hstep
  exact ⟨pre, cur ++ [c], r, List.append_assoc _ _ _, hb, hscan, run?_append_singleton hrun hr, rfl⟩

theorem FindsAll.step {s r : Scanner} {lexemes : List Lexeme} (h : FindsAll d o text s lexemes)
    (hstep : s.step? d c = some r) : FindsAll d o (text ++ [c]) r lexemes := by
  intro l earlier hsuffix
  obtain ⟨started, ⟨part, hpart, hstop⟩, pre, read, hread, hquoted⟩ := h l earlier hsuffix
  exact ⟨started.step hstep, ⟨part, hpart.trans (List.prefix_append _ _), hstop⟩,
    pre, read, hread.trans (List.prefix_append _ _), hquoted⟩

theorem FindsAll.cons {s : Scanner} {l : Lexeme} {lexemes : List Lexeme}
    (hl : Finds d o text s l lexemes) (h : FindsAll d o text s lexemes) :
    FindsAll d o text s (l :: lexemes) := by
  intro x earlier hsuffix
  rcases List.suffix_cons_iff.1 hsuffix with heq | hsuffix
  · obtain ⟨rfl, rfl⟩ := List.cons.inj heq
    exact hl
  · exact h x earlier hsuffix

namespace Tracks

variable {s r q : Scanner}

theorem restarts (h : Tracks d o text s) : Restarts d o text s.mode.start s.lexemes s := by
  obtain ⟨pre, read, htext, hstart, hscan, hrun, -⟩ := h.current
  exact ⟨pre, read, _, htext, hstart, hscan, hrun, rfl⟩

/-- What has been read up to the end of the text stands in it too. -/
theorem settle (h : Tracks d o text s) (hq : s.settle? d = some q) :
    FindsAll d o text s q.lexemes := by
  have hscan := scan?_of_settle? h.run hq
  obtain rfl | ⟨t, rfl, ht⟩ := settle?_cases hq
  · exact h.found
  · obtain ⟨pre, read, rfl, hstart, -, -, hread⟩ := h.current
    exact FindsAll.cons ⟨h.restarts, ⟨_, List.prefix_rfl, h.offset, hscan⟩,
      pre, read, List.prefix_rfl, ht read hread, hstart, h.offset⟩ h.found

/-- A character that belongs to nothing in front of it is read as if the scanner started there. -/
theorem run?_begin (hc : c ≠ '\x00') (hbegin : q.begin? d c = some r) :
    ∃ e, (ofOffset q.offset).run? d [c] = some e ∧ r = e.after q.lexemes := by
  rw [begin?_eq] at hbegin
  obtain ⟨e, he, rfl⟩ := Option.map_eq_some_iff.1 hbegin
  refine ⟨e, ?_, rfl⟩
  rw [run?_cons, step?, if_neg (by simpa using hc)]
  exact congrArg (fun e => Option.bind e fun e => e.run? d []) he

/-- Behind a token the scanner is between tokens, as it is at the start. -/
theorem emit {t : Token} {start stop : Nat}
    (hrun : (ofOffset o).run? d text = some (s.emit t start stop)) (hstop : stop = o + utf8Len text)
    (hrestarts : Restarts d o text start s.lexemes (s.emit t start stop))
    (hquoted : ∃ pre read, text = pre ++ read ∧ t.Reads read ∧ start = o + utf8Len pre)
    (hfound : FindsAll d o text (s.emit t start stop) s.lexemes) :
    Tracks d o text (s.emit t start stop) where
  run := hrun
  offset := hstop
  current := ⟨text, [], (List.append_nil text).symm, hstop, scan?_of_settle? hrun rfl, rfl, trivial⟩
  found := by
    obtain ⟨pre, read, rfl, hread, hstart⟩ := hquoted
    exact FindsAll.cons ⟨hrestarts, ⟨_, List.prefix_rfl, hstop, scan?_of_settle? hrun rfl⟩,
      pre, read, List.prefix_rfl, hread, hstart, hstop⟩ hfound

theorem start (d : Dialect) (o : Nat) : Tracks d o [] (ofOffset o) where
  run := rfl
  offset := rfl
  current := ⟨[], [], rfl, rfl, rfl, rfl, trivial⟩
  found := by
    intro l earlier hsuffix
    cases List.suffix_nil.1 hsuffix

theorem step (h : Tracks d o text s) (hstep : s.step? d c = some r) :
    Tracks d o (text ++ [c]) r := by
  have hc : c ≠ '\x00' := by
    rintro rfl
    cases hstep
  have hrun := run?_append_singleton h.run hstep
  have hoffset : s.offset + c.utf8Size = o + utf8Len (text ++ [c]) := by
    rw [h.offset, String.utf8Len_append]
    simp [Nat.add_assoc]
  have hold {xs : List Lexeme} (hxs : FindsAll d o text s xs) := hxs.step hstep
  cases step?_cases hstep with
  | @goOn m hstart hread =>
    refine ⟨hrun, hoffset, ?_, hold h.found⟩
    obtain ⟨pre, read, rfl, hat, hscan, hcur, hreads⟩ := h.current
    have hfresh := step?_after (d := d) s.lexemes ⟨[], s.mode, s.offset⟩ c
    rw [show after s.lexemes ⟨[], s.mode, s.offset⟩ = s from rfl, hstep] at hfresh
    obtain ⟨e, he, heq⟩ := Option.map_eq_some_iff.1 hfresh.symm
    obtain rfl : e = ⟨[], m, s.offset + c.utf8Size⟩ := eq_of_after_eq heq
    refine ⟨pre, read ++ [c], List.append_assoc _ _ _, hstart.trans hat, hscan, ?_,
      hread read hreads⟩
    rw [show (s.enter c m).mode.start = s.mode.start from hstart]
    exact run?_append_singleton hcur he
  | @close t hread =>
    obtain ⟨pre, read, rfl, hat, -, -, hreads⟩ := h.current
    exact emit hrun hoffset (h.restarts.step hstep)
      ⟨pre, read ++ [c], List.append_assoc _ _ _, hread read hreads, hat⟩ (hold h.found)
  | @settle q r hq hbegin =>
    obtain ⟨e, he, hr⟩ := run?_begin hc hbegin
    have hat : q.offset = o + utf8Len text := by rw [settle?_offset hq, h.offset]
    have hscan := scan?_of_settle? h.run hq
    have hfound := hold (h.settle hq)
    obtain ⟨symbol, rfl⟩ | ⟨m, rfl, hm, hread⟩ := begin?_cases hbegin
    · exact emit hrun (by rw [settle?_offset hq, hoffset]) ⟨text, [c], e, rfl, hat, hscan, he, hr⟩
        ⟨text, [c], rfl, trivial, hat⟩ hfound
    · obtain rfl : ⟨[], m, q.offset + c.utf8Size⟩ = e := eq_of_after_eq hr
      refine ⟨hrun, by rw [← hoffset, ← settle?_offset hq]; rfl, ?_, hfound⟩
      have hstart : (q.enter c m).mode.start = q.offset := hm
      exact ⟨text, [c], rfl, hstart.trans hat, hscan, by rw [hstart]; exact he, hread⟩

theorem of_run? (h : Tracks d o text s) {more : List Char} (hrun : s.run? d more = some r) :
    Tracks d o (text ++ more) r := by
  induction more generalizing s text with
  | nil =>
    obtain rfl := Option.some.inj hrun
    rwa [List.append_nil]
  | cons c more ih =>
    rw [run?_cons] at hrun
    obtain ⟨e, he, hmore⟩ := Option.bind_eq_some_iff.1 hrun
    have hall := ih (h.step he) hmore
    rwa [List.append_assoc] at hall

end Tracks

end

end Scanner

open Scanner

variable {o : Nat} {text : List Char} {before mid behind : List Lexeme} {l : Lexeme}

/-- The tokens of a text stand in it, and what is read from the beginning of one of them on are that
token and those behind it. -/
theorem exists_finds (h : scan? d o text = some (before ++ l :: behind)) :
    ∃ s q, s.settle? d = some q ∧ q.lexemes = behind.reverse ++ l :: before.reverse ∧
      Finds d o text s l before.reverse := by
  obtain ⟨s, hs, hfinish⟩ := Option.bind_eq_some_iff.1 h
  rw [finish?_eq] at hfinish
  obtain ⟨q, hq, hlexemes⟩ := Option.map_eq_some_iff.1 hfinish
  have hreverse : q.lexemes = behind.reverse ++ l :: before.reverse := by
    rw [← List.reverse_reverse q.lexemes, hlexemes]
    simp
  refine ⟨s, q, hq, hreverse, ((Tracks.start d o).of_run? hs).settle hq _ _ ?_⟩
  exact ⟨behind.reverse, hreverse.symm⟩

theorem scan?_start (h : scan? d o text = some (before ++ l :: behind)) :
    ∃ pre rest, text = pre ++ rest ∧ l.span.start = o + utf8Len pre ∧
      scan? d o pre = some before ∧ scan? d l.span.start rest = some (l :: behind) := by
  obtain ⟨s, q, hq, hlexemes, ⟨pre, cur, r, htext, hstart, hscan, hrun, rfl⟩, -, -⟩ :=
    exists_finds h
  rw [settle?_after] at hq
  obtain ⟨e, he, rfl⟩ := Option.map_eq_some_iff.1 hq
  refine ⟨pre, cur, htext, hstart, by rwa [List.reverse_reverse] at hscan, ?_⟩
  rw [scan?_of_settle? hrun he]
  have hsplit : e.lexemes ++ before.reverse = (behind.reverse ++ [l]) ++ before.reverse := by
    rw [List.append_assoc]
    exact hlexemes
  rw [List.append_cancel_right hsplit]
  simp

theorem scan?_stop (h : scan? d o text = some (before ++ l :: behind)) :
    ∃ part, part <+: text ∧ l.span.stop = o + utf8Len part ∧
      scan? d o part = some (before ++ [l]) := by
  obtain ⟨s, q, -, -, -, ⟨part, hpart, hstop, hscan⟩, -⟩ := exists_finds h
  exact ⟨part, hpart, hstop, by rw [hscan]; simp⟩

/-- A run of tokens is what the text from the first to the last of them reads as in its place, and
the tokens in front of it are what the text in front of it reads as. -/
theorem scan?_slice {m : Lexeme} (h : scan? d o text = some (before ++ mid ++ behind))
    (hfirst : mid.head? = some l) (hlast : mid.getLast? = some m) :
    ∃ pre part, pre ++ part <+: text ∧ l.span.start = o + utf8Len pre ∧
      m.span.stop = o + utf8Len (pre ++ part) ∧ scan? d o pre = some before ∧
      scan? d l.span.start part = some mid := by
  obtain ⟨more, rfl⟩ := List.head?_eq_some_iff.1 hfirst
  obtain ⟨init, hinit⟩ := List.getLast?_eq_some_iff.1 hlast
  have hsplit : before ++ l :: more ++ behind = (before ++ init) ++ m :: behind := by
    rw [hinit]
    simp
  rw [hsplit] at h
  obtain ⟨part, hpart, hstop, hscan⟩ := scan?_stop h
  rw [List.append_assoc, ← hinit] at hscan
  obtain ⟨pre, rest, rfl, hstart, hpre, hrest⟩ := scan?_start hscan
  exact ⟨pre, rest, hpart, hstart, hstop, hpre, hrest⟩

/-- A token was read from what stands in its place. -/
theorem scan?_text (h : scan? d o text = some (before ++ l :: behind)) :
    ∃ pre read, pre ++ read <+: text ∧ l.token.Reads read ∧
      l.span.start = o + utf8Len pre ∧ l.span.stop = o + utf8Len (pre ++ read) := by
  obtain ⟨s, q, -, -, -, -, hquoted⟩ := exists_finds h
  exact hquoted

end DagSelect.Json
