import DagSelect.Json.Token
import DagSelect.Proofs.Json.Literal
import DagSelect.Proofs.Text.Decimal

/-!
# Scanning text piece by piece

A piece of text `Scans` to tokens when the scanner, standing between tokens, finds these and no
others in it. Behind a number the scanner does not yet know that the number is over, so a piece may
leave it there; a piece that `Follows` may be read from that state too, as its first character
cannot belong to a number. Pieces are put together by `Scans.append`, whatever the layout of the
text.
-/

namespace DagSelect.Json

namespace Scanner

def tokens (s : Scanner) : List Token := (s.lexemes.map Lexeme.token).reverse

theorem tokens_emit (s : Scanner) (t : Token) (start stop : Nat) :
    (s.emit t start stop).tokens = s.tokens ++ [t] := by
  rw [tokens, emit, List.map_cons, List.reverse_cons]
  rfl

/-- The scanner has found the tokens and is in the middle of nothing. -/
def Between (s : Scanner) (ts : List Token) : Prop :=
  (∃ start, s.mode = .gap .blank start) ∧ s.tokens = ts

theorem between_emit {s : Scanner} {ts : List Token} (h : s.tokens = ts) (t : Token)
    (start stop : Nat) :
    (s.emit t start stop).Between (ts ++ [t]) :=
  ⟨⟨stop, rfl⟩, by rw [tokens_emit, h]⟩

variable {d : Dialect}

/-- The scanner has found the tokens, the last of which may be a number that could go on. -/
inductive Behind (d : Dialect) (s : Scanner) : List Token → Prop
  | between {ts : List Token} : s.Between ts → Behind d s ts
  | number {ts : List Token} {part : NumberPart} {text : List Char} {start : Nat} :
      s.mode = .number part text start → part.isComplete d = true → s.tokens = ts →
      Behind d s (ts ++ [.atom (.number text.reverse)])

def Delimits (d : Dialect) (c : Char) : Prop :=
  c ≠ '\x00' ∧ ∀ part : NumberPart, part.next? d c = none

theorem Between.step? {s : Scanner} {ts : List Token} (h : s.Between ts) {c : Char}
    (hc : c ≠ '\x00') :
    s.step? d c = s.begin? d c := by
  obtain ⟨⟨start, hmode⟩, -⟩ := h
  rw [Scanner.step?, if_neg (by simpa using hc), hmode]

/-- A delimiter is read as if the number in front of it had been over. -/
theorem Behind.step? {s : Scanner} {ts : List Token} (h : s.Behind d ts) {c : Char}
    (hc : Delimits d c) :
    ∃ r : Scanner, r.Between ts ∧ s.step? d c = r.begin? d c := by
  cases h with
  | between h => exact ⟨s, h, h.step? hc.1⟩
  | @number _ _ text start hmode hcomplete htokens =>
    refine ⟨s.emit (.atom (.number text.reverse)) start s.offset, between_emit htokens _ _ _, ?_⟩
    rw [Scanner.step?, if_neg (by simpa using hc.1), hmode]
    simp only [hc.2, if_pos hcomplete]

theorem Behind.finish? {s : Scanner} {ts : List Token} (h : s.Behind d ts) :
    ∃ lexemes, s.finish? d = some lexemes ∧ lexemes.map Lexeme.token = ts := by
  cases h with
  | between h =>
    obtain ⟨⟨start, hmode⟩, htokens⟩ := h
    exact ⟨s.lexemes.reverse, by rw [Scanner.finish?, hmode],
      by rw [List.map_reverse]; exact htokens⟩
  | @number ts part text start hmode hcomplete htokens =>
    refine ⟨(s.emit (.atom (.number text.reverse)) start s.offset).lexemes.reverse, ?_, ?_⟩
    · rw [Scanner.finish?, hmode]
      exact if_pos hcomplete
    · rw [List.map_reverse]
      exact (between_emit htokens _ _ _).2

end Scanner

open Scanner

variable {d : Dialect}

/-- Read between tokens, the text gives the tokens. -/
def Scans (d : Dialect) (text : List Char) (ts : List Token) : Prop :=
  ∀ ⦃s : Scanner⦄ ⦃before⦄, s.Between before →
    ∃ r, s.run? d text = some r ∧ r.Behind d (before ++ ts)

/-- Read between tokens or behind a number, the text gives the tokens. -/
def Follows (d : Dialect) (text : List Char) (ts : List Token) : Prop :=
  ∀ ⦃s : Scanner⦄ ⦃before⦄, s.Behind d before →
    ∃ r, s.run? d text = some r ∧ r.Behind d (before ++ ts)

theorem Follows.scans {text : List Char} {ts : List Token} (h : Follows d text ts) :
    Scans d text ts :=
  fun _ _ hs => h (.between hs)

theorem Scans.append {a b : List Char} {ts us : List Token} (ha : Scans d a ts)
    (hb : Follows d b us) :
    Scans d (a ++ b) (ts ++ us) := by
  intro s before hs
  obtain ⟨r, hr, hbehind⟩ := ha hs
  obtain ⟨q, hq, hend⟩ := hb hbehind
  refine ⟨q, ?_, by rw [← List.append_assoc]; exact hend⟩
  rw [run?_append, hr]
  exact hq

theorem Follows.nil : Follows d [] [] := by
  intro s before hs
  exact ⟨s, rfl, by rw [List.append_nil]; exact hs⟩

/-- A first character that delimits and leads to a state between tokens. -/
theorem Follows.cons {c : Char} {text : List Char} {found ts : List Token} (hc : Delimits d c)
    (hbegin : ∀ (s : Scanner) (before : List Token), s.Between before →
      ∃ r, s.begin? d c = some r ∧ r.Between (before ++ found))
    (h : Scans d text ts) : Follows d (c :: text) (found ++ ts) := by
  intro s before hs
  obtain ⟨r, hr, hstep⟩ := hs.step? hc
  obtain ⟨q, hq, hbetween⟩ := hbegin r before hr
  obtain ⟨e, he, hend⟩ := h hbetween
  refine ⟨e, ?_, by rw [← List.append_assoc]; exact hend⟩
  rw [run?_cons, hstep, hq]
  exact he

theorem delimits_symbol (s : Symbol) : Delimits d s.char := by
  constructor
  · cases s <;> decide
  · intro part
    cases s <;> cases part <;> rfl

theorem Scanner.Between.begin?_symbol {r : Scanner} {before : List Token} (hr : r.Between before)
    (s : Symbol) : ∃ q, r.begin? d s.char = some q ∧ q.Between (before ++ [.symbol s]) := by
  refine ⟨r.emit (.symbol s) r.offset (r.offset + s.char.utf8Size), ?_, between_emit hr.2 _ _ _⟩
  rw [begin?, Symbol.ofChar?_char]

theorem Follows.symbol (s : Symbol) {text : List Char} {ts : List Token} (h : Scans d text ts) :
    Follows d (s.char :: text) (.symbol s :: ts) := by
  exact Follows.cons (delimits_symbol s) (fun _ _ hr => hr.begin?_symbol s) h

/-- A text that is one piece has the tokens of that piece. -/
theorem Scans.scan? {text : List Char} {ts : List Token} (h : Scans d text ts) (offset : Nat) :
    ∃ lexemes, Json.scan? d offset text = some lexemes ∧ lexemes.map Lexeme.token = ts := by
  have hstart : (Scanner.ofOffset offset).Between [] := ⟨⟨offset, rfl⟩, rfl⟩
  obtain ⟨r, hr, hend⟩ := h hstart
  obtain ⟨lexemes, hfinish, htokens⟩ := hend.finish?
  refine ⟨lexemes, ?_, htokens⟩
  rw [Json.scan?, hr]
  exact hfinish

/-! ## Breaking off -/

/-- Read between tokens, the text is not read to its end. -/
def Breaks (d : Dialect) (text : List Char) : Prop :=
  ∀ ⦃s : Scanner⦄ ⦃before⦄, s.Between before → s.run? d text = none

theorem Breaks.append {a : List Char} (h : Breaks d a) (b : List Char) : Breaks d (a ++ b) := by
  intro s before hs
  rw [run?_append, h hs]
  rfl

/-- What breaks the scanner off does so behind a symbol too. -/
theorem Breaks.symbol {text : List Char} (h : Breaks d text) (s : Symbol) {r : Scanner}
    {before : List Token} (hr : r.Behind d before) : r.run? d (s.char :: text) = none := by
  obtain ⟨q, hq, hstep⟩ := hr.step? (delimits_symbol s)
  obtain ⟨p, hp, hbetween⟩ := hq.begin?_symbol (d := d) s
  rw [run?_cons, hstep, hp]
  exact h hbetween

theorem Breaks.cons {text : List Char} (h : Breaks d text) (s : Symbol) :
    Breaks d (s.char :: text) :=
  fun _ _ hs => h.symbol s (.between hs)

theorem Scans.append_breaks {a b : List Char} {ts : List Token} (ha : Scans d a ts)
    (hb : Breaks d b) (s : Symbol) : Breaks d (a ++ s.char :: b) := by
  intro r before hr
  obtain ⟨q, hq, hbehind⟩ := ha hr
  rw [run?_append, hq]
  exact hb.symbol s hbehind

theorem Breaks.scan? {text : List Char} (h : Breaks d text) (offset : Nat) :
    Json.scan? d offset text = none := by
  have hstart : (Scanner.ofOffset offset).Between [] := ⟨⟨offset, rfl⟩, rfl⟩
  rw [Json.scan?, h hstart]
  rfl

/-! ## Runs -/

namespace Scanner

/-- What reading any piece of a text keeps, together with the text passed so far, reading the whole
text keeps. -/
theorem exists_run?_flatMap {α : Type} {piece : α → List Char} {I : List Char → Scanner → Prop}
    {xs : List α}
    (h : ∀ x ∈ xs, ∀ text s, I text s →
      ∃ r, s.run? d (piece x) = some r ∧ I ((piece x).reverse ++ text) r)
    {text : List Char} {s : Scanner} (hs : I text s) :
    ∃ r, s.run? d (xs.flatMap piece) = some r ∧ I ((xs.flatMap piece).reverse ++ text) r := by
  induction xs generalizing s text with
  | nil => exact ⟨s, rfl, hs⟩
  | cons x xs ih =>
    obtain ⟨r, hr, hkept⟩ := h x (by simp) text s hs
    obtain ⟨q, hq, hend⟩ := ih (fun y hy => h y (List.mem_cons_of_mem x hy)) hkept
    refine ⟨q, ?_, ?_⟩
    · rw [List.flatMap_cons, run?_append, hr]
      exact hq
    · rw [List.flatMap_cons, List.reverse_append, List.append_assoc]
      exact hend

theorem exists_run? {I : List Char → Scanner → Prop} {cs : List Char}
    (h : ∀ c ∈ cs, ∀ text s, I text s → ∃ r, s.step? d c = some r ∧ I (c :: text) r)
    {text : List Char} {s : Scanner} (hs : I text s) :
    ∃ r, s.run? d cs = some r ∧ I (cs.reverse ++ text) r := by
  have hone : ∀ c ∈ cs, ∀ text s, I text s →
      ∃ r, s.run? d [c] = some r ∧ I ([c].reverse ++ text) r := by
    intro c hc text s hs
    obtain ⟨r, hr, hkept⟩ := h c hc text s hs
    exact ⟨r, by rw [run?_cons, hr]; rfl, hkept⟩
  have hall := exists_run?_flatMap hone hs
  rwa [List.flatMap_singleton'] at hall

end Scanner

/-! ## Words -/

theorem Scanner.run?_word {a : Atom} {start : Nat} {rest : List Char} (hne : rest ≠ [])
    (hnul : '\x00' ∉ rest) {s : Scanner} (hmode : s.mode = .word rest a start) :
    ∃ r, s.run? d rest = some r ∧ r.Between (s.tokens ++ [.atom a]) := by
  induction rest generalizing s with
  | nil => exact absurd rfl hne
  | cons c rest ih =>
    have hc : c ≠ '\x00' := fun h => hnul (by simp [h])
    rw [run?_cons, Scanner.step?, if_neg (by simpa using hc), hmode]
    simp only [beq_self_eq_true, if_true]
    by_cases hrest : rest = []
    · subst hrest
      exact ⟨_, rfl, between_emit rfl _ _ _⟩
    · rw [if_neg (by simpa using hrest)]
      exact ih (s := s.enter c (.word rest a start)) hrest (fun h => hnul (by simp [h])) rfl

/-- A word is told by its first letter and is over with its last. -/
theorem Scans.word {c : Char} {rest : List Char} {a : Atom} (hc : c ≠ '\x00') (hne : rest ≠ [])
    (hnul : '\x00' ∉ rest)
    (hbegin : ∀ s : Scanner, s.begin? d c = some (s.enter c (.word rest a s.offset))) :
    Scans d (c :: rest) [.atom a] := by
  intro s before hs
  obtain ⟨r, hr, hbetween⟩ :=
    run?_word (d := d) hne hnul (s := s.enter c (.word rest a s.offset)) rfl
  refine ⟨r, ?_, .between ?_⟩
  · rw [run?_cons, hs.step? hc, hbegin]
    exact hr
  · rw [← hs.2]
    exact hbetween

theorem scans_null : Scans .lenient "null".toList [.atom .null] :=
  Scans.word (by decide) (by decide) (by decide) fun _ => rfl

theorem scans_true : Scans .lenient "true".toList [.atom (.bool true)] :=
  Scans.word (by decide) (by decide) (by decide) fun _ => rfl

theorem scans_false : Scans .lenient "false".toList [.atom (.bool false)] :=
  Scans.word (by decide) (by decide) (by decide) fun _ => rfl

/-! ## String literals -/

namespace Scanner

/-- The scanner is inside a literal whose text so far, reversed, is given, with the tokens in front
of it. -/
def Inside (s : Scanner) (part : StringPart) (text : List Char) (ts : List Token) : Prop :=
  (∃ start, s.mode = .string part text start) ∧ s.tokens = ts

theorem Inside.step? {s : Scanner} {part part' : StringPart} {text : List Char} {ts : List Token}
    (h : s.Inside part text ts) {c : Char} (hnul : c ≠ '\x00') (hquote : c ≠ '"' ∨ part = .escape)
    (hnext : part.next? d c = some part') :
    ∃ r, s.step? d c = some r ∧ r.Inside part' (c :: text) ts := by
  obtain ⟨⟨start, hmode⟩, htokens⟩ := h
  have hopen : (c == '"' && part.isClosable) = false := by
    rcases hquote with hquote | rfl
    · rw [beq_eq_false_iff_ne.2 hquote]
      rfl
    · exact Bool.and_false _
  refine ⟨s.enter c (.string part' (c :: text) start), ?_, ⟨start, rfl⟩, htokens⟩
  rw [Scanner.step?, if_neg (by simpa using hnul), hmode]
  simp only [hopen, hnext]
  rfl

/-- A run of characters that stand for themselves. -/
theorem Inside.run?_plain {s : Scanner} {text : List Char} {ts : List Token}
    (h : s.Inside .content text ts)
    {cs : List Char} (hplain : ∀ c ∈ cs, c ≠ '"' ∧ c ≠ '\\' ∧ 0x20 ≤ c.toNat) :
    ∃ r, s.run? d cs = some r ∧ r.Inside .content (cs.reverse ++ text) ts := by
  apply exists_run? (I := fun text s => s.Inside .content text ts) _ h
  intro c hc text s hs
  obtain ⟨hquote, hbackslash, hlow⟩ := hplain c hc
  have hnul : c ≠ '\x00' := by
    rintro rfl
    exact absurd hlow (by decide)
  have hline : c ≠ '\n' := by
    rintro rfl
    exact absurd hlow (by decide)
  have hnext : StringPart.content.next? d c = some .content := by
    rw [StringPart.next?, if_neg (by simpa using hline), if_neg (by simpa using hbackslash)]
  exact hs.step? hnul (.inl hquote) hnext

theorem Inside.run?_pair {s : Scanner} {text : List Char} {ts : List Token}
    (h : s.Inside .content text ts) {c : Char} (hc : isEscapable c = true) :
    ∃ r, s.run? d ['\\', c] = some r ∧ r.Inside .content (c :: '\\' :: text) ts := by
  have hnul : c ≠ '\x00' := by
    rintro rfl
    exact absurd hc (by decide)
  obtain ⟨r, hr, hinside⟩ := h.step? (d := d) (c := '\\') (by decide) (.inl (by decide)) rfl
  obtain ⟨q, hq, hend⟩ := hinside.step? (d := d) hnul (.inr rfl) (if_pos hc)
  refine ⟨q, ?_, hend⟩
  rw [run?_cons, hr, Option.bind_some, run?_cons, hq]
  rfl

theorem Inside.run?_escape {s : Scanner} {text : List Char} {ts : List Token}
    (h : s.Inside .content text ts) (c : Char) :
    ∃ r, s.run? d (escape c) = some r ∧ r.Inside .content ((escape c).reverse ++ text) ts := by
  rcases escape_cases c with ⟨e, he, -, hmeant⟩ | ⟨a, b, he, -, ha, hb⟩ | ⟨he, hplain⟩
  · rw [he]
    exact h.run?_pair (isEscapable_of_unescape? hmeant)
  · obtain ⟨r, hr, hinside⟩ := h.run?_pair (d := d) (c := 'u') (by decide)
    have hdigits : ∀ x ∈ ['0', '0', a, b], x ≠ '"' ∧ x ≠ '\\' ∧ 0x20 ≤ x.toNat := by
      intro x hx
      simp only [List.mem_cons, List.not_mem_nil, or_false] at hx
      rcases hx with rfl | rfl | rfl | rfl
      · exact plain_of_hexDigit? rfl
      · exact plain_of_hexDigit? rfl
      · exact plain_of_hexDigit? ha
      · exact plain_of_hexDigit? hb
    obtain ⟨q, hq, hend⟩ := hinside.run?_plain (d := d) hdigits
    refine ⟨q, ?_, by rw [he]; exact hend⟩
    have hsplit : escape c = ['\\', 'u'] ++ ['0', '0', a, b] := he
    rw [hsplit, run?_append, hr]
    exact hq
  · rw [he]
    apply h.run?_plain
    intro x hx
    obtain rfl := List.mem_singleton.1 hx
    exact hplain

theorem Inside.run?_flatMap_escape {s : Scanner} {text : List Char} {ts : List Token}
    (h : s.Inside .content text ts) (cs : List Char) :
    ∃ r, s.run? d (cs.flatMap escape) = some r ∧
      r.Inside .content ((cs.flatMap escape).reverse ++ text) ts := by
  apply exists_run?_flatMap (I := fun text s => s.Inside .content text ts) _ h
  intro c _ text s hs
  exact hs.run?_escape c

theorem Inside.close {s : Scanner} {text : List Char} {ts : List Token}
    (h : s.Inside .content text ts) :
    ∃ r, s.step? d '"' = some r ∧ r.Between (ts ++ [.atom (.string ('"' :: text).reverse)]) := by
  obtain ⟨⟨start, hmode⟩, htokens⟩ := h
  refine ⟨s.emit (.atom (.string ('"' :: text).reverse)) start (s.offset + '"'.utf8Size), ?_,
    between_emit htokens _ _ _⟩
  rw [Scanner.step?, hmode]
  rfl

end Scanner

/-- A literal is one token, with its quotes. -/
theorem scans_writeLiteral (text : List Char) :
    Scans .lenient (writeLiteral text) [.atom (.string (writeLiteral text))] := by
  intro s before hs
  have hopen : (s.enter '"' (.string .content ['"'] s.offset)).Inside .content ['"'] before :=
    ⟨⟨s.offset, rfl⟩, hs.2⟩
  obtain ⟨r, hr, hinside⟩ := hopen.run?_flatMap_escape (d := .lenient) text
  obtain ⟨q, hq, hend⟩ := hinside.close (d := .lenient)
  refine ⟨q, ?_, .between ?_⟩
  · rw [writeLiteral, run?_cons, hs.step? (by decide)]
    have hbegin : s.begin? .lenient '"' = some (s.enter '"' (.string .content ['"'] s.offset)) :=
      rfl
    rw [hbegin, Option.bind_some, run?_append, hr, Option.bind_some, run?_cons, hq]
    rfl
  · have htext : writeLiteral text = ('"' :: ((text.flatMap escape).reverse ++ ['"'])).reverse := by
      simp [writeLiteral]
    rw [htext]
    exact hend

/-! ## Integers -/

theorem exists_digitChar {c : Char} (h : c.isDigit = true) : ∃ k < 10, Nat.digitChar k = c := by
  have hrange : 48 ≤ c.toNat ∧ c.toNat ≤ 57 := Char.isDigit_iff_toNat.1 h
  refine ⟨c.toNat - 48, by omega, Char.toNat_inj.1 ?_⟩
  rw [Nat.toNat_digitChar_of_lt_ten (by omega)]
  omega

theorem ne_nul_of_isDigit {c : Char} (h : c.isDigit = true) : c ≠ '\x00' :=
  Text.ne_of_isDigit h rfl

def NumberPart.ofDigit (c : Char) : NumberPart := if c = '0' then .zero else .digits

namespace Scanner

theorem begin?_digit {c : Char} (h : c.isDigit = true) (s : Scanner) :
    s.begin? .lenient c = some (s.enter c (.number (.ofDigit c) [c] s.offset)) := by
  obtain ⟨k, hk, rfl⟩ := exists_digitChar h
  match k, hk with
  | 0, _ | 1, _ | 2, _ | 3, _ | 4, _ | 5, _ | 6, _ | 7, _ | 8, _ | 9, _ => rfl

/-- The scanner is inside a number whose text so far, reversed, is given, with the tokens in front
of it. -/
def Counting (s : Scanner) (part : NumberPart) (text : List Char) (ts : List Token) : Prop :=
  (∃ start, s.mode = .number part text start) ∧ s.tokens = ts

theorem Counting.step? {s : Scanner} {part part' : NumberPart} {text : List Char} {ts : List Token}
    (h : s.Counting part text ts) {c : Char} (hnul : c ≠ '\x00')
    (hnext : part.next? d c = some part') :
    ∃ r, s.step? d c = some r ∧ r.Counting part' (c :: text) ts := by
  obtain ⟨⟨start, hmode⟩, htokens⟩ := h
  refine ⟨s.enter c (.number part' (c :: text) start), ?_, ⟨start, rfl⟩, htokens⟩
  rw [Scanner.step?, if_neg (by simpa using hnul), hmode]
  simp only [hnext]

/-- Digits that do not change how far the number has been read. -/
theorem Counting.run?_digits {s : Scanner} {part : NumberPart} {text : List Char} {ts : List Token}
    (h : s.Counting part text ts)
    (hpart : ∀ c : Char, c.isDigit = true → part.next? d c = some part)
    {cs : List Char} (hcs : ∀ c ∈ cs, c.isDigit = true) :
    ∃ r, s.run? d cs = some r ∧ r.Counting part (cs.reverse ++ text) ts := by
  apply exists_run? (I := fun text s => s.Counting part text ts) _ h
  intro c hc text s hs
  exact hs.step? (ne_nul_of_isDigit (hcs c hc)) (hpart c (hcs c hc))

theorem Counting.behind {s : Scanner} {part : NumberPart} {text : List Char} {ts : List Token}
    (h : s.Counting part text ts) (hcomplete : part.isComplete d = true) :
    s.Behind d (ts ++ [.atom (.number text.reverse)]) := by
  obtain ⟨⟨start, hmode⟩, htokens⟩ := h
  exact .number hmode hcomplete htokens

/-- The scanner takes any digit as the first one of a number, whose sign is the text. -/
def Starting (d : Dialect) (s : Scanner) (text : List Char) (ts : List Token) : Prop :=
  ∀ c : Char, c.isDigit = true → ∃ r, s.step? d c = some r ∧ r.Counting (.ofDigit c) (c :: text) ts

/-- A number begins with its first digit, or with a sign in front of that. -/
theorem Between.run?_sign {s : Scanner} {ts : List Token} (hs : s.Between ts) (negative : Bool) :
    ∃ r, s.run? .lenient (Text.signText negative) = some r ∧
      r.Starting .lenient (Text.signText negative) ts := by
  cases negative with
  | true =>
    refine ⟨s.enter '-' (.number .sign ['-'] s.offset), ?_, ?_⟩
    · rw [Text.signText, if_pos rfl, run?_cons, hs.step? (by decide)]
      rfl
    · intro c hc
      have hsign : (s.enter '-' (.number .sign ['-'] s.offset)).Counting .sign ['-'] ts :=
        ⟨⟨s.offset, rfl⟩, hs.2⟩
      apply hsign.step? (ne_nul_of_isDigit hc)
      rw [NumberPart.next?, NumberPart.ofDigit, if_pos hc]
      by_cases hzero : c = '0' <;> simp [hzero]
  | false =>
    refine ⟨s, rfl, ?_⟩
    intro c hc
    refine ⟨s.enter c (.number (.ofDigit c) [c] s.offset), ?_, ⟨s.offset, rfl⟩, hs.2⟩
    rw [hs.step? (ne_nul_of_isDigit hc), begin?_digit hc]

/-- The digits in front of a point, where zero stands alone only. -/
theorem Starting.run?_digits {s : Scanner} {text : List Char} {ts : List Token}
    (h : s.Starting d text ts) {c : Char} {rest : List Char} (proper : c = '0' → rest = [])
    (hdigits : ∀ x ∈ c :: rest, x.isDigit = true) :
    ∃ r, s.run? d (c :: rest) = some r ∧
      r.Counting (.ofDigit c) ((c :: rest).reverse ++ text) ts := by
  obtain ⟨r, hr, hcounting⟩ := h c (hdigits c (by simp))
  by_cases hzero : c = '0'
  · obtain rfl := proper hzero
    refine ⟨r, ?_, hcounting⟩
    rw [run?_cons, hr]
    rfl
  · rw [NumberPart.ofDigit, if_neg hzero] at hcounting ⊢
    obtain ⟨q, hq, hend⟩ := hcounting.run?_digits (d := d) (fun x hx => if_pos hx)
      fun x hx => hdigits x (List.mem_cons_of_mem c hx)
    refine ⟨q, ?_, ?_⟩
    · rw [run?_cons, hr]
      exact hq
    · rw [List.reverse_cons, List.append_assoc]
      exact hend

end Scanner

theorem NumberPart.isComplete_ofDigit (c : Char) : (NumberPart.ofDigit c).isComplete d = true := by
  rw [ofDigit]
  split <;> rfl

/-- The decimal text of an integer is one token. -/
theorem scans_ofInt (i : Int) : Scans .lenient (Text.ofInt i) [.atom (.number (Text.ofInt i))] := by
  intro s before hs
  obtain ⟨r, hr, hstarting⟩ := hs.run?_sign (decide (i < 0))
  obtain ⟨c, rest, hdigits, proper⟩ := Text.exists_toDigits_eq i.natAbs
  have hall := List.all_eq_true.1 (Text.all_isDigit_toDigits i.natAbs)
  rw [hdigits] at hall
  obtain ⟨q, hq, hcounting⟩ := hstarting.run?_digits proper hall
  have hend := hcounting.behind (d := .lenient) (NumberPart.isComplete_ofDigit c)
  refine ⟨q, ?_, ?_⟩
  · rw [Text.ofInt_eq, hdigits, run?_append, hr]
    exact hq
  · rw [Text.ofInt_eq, hdigits]
    rwa [List.reverse_append, List.reverse_reverse, Text.reverse_signText] at hend

end DagSelect.Json
