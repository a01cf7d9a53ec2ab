import DagSelect.Binary64.Text
import DagSelect.Proofs.Binary64.Shortest
import DagSelect.Proofs.Text.Decimal

/-!
# Written numbers

A `Numeral` is a number as it is written: digits, a point with digits behind it and an exponent, of
which the latter two may be left out. Every decimal is written as a numeral of its value
(`Decimal.exists_numeral`), and reading one rounds its value (`Numeral.ofText_text`).
-/

namespace DagSelect

/-- A number as it is written, without its sign. Only a lone zero begins with zero. -/
structure Numeral where
  first : Char
  whole : List Char
  fraction : List Char
  exponent : Option ℤ
  isDigit : ∀ c ∈ first :: (whole ++ fraction), c.isDigit = true
  proper : first = '0' → whole = []

namespace Numeral

def fractionText (n : Numeral) : List Char := if n.fraction = [] then [] else '.' :: n.fraction

/-- The mark, the sign, which is never left out, and the digits of the exponent, or nothing. -/
def exponentText (n : Numeral) : List Char :=
  match n.exponent with
  | none => []
  | some e => 'e' :: (if e < 0 then '-' else '+') :: Nat.toDigits 10 e.natAbs

def text (n : Numeral) : List Char := n.first :: n.whole ++ n.fractionText ++ n.exponentText

def coefficient (n : Numeral) : ℕ := Text.naturalOfDigits (n.first :: n.whole ++ n.fraction)

def place (n : Numeral) : ℤ := n.exponent.getD 0 - n.fraction.length

/-! ## Reading -/

theorem takeWhile_append_cons {α : Type} {p : α → Bool} {a b : List α} (ha : ∀ x ∈ a, p x = true)
    (hb : ∀ x ∈ b.head?, p x = false) : (a ++ b).takeWhile p = a ∧ (a ++ b).dropWhile p = b := by
  rw [List.takeWhile_append_of_pos ha, List.dropWhile_append_of_pos ha]
  cases b with
  | nil => simp
  | cons x b =>
    have hx : p x = false := hb x rfl
    simp [hx]

theorem exponentOfText_exponentText (n : Numeral) :
    Binary64.exponentOfText (n.exponentText.drop 1) = n.exponent.getD 0 := by
  rw [exponentText]
  cases n.exponent with
  | none => rfl
  | some e =>
    have hdigits := Text.naturalOfDigits_toDigits e.natAbs
    by_cases hneg : e < 0
    · simp only [if_pos hneg, List.drop_one, List.tail_cons, Binary64.exponentOfText, hdigits,
        Option.getD_some]
      omega
    · simp only [if_neg hneg, List.drop_one, List.tail_cons, Binary64.exponentOfText, hdigits,
        Option.getD_some]
      omega

theorem mem_mantissa (n : Numeral) {c : Char} (h : c ∈ n.first :: n.whole ++ n.fractionText) :
    c.isDigit = true ∨ c = '.' := by
  rw [fractionText] at h
  rcases List.mem_append.1 h with h | h
  · exact .inl (n.isDigit c (List.mem_append_left n.fraction h))
  · split_ifs at h
    · cases h
    · rcases List.mem_cons.1 h with rfl | h
      · exact .inr rfl
      · exact .inl (n.isDigit c (List.mem_append_right (n.first :: n.whole) h))

/-- There is a point or a mark in the text of a numeral that is no integer. -/
theorem mem_text (n : Numeral) (h : n.exponent = none → n.fraction ≠ []) :
    '.' ∈ n.text ∨ 'e' ∈ n.text := by
  cases hexponent : n.exponent with
  | none =>
    have hpoint : '.' ∈ n.fractionText := by simp [fractionText, h hexponent]
    exact .inl (List.mem_append_left _ (List.mem_append_right _ hpoint))
  | some e =>
    have hmark : 'e' ∈ n.exponentText := by simp [exponentText, hexponent]
    exact .inr (List.mem_append_right _ hmark)

/-- Reading a numeral rounds the number it stands for. -/
theorem ofText_text (n : Numeral) (negative : Bool) :
    Binary64.ofText (Text.signText negative ++ n.text) =
      Binary64.ofDecimal negative n.coefficient n.place := by
  have hdigits : ∀ c ∈ n.first :: n.whole, c.isDigit = true := by
    intro c hc
    exact n.isDigit c (List.mem_append_left n.fraction hc)
  have hhead : ((Text.signText negative ++ n.text).head? == some '-') = negative := by
    cases negative with
    | true => rfl
    | false =>
      have hfirst : n.first ≠ '-' := Text.ne_of_isDigit (hdigits _ (by simp)) rfl
      simpa [Text.signText, text] using hfirst
  have hunsigned : (if negative then (Text.signText negative ++ n.text).tail
      else Text.signText negative ++ n.text) = n.text := by
    cases negative <;> rfl
  have hpoint : n.fractionText.drop 1 = n.fraction ∧
      ∀ c ∈ n.fractionText.head?, (c != '.') = false := by
    rw [fractionText]
    split_ifs with hnone
    · simp [hnone]
    · simp
  have hmark : ∀ c ∈ n.exponentText.head?, (!(c == 'e' || c == 'E')) = false := by
    rw [exponentText]
    cases n.exponent <;> simp
  have hmantissa : ∀ c ∈ n.first :: n.whole ++ n.fractionText,
      (!(c == 'e' || c == 'E')) = true := by
    intro c hc
    rcases n.mem_mantissa hc with hdigit | rfl
    · simp [Text.ne_of_isDigit (d := 'e') hdigit rfl, Text.ne_of_isDigit (d := 'E') hdigit rfl]
    · rfl
  obtain ⟨hbefore, hbehind⟩ := takeWhile_append_cons hmantissa hmark
  obtain ⟨hwhole, hfraction⟩ := takeWhile_append_cons (a := n.first :: n.whole)
    (fun c hc => bne_iff_ne.2 (Text.ne_of_isDigit (hdigits c hc) rfl)) hpoint.2
  simp only [Binary64.ofText, hhead, hunsigned]
  rw [text, hbefore, hbehind, hwhole, hfraction, exponentOfText_exponentText, hpoint.1]
  rfl

/-! ## Writing -/

/-- The numeral stands for the digits, the first of which is at the place `lead`. -/
def Spells (n : Numeral) (digits : List Char) (lead : ℤ) : Prop :=
  (n.coefficient * 10 ^ n.place : ℚ) =
    Text.naturalOfDigits digits * 10 ^ (lead + 1 - digits.length)

end Numeral

namespace Decimal

section

variable {first : Char} {rest : List Char} {lead : ℤ}

/-- Zeros stand in front of digits behind the point. -/
theorem exists_numeral_of_lead_neg {digits : List Char} (hlead : lead < 0) (hne : digits ≠ [])
    (hdigits : ∀ c ∈ digits, c.isDigit = true) :
    ∃ n : Numeral, n.text = '0' :: '.' :: (List.replicate (-lead - 1).toNat '0' ++ digits) ∧
      n.exponent = none ∧ n.fraction ≠ [] ∧ n.Spells digits lead := by
  have hall : ∀ c ∈ List.replicate ((-lead - 1).toNat + 1) '0' ++ digits, c.isDigit = true :=
    fun c hc => (List.mem_append.1 hc).elim Text.isDigit_of_mem_zeros (hdigits c)
  refine ⟨⟨'0', [], List.replicate (-lead - 1).toNat '0' ++ digits, none, hall, fun _ => rfl⟩,
    ?_, rfl, by simp [hne], ?_⟩
  · simp [Numeral.text, Numeral.fractionText, Numeral.exponentText, hne]
  · have hvalue := Text.naturalOfDigits_zeros_append ((-lead - 1).toNat + 1) digits
    have hplace : (0 : ℤ) - (List.replicate (-lead - 1).toNat '0' ++ digits).length =
        lead + 1 - digits.length := by
      rw [List.length_append, List.length_replicate]
      omega
    rw [Numeral.Spells, ← hvalue, ← hplace]
    rfl

/-- Zeros stand behind digits in front of the point, and one behind it. -/
theorem exists_numeral_padded {k : ℕ} (hlead : lead = (rest.length + k : ℕ))
    (hfirst : first ≠ '0') (hdigits : ∀ c ∈ first :: rest, c.isDigit = true) :
    ∃ n : Numeral, n.text = first :: rest ++ List.replicate k '0' ++ ['.', '0'] ∧
      n.exponent = none ∧ n.fraction ≠ [] ∧ n.Spells (first :: rest) lead := by
  have hsplit : first :: (rest ++ List.replicate k '0') ++ ['0'] =
      first :: rest ++ List.replicate (k + 1) '0' := by
    rw [List.replicate_succ', ← List.append_assoc]
    rfl
  have hall : ∀ c ∈ first :: (rest ++ List.replicate k '0') ++ ['0'], c.isDigit = true := by
    rw [hsplit]
    exact fun c hc => (List.mem_append.1 hc).elim (hdigits c) Text.isDigit_of_mem_zeros
  refine ⟨⟨first, rest ++ List.replicate k '0', ['0'], none, hall, fun h => absurd h hfirst⟩,
    ?_, rfl, by simp, ?_⟩
  · simp [Numeral.text, Numeral.fractionText, Numeral.exponentText]
  · have hvalue := Text.naturalOfDigits_append_zeros (k + 1) (first :: rest)
    have hplace : lead + 1 - (first :: rest).length = k := by
      rw [hlead, List.length_cons]
      push_cast
      ring
    rw [← hsplit, Nat.pow_eq] at hvalue
    rw [Numeral.Spells, hplace, zpow_natCast]
    change (Text.naturalOfDigits _ * 10 ^ (0 - (1 : ℕ) : ℤ) : ℚ) = _
    rw [hvalue, zero_sub, zpow_neg, zpow_natCast, pow_one]
    push_cast
    ring

/-- The point stands among the digits. -/
theorem exists_numeral_split {k : ℕ} (hlead : lead = k) (hk : k < rest.length)
    (hfirst : first ≠ '0') (hdigits : ∀ c ∈ first :: rest, c.isDigit = true) :
    ∃ n : Numeral, n.text = (first :: rest).take (k + 1) ++ '.' :: (first :: rest).drop (k + 1) ∧
      n.exponent = none ∧ n.fraction ≠ [] ∧ n.Spells (first :: rest) lead := by
  have hsplit : first :: rest.take k ++ rest.drop k = first :: rest := by
    rw [List.cons_append, List.take_append_drop]
  have hne : rest.drop k ≠ [] := by
    rw [Ne, List.drop_eq_nil_iff]
    omega
  have hall : ∀ c ∈ first :: rest.take k ++ rest.drop k, c.isDigit = true := by
    rw [hsplit]
    exact hdigits
  refine ⟨⟨first, rest.take k, rest.drop k, none, hall, fun h => absurd h hfirst⟩, ?_, rfl, hne,
    ?_⟩
  · simp [Numeral.text, Numeral.fractionText, Numeral.exponentText, hk]
  · have hplace : (0 : ℤ) - (rest.drop k).length = lead + 1 - (first :: rest).length := by
      rw [List.length_drop, List.length_cons]
      omega
    rw [Numeral.Spells, ← hplace, ← hsplit]
    rfl

/-- Digits around a point are a numeral without exponent. -/
theorem exists_numeral_positional (hfirst : first ≠ '0')
    (hdigits : ∀ c ∈ first :: rest, c.isDigit = true) :
    ∃ n : Numeral, n.text = positional (first :: rest) lead ∧ n.exponent = none ∧
      n.fraction ≠ [] ∧ n.Spells (first :: rest) lead := by
  simp only [positional]
  split_ifs with hneg hfits
  · exact exists_numeral_of_lead_neg hneg (by simp) hdigits
  · rw [List.length_cons] at hfits
    refine exists_numeral_padded ?_ hfirst hdigits
    rw [List.length_cons]
    omega
  · rw [List.length_cons] at hfits
    exact exists_numeral_split (by omega) (by omega) hfirst hdigits

/-- One digit in front of a point and a power of ten are a numeral with exponent. -/
theorem exists_numeral_scientific (hfirst : first ≠ '0')
    (hdigits : ∀ c ∈ first :: rest, c.isDigit = true) :
    ∃ n : Numeral, n.text = scientific (first :: rest) lead ∧ n.exponent = some lead ∧
      n.Spells (first :: rest) lead := by
  refine ⟨⟨first, [], rest, some lead, hdigits, fun h => absurd h hfirst⟩, ?_, rfl, ?_⟩
  · cases rest with
    | nil => simp [Numeral.text, Numeral.fractionText, Numeral.exponentText, scientific]
    | cons c rest => simp [Numeral.text, Numeral.fractionText, Numeral.exponentText, scientific]
  · have hplace : lead - rest.length = lead + 1 - (first :: rest).length := by
      rw [List.length_cons]
      omega
    rw [Numeral.Spells, ← hplace]
    rfl

end

/-- A decimal is written as a numeral of its value. Which one depends on the place of its first
digit, which is its logarithm. -/
theorem exists_numeral {d : Decimal} (hd : 0 < d.coefficient) (style : NumberStyle) :
    ∃ n : Numeral, n.text = d.text style ∧ (n.coefficient * 10 ^ n.place : ℚ) = d.value ∧
      if style.lowest ≤ Int.log 10 d.value ∧ Int.log 10 d.value ≤ style.highest then
        n.exponent = none ∧ n.fraction ≠ []
      else n.exponent = some (Int.log 10 d.value) := by
  obtain ⟨first, rest, hdigits, hfirst⟩ := Text.exists_toDigits_eq_cons hd
  have hall := List.all_eq_true.1 (Text.all_isDigit_toDigits d.coefficient)
  have hcoefficient := Text.naturalOfDigits_toDigits d.coefficient
  have hlog : Int.log 10 d.value = d.exponent + (Nat.toDigits 10 d.coefficient).length - 1 := by
    rw [Decimal.value, Binary64.log_decimal hd, Binary64.digitCount]
    ring
  have hspells {n : Numeral} (h : n.Spells (Nat.toDigits 10 d.coefficient) (Int.log 10 d.value)) :
      (n.coefficient * 10 ^ n.place : ℚ) = d.value := by
    rw [h, hcoefficient, hlog, sub_add_cancel, add_sub_cancel_right]
    rfl
  rw [text, ← hlog]
  rw [hdigits] at hall hspells ⊢
  split_ifs with hrange
  · obtain ⟨n, htext, hexponent, hfraction, hn⟩ := exists_numeral_positional hfirst hall
    exact ⟨n, htext, hspells hn, hexponent, hfraction⟩
  · obtain ⟨n, htext, hexponent, hn⟩ := exists_numeral_scientific hfirst hall
    exact ⟨n, htext, hspells hn, hexponent⟩

end Decimal

end DagSelect
