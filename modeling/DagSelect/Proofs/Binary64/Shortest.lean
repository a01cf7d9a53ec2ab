import DagSelect.Proofs.Binary64.Rounding
import Mathlib.Data.Nat.Cast.Order.Field

/-!
# The shortest decimal rounds back

The decimal that is written for a double is one the double attracts (`attracts_shortest`), so it
rounds back to it. Of the grids that are tried the last one has seventeen digits. Its points are
closer together than the ends of the interval, so one of the two around the value is inside.
-/

namespace DagSelect

def Decimal.value (d : Decimal) : ℚ := d.coefficient * 10 ^ d.exponent

namespace Binary64

variable {x : Binary64}

/-! ## The interval -/

theorem interval_den_pos (x : Binary64) : 0 < x.interval.den := Nat.pow_pos (by decide)

theorem cast_interval (n : ℕ) :
    ((n * Nat.pow 2 (x.exponent - 2).toNat : ℕ) : ℚ) / x.interval.den =
      n / 4 * 2 ^ x.exponent := by
  have h := cast_scaled_mul n 2 (x.exponent - 2)
  rw [Nat.cast_ofNat, zpow_sub₀ (by norm_num)] at h
  rw [interval, h]
  ring

theorem interval_value (x : Binary64) : (x.interval.value : ℚ) / x.interval.den = x.value := by
  refine (cast_interval (4 * x.significand)).trans ?_
  rw [value]
  push_cast
  ring

theorem interval_high (x : Binary64) : (x.interval.high : ℚ) / x.interval.den = x.upper := by
  refine (cast_interval (4 * x.significand + 2)).trans ?_
  rw [upper, value]
  push_cast
  ring

theorem interval_low (hzero : x.isZero = false) :
    (x.interval.low : ℚ) / x.interval.den = x.lower := by
  have hpos := significand_pos x hzero
  refine (cast_interval (4 * x.significand -
    if x.significand = leadingOne ∧ -1074 < x.exponent then 1 else 2)).trans ?_
  rw [lower, value, leadingOne_eq]
  split_ifs
  · rw [Nat.cast_sub (by omega)]
    push_cast
    ring
  · rw [Nat.cast_sub (by omega)]
    push_cast
    ring

/-- The fractions are compared by cross-multiplication. -/
theorem Interval.contains_iff {i : Interval} (hden : 0 < i.den) (c : ℕ) (place : ℤ) :
    i.contains c place = true ↔
      Between (i.closed = true) (i.low / i.den) (c * 10 ^ place) (i.high / i.den) := by
  have hpoint := cast_scaled_mul c 10 place
  rw [Nat.cast_ofNat] at hpoint
  have hpow : (0 : ℚ) < (Nat.pow 10 (-place).toNat : ℕ) :=
    Nat.cast_pos.2 (Nat.pow_pos (by decide))
  have hden : (0 : ℚ) < i.den := Nat.cast_pos.2 hden
  have hle (n : ℕ) : n * Nat.pow 10 (-place).toNat ≤ c * Nat.pow 10 place.toNat * i.den ↔
      (n / i.den : ℚ) ≤ c * 10 ^ place := by
    rw [← hpoint, div_le_div_iff₀ hden hpow]
    exact_mod_cast Iff.rfl
  have hge (n : ℕ) : c * Nat.pow 10 place.toNat * i.den ≤ n * Nat.pow 10 (-place).toNat ↔
      (c * 10 ^ place : ℚ) ≤ n / i.den := by
    rw [← hpoint, div_le_div_iff₀ hpow hden]
    exact_mod_cast Iff.rfl
  simp only [contains, ← not_le, hle, hge]
  cases hclosed : i.closed with
  | true =>
    rw [if_pos rfl, decide_eq_true_iff]
    exact ⟨fun ⟨hl, hh⟩ => ⟨hl, hh, .inl rfl⟩, fun h => ⟨h.low_le, h.le_high⟩⟩
  | false =>
    rw [if_neg Bool.false_ne_true, decide_eq_true_iff, not_le, not_le]
    exact ⟨fun ⟨hl, hh⟩ => .of_inside hl hh, fun h => h.inside.resolve_left Bool.false_ne_true⟩

theorem contains_iff_attracts (hzero : x.isZero = false) (c : ℕ) (place : ℤ) :
    x.interval.contains c place = true ↔ x.Attracts (c * 10 ^ place) := by
  have hclosed : x.interval.closed = true ↔ x.significand % 2 = 0 := beq_iff_eq
  rw [Interval.contains_iff x.interval_den_pos, interval_low hzero, interval_high, hclosed]
  rfl

/-- The ends are further apart than the points of a grid of seventeen digits. -/
theorem value_div_lt (x : Binary64) : x.value / 10 ^ 16 < x.upper - x.lower := by
  have hpow := x.zpow_exponent_pos
  have hlt : (x.significand : ℚ) < 2 ^ 53 := by exact_mod_cast x.significand_lt
  rw [upper, lower, value]
  split_ifs with hone
  · rw [hone.1]
    push_cast
    linarith
  · have := mul_lt_mul_of_pos_right hlt hpow
    linarith

/-! ## Grids -/

theorem zpow_leadingDigit_le {num den : ℕ} (hnum : 0 < num) (hden : 0 < den) :
    (10 : ℚ) ^ leadingDigit num den ≤ num / den := by
  rw [leadingDigit]
  split_ifs with hle
  · have hq : 0 < num / den := Nat.div_pos hle hden
    have hcount := digitCount_pos (num / den)
    have hexp : (digitCount (num / den) - 1 : ℤ) = (digitCount (num / den) - 1 : ℕ) := by omega
    calc (10 : ℚ) ^ (digitCount (num / den) - 1 : ℤ)
        = (10 ^ (digitCount (num / den) - 1) : ℕ) := by rw [hexp, zpow_natCast]; norm_cast
      _ ≤ (num / den : ℕ) := Nat.cast_le.2 (pow_digitCount_le hq)
      _ ≤ num / den := Nat.cast_div_le
  · let above : ℕ := (den + num - 1) / num
    have hceil : den ≤ num * above := by
      have hsplit := Nat.div_add_mod (den + num - 1) num
      have hrest := Nat.mod_lt (den + num - 1) hnum
      change num * above + _ = _ at hsplit
      omega
    have hpow : above ≤ 10 ^ digitCount (above - 1) := by
      have := lt_pow_digitCount (above - 1)
      omega
    have hle : (den : ℚ) ≤ num * 10 ^ digitCount (above - 1) := by
      exact_mod_cast hceil.trans (Nat.mul_le_mul_left num hpow)
    rw [zpow_neg, zpow_natCast, inv_le_iff_one_le_mul₀ (by positivity), div_mul_eq_mul_div,
      one_le_div (Nat.cast_pos.2 hden)]
    exact hle

theorem contains_of_nearest? {i : Interval} {place : ℤ} {c : ℕ} (h : i.nearest? place = some c) :
    i.contains c place = true := by
  simp only [Interval.nearest?] at h
  split at h
  · next hbelow habove =>
    split at h
    · cases h
      exact hbelow
    · cases h
      exact habove
  · next hbelow _ =>
    cases h
    exact hbelow
  · next _ habove =>
    cases h
    exact habove
  · cases h

/-- No neighbour is found only if neither is in the interval. -/
theorem not_contains_of_nearest? {i : Interval} (hden : 0 < i.den) {place : ℤ}
    (h : i.nearest? place = none) :
    ∃ below : ℕ, below * 10 ^ place ≤ (i.value / i.den : ℚ) ∧
      (i.value / i.den : ℚ) < (below + 1) * 10 ^ place ∧
      i.contains below place = false ∧ i.contains (below + 1) place = false := by
  have hscaled := cast_scaled i.value i.den 10 place
  rw [Nat.cast_ofNat] at hscaled
  have hpow : (0 : ℚ) < 10 ^ place := zpow_pos (by norm_num) _
  have hpos : 0 < i.den * Nat.pow 10 place.toNat := Nat.mul_pos hden (Nat.pow_pos (by decide))
  refine ⟨i.value * Nat.pow 10 (-place).toNat / (i.den * Nat.pow 10 place.toNat), ?_, ?_, ?_⟩
  · rw [← le_div_iff₀ hpow, ← hscaled]
    exact Nat.cast_div_le
  · rw [← div_lt_iff₀ hpow, ← hscaled, div_lt_iff₀' (Nat.cast_pos.2 hpos)]
    exact_mod_cast Nat.lt_mul_div_succ _ hpos
  · simp only [Interval.nearest?] at h
    split at h
    · split at h <;> cases h
    · cases h
    · cases h
    · next hbelow habove => exact ⟨hbelow, habove⟩

/-- On a grid that is finer than the ends are apart, one of the neighbours is found. -/
theorem nearest?_ne_none (hzero : x.isZero = false) {place : ℤ}
    (hplace : (10 : ℚ) ^ place ≤ x.value / 10 ^ 16) : x.interval.nearest? place ≠ none := by
  intro h
  obtain ⟨below, hle, hlt, hbelow, habove⟩ := not_contains_of_nearest? x.interval_den_pos h
  rw [interval_value] at hle hlt
  rw [Bool.eq_false_iff, Ne, contains_iff_attracts hzero] at hbelow habove
  have hpow := x.zpow_exponent_pos
  have hgap := hplace.trans_lt (x.value_div_lt)
  have hupper : x.value < x.upper := by
    rw [upper]
    linarith
  have hlower : x.lower < x.value := by
    rw [lower]
    split_ifs <;> linarith
  by_cases hin : x.lower < below * 10 ^ place
  · exact hbelow (.of_inside hin (hle.trans_lt hupper))
  · apply habove
    push_cast
    exact .of_inside (hlower.trans hlt) (by linarith)

/-! ## The decimal -/

/-- The decimal that is tried on the grid with so many digits behind the first one. A neighbour that
has one digit more is a power of ten, and is written as that. -/
def onGrid? (x : Binary64) (digits : ℕ) : Option Decimal :=
  let lead := leadingDigit x.interval.value x.interval.den
  (x.interval.nearest? (lead - digits)).map fun c =>
    if c = Nat.pow 10 (digits + 1) then Decimal.mk 1 (lead + 1) else Decimal.mk c (lead - digits)

theorem shortest_eq (x : Binary64) :
    x.shortest = ((List.range 17).findSome? x.onGrid?).getD ⟨x.significand, x.exponent⟩ := rfl

theorem attracts_of_onGrid? (hzero : x.isZero = false) {digits : ℕ} {d : Decimal}
    (h : x.onGrid? digits = some d) : x.Attracts d.value := by
  obtain ⟨c, hc, rfl⟩ := Option.map_eq_some_iff.1 h
  have hattracts := (contains_iff_attracts hzero _ _).1 (contains_of_nearest? hc)
  split_ifs with hcarry
  · rw [Decimal.value, Nat.cast_one, one_mul]
    rw [hcarry, Nat.pow_eq, Nat.cast_pow, Nat.cast_ofNat, ← zpow_natCast,
      ← zpow_add₀ (by norm_num)] at hattracts
    have hexp : ((digits + 1 : ℕ) : ℤ) + (leadingDigit x.interval.value x.interval.den - digits) =
        leadingDigit x.interval.value x.interval.den + 1 := by omega
    rwa [hexp] at hattracts
  · exact hattracts

/-- Seventeen digits are enough. -/
theorem onGrid?_sixteen (hzero : x.isZero = false) : x.onGrid? 16 ≠ none := by
  have hvalue : 0 < x.interval.value :=
    Nat.mul_pos (Nat.mul_pos (by decide) (x.significand_pos hzero)) (Nat.pow_pos (by decide))
  have hlead := zpow_leadingDigit_le hvalue x.interval_den_pos
  rw [interval_value] at hlead
  rw [onGrid?, Ne, Option.map_eq_none_iff]
  apply nearest?_ne_none hzero
  rw [zpow_sub₀ (by norm_num)]
  exact div_le_div_of_nonneg_right hlead (by positivity)

/-- The decimal that is written for a double is one that rounds to it. -/
theorem attracts_shortest (hzero : x.isZero = false) : x.Attracts x.shortest.value := by
  rw [shortest_eq]
  cases hfound : (List.range 17).findSome? x.onGrid? with
  | none =>
    have hnone := List.findSome?_eq_none_iff.1 hfound 16 (by decide)
    exact absurd hnone (onGrid?_sixteen hzero)
  | some d =>
    obtain ⟨digits, -, hd⟩ := List.exists_of_findSome?_eq_some hfound
    exact attracts_of_onGrid? hzero hd

theorem coefficient_shortest_pos (hzero : x.isZero = false) : 0 < x.shortest.coefficient :=
  (attracts_shortest hzero).coefficient_pos hzero

end Binary64

end DagSelect
