import DagSelect.Proofs.Binary64.Value
import Mathlib.Data.Int.Log
import Mathlib.Data.Rat.Floor
import Mathlib.Tactic.FieldSimp
import Mathlib.Tactic.GCongr

/-!
# Rounding finds the double

A quotient that a double attracts is rounded to that double (`ofRatio_of_attracts`), and so is a
decimal (`ofDecimal_of_attracts`). The place of the last bit is that of the double, except just
below a power of two, where it is one lower and the rounded integer carries into the next place.

Quotients and decimals are compared as rational numbers: a quotient of naturals that are scaled by a
power, up or down, is the quotient divided by that power (`cast_scaled`).
-/

namespace DagSelect

/-- Scaling numerator or denominator divides by a power, whatever the sign of its exponent. -/
theorem cast_scaled (num den b : ℕ) (place : ℤ) :
    ((num * Nat.pow b (-place).toNat : ℕ) : ℚ) / (den * Nat.pow b place.toNat : ℕ) =
      (num / den : ℚ) / (b : ℚ) ^ place := by
  obtain ⟨n, rfl | rfl⟩ := place.eq_nat_or_neg
  · simp [div_div]
  · simp [div_eq_mul_inv, mul_right_comm]

/-- A natural scaled by a power, up or down, is the natural times that power. -/
theorem cast_scaled_mul (num b : ℕ) (place : ℤ) :
    ((num * Nat.pow b place.toNat : ℕ) : ℚ) / (Nat.pow b (-place).toNat : ℕ) =
      num * (b : ℚ) ^ place := by
  have hscaled := cast_scaled num 1 b (-place)
  rwa [neg_neg, one_mul, Nat.cast_one, div_one, zpow_neg, div_inv_eq_mul] at hscaled

namespace Binary64

/-- Rounding gives the integer that is at most half away, and an even one at just half. -/
theorem roundHalfEven_eq {num den c : ℕ} (hden : 0 < den)
    (h : Between (c % 2 = 0) (c - 1 / 2) (num / den) (c + 1 / 2)) : roundHalfEven num den = c := by
  have hpos : (0 : ℚ) < den := Nat.cast_pos.2 hden
  obtain ⟨hlow, hhigh, hinside⟩ := h
  rw [le_div_iff₀ hpos] at hlow
  rw [div_le_iff₀ hpos] at hhigh
  rw [lt_div_iff₀ hpos, div_lt_iff₀ hpos] at hinside
  have hlow : 2 * (den * c) ≤ 2 * num + den := by
    rw [← Nat.cast_le (α := ℚ)]
    push_cast
    linarith
  have hhigh : 2 * num ≤ 2 * (den * c) + den := by
    rw [← Nat.cast_le (α := ℚ)]
    push_cast
    linarith
  have hinside : c % 2 = 0 ∨ 2 * (den * c) < 2 * num + den ∧ 2 * num < 2 * (den * c) + den := by
    refine hinside.imp_right fun ⟨hl, hh⟩ => ?_
    rw [← Nat.cast_lt (α := ℚ), ← Nat.cast_lt (α := ℚ)]
    push_cast
    constructor <;> linarith
  have hsplit : den * (num / den) + num % den = num := Nat.div_add_mod num den
  have hrest : num % den < den := Nat.mod_lt num hden
  rw [roundHalfEven]
  generalize num / den = q at hsplit ⊢
  generalize num % den = r at hsplit hrest ⊢
  have hcases : c + 1 ≤ q ∨ q = c ∨ q + 1 = c ∨ q + 2 ≤ c := by omega
  rcases hcases with hq | rfl | rfl | hq
  · have := Nat.mul_le_mul_left den hq
    rw [Nat.mul_add] at this
    omega
  · split_ifs <;> omega
  · rw [Nat.mul_add] at hlow hinside
    split_ifs <;> omega
  · have := Nat.mul_le_mul_left den hq
    rw [Nat.mul_add] at this
    omega

/-- The logarithm is the exponent of the power below. -/
theorem log_eq {b : ℕ} (hb : 1 < b) {q : ℚ} (hq : 0 < q) {t : ℤ} (hlow : (b : ℚ) ^ t ≤ q)
    (hhigh : q < (b : ℚ) ^ (t + 1)) : Int.log b q = t := by
  have := (Int.zpow_le_iff_le_log hb hq).1 hlow
  have := (Int.lt_zpow_iff_log_lt hb hq).1 hhigh
  omega

/-- The logarithms of the parts leave two places for that of the quotient. -/
theorem log2_sub_log2_bounds {num den : ℕ} (hnum : 0 < num) (hden : 0 < den) :
    (2 : ℚ) ^ ((num.log2 : ℤ) - den.log2 - 1) ≤ num / den ∧
      (num / den : ℚ) < 2 ^ ((num.log2 : ℤ) - den.log2 + 1) := by
  have hnum2 : ((2 ^ num.log2 : ℕ) : ℚ) ≤ num ∧ (num : ℚ) < (2 ^ (num.log2 + 1) : ℕ) :=
    ⟨Nat.cast_le.2 (Nat.log2_self_le hnum.ne'), Nat.cast_lt.2 Nat.lt_log2_self⟩
  have hden2 : ((2 ^ den.log2 : ℕ) : ℚ) ≤ den ∧ (den : ℚ) < (2 ^ (den.log2 + 1) : ℕ) :=
    ⟨Nat.cast_le.2 (Nat.log2_self_le hden.ne'), Nat.cast_lt.2 Nat.lt_log2_self⟩
  push_cast at hnum2 hden2
  have hlow : (2 : ℚ) ^ ((num.log2 : ℤ) - den.log2 - 1) = 2 ^ num.log2 / 2 ^ (den.log2 + 1) := by
    rw [sub_sub, zpow_sub₀ (by norm_num), zpow_natCast]
    norm_cast
  have hhigh : (2 : ℚ) ^ ((num.log2 : ℤ) - den.log2 + 1) = 2 ^ (num.log2 + 1) / 2 ^ den.log2 := by
    rw [sub_add_eq_add_sub, zpow_sub₀ (by norm_num), zpow_natCast]
    norm_cast
  constructor
  · rw [hlow]
    gcongr
    · exact hnum2.1
    · exact hden2.2.le
  · rw [hhigh]
    gcongr
    · exact hnum2.2
    · exact hden2.1

theorem scaled_pos {den : ℕ} (hden : 0 < den) (k : ℕ) : 0 < den * Nat.pow 2 k :=
  Nat.mul_pos hden (Nat.pow_pos (by decide))

/-- A quotient is compared with a power of two by scaling. -/
theorem scaled_lt_scaled_iff {num den : ℕ} (hden : 0 < den) (g : ℤ) :
    num * Nat.pow 2 (-g).toNat < den * Nat.pow 2 g.toNat ↔ (num / den : ℚ) < 2 ^ g := by
  have hscaled := cast_scaled num den 2 g
  have hpos : (0 : ℚ) < (den * Nat.pow 2 g.toNat : ℕ) :=
    Nat.cast_pos.2 (scaled_pos hden _)
  rw [← Nat.cast_lt (α := ℚ), ← div_lt_one hpos, hscaled, Nat.cast_ofNat,
    div_lt_one (by positivity)]

theorem leadingBit_eq {num den : ℕ} (hnum : 0 < num) (hden : 0 < den) :
    leadingBit num den = Int.log 2 (num / den : ℚ) := by
  have hpos : (0 : ℚ) < num / den := div_pos (Nat.cast_pos.2 hnum) (Nat.cast_pos.2 hden)
  obtain ⟨hlow, hhigh⟩ := log2_sub_log2_bounds hnum hden
  simp only [leadingBit, scaled_lt_scaled_iff hden]
  split
  · next hlt =>
    refine (log_eq (by decide) hpos hlow ?_).symm
    rw [sub_add_cancel]
    exact hlt
  · next hge => exact (log_eq (by decide) hpos (not_lt.1 hge) hhigh).symm

variable {x : Binary64} {q : ℚ}

/-- The place of the last bit of a number is that of the double it rounds to. Below a power of two
it is one lower, since there the number is in the range below that of the double. -/
theorem Attracts.place_cases (h : x.Attracts q) (hq : 0 < q) :
    max (Int.log 2 q - 52) (-1074) = x.exponent ∨
      x.significand = 2 ^ 52 ∧ -1074 < x.exponent ∧ q < 2 ^ 52 * 2 ^ x.exponent ∧
        max (Int.log 2 q - 52) (-1074) = x.exponent - 1 := by
  have hpow := x.zpow_exponent_pos
  have hmin := x.neg_le_exponent
  have hscale (n : ℕ) : (2 : ℚ) ^ (x.exponent + n) = 2 ^ n * 2 ^ x.exponent := by
    rw [zpow_add₀ (by norm_num), zpow_natCast, mul_comm]
  have hle (n : ℕ) (hn : 2 ^ n * 2 ^ x.exponent ≤ q) : x.exponent + n ≤ Int.log 2 q := by
    rw [← Int.zpow_le_iff_le_log (by decide) hq, Nat.cast_ofNat, hscale]
    exact hn
  have hlt (n : ℕ) (hn : q < 2 ^ n * 2 ^ x.exponent) : Int.log 2 q < x.exponent + n := by
    rw [← Int.lt_zpow_iff_log_lt (by decide) hq, Nat.cast_ofNat, hscale]
    exact hn
  have htop := hlt 53 (by rw [← hscale]; exact h.le_high.trans_lt x.upper_lt)
  by_cases hbelow : q < 2 ^ 52 * 2 ^ x.exponent
  · have hlog := hlt 52 hbelow
    by_cases hnormal : -1074 < x.exponent
    · have hlower := x.half_le_lower.trans h.low_le
      have hone : x.significand = 2 ^ 52 := by
        refine (Nat.le_of_lt_succ ?_).antisymm (x.le_significand hnormal)
        have := lt_of_mul_lt_mul_right (hlower.trans_lt hbelow) hpow.le
        rw [← Nat.cast_lt (α := ℚ)]
        push_cast
        linarith
      have hhalf := hle 51 (le_trans ?_ hlower)
      · exact .inr ⟨hone, hnormal, hbelow, by omega⟩
      · rw [hone]
        refine mul_le_mul_of_nonneg_right ?_ hpow.le
        norm_num
    · exact .inl (by omega)
  · have hlog := hle 52 (not_lt.1 hbelow)
    exact .inl (by omega)

section

variable {num den : ℕ} (hden : 0 < den) (h : x.Attracts (num / den))

include hden h

/-- At its own place a double is the integer nearest to what it attracts. -/
theorem Attracts.roundHalfEven_eq :
    roundHalfEven (num * Nat.pow 2 (-x.exponent).toNat) (den * Nat.pow 2 x.exponent.toNat) =
      x.significand := by
  apply Binary64.roundHalfEven_eq (scaled_pos hden _)
  rw [cast_scaled, Nat.cast_ofNat]
  have hunits := (h.mono x.half_le_lower x.upper_eq.le).div x.zpow_exponent_pos
  rwa [mul_div_cancel_right₀ _ x.zpow_exponent_pos.ne',
    mul_div_cancel_right₀ _ x.zpow_exponent_pos.ne'] at hunits

/-- Below a power of two the nearest integer, one place lower, is the next power of two. -/
theorem Attracts.roundHalfEven_below (hone : x.significand = 2 ^ 52) (hnormal : -1074 < x.exponent)
    (hbelow : (num / den : ℚ) < 2 ^ 52 * 2 ^ x.exponent) :
    roundHalfEven (num * Nat.pow 2 (-(x.exponent - 1)).toNat)
      (den * Nat.pow 2 (x.exponent - 1).toNat) = 2 ^ 53 := by
  have hlower := h.low_le
  rw [lower, if_pos ⟨hone, hnormal⟩, value, hone] at hlower
  push_cast at hlower
  have hhalf : (0 : ℚ) < 2 ^ (x.exponent - 1) := zpow_pos (by norm_num) _
  have hdouble : (2 : ℚ) ^ x.exponent = 2 * 2 ^ (x.exponent - 1) := by
    rw [zpow_sub_one₀ (by norm_num)]
    ring
  rw [hdouble] at hlower hbelow
  apply Binary64.roundHalfEven_eq (scaled_pos hden _)
  rw [cast_scaled, Nat.cast_ofNat]
  refine ⟨?_, ?_, .inl (by decide)⟩
  · rw [le_div_iff₀ hhalf]
    push_cast
    linarith
  · rw [div_le_iff₀ hhalf]
    push_cast
    linarith

end

theorem ofRatio_of_attracts (hfinite : x.isFinite = true) {num den : ℕ} (hnum : 0 < num)
    (hden : 0 < den) (h : x.Attracts (num / den)) (negative : Bool) :
    ofRatio negative num den = ofMagnitude negative x.magnitude := by
  have hpos : (0 : ℚ) < num / den := div_pos (Nat.cast_pos.2 hnum) (Nat.cast_pos.2 hden)
  have hlt : x.magnitude < infinityBits := of_decide_eq_true hfinite
  have hbits := x.magnitude_eq
  have hmin := x.neg_le_exponent
  rw [ofRatio, if_neg hnum.ne', leadingBit_eq hnum hden]
  rcases h.place_cases hpos with hplace | ⟨hone, hnormal, hbelow, hplace⟩
  · simp only [hplace, h.roundHalfEven_eq hden, leadingOne_eq]
    rw [← hbits, Nat.min_eq_left hlt.le]
  · have hcarry : (x.exponent - 1 + 1074).toNat * 2 ^ 52 + 2 ^ 53 = x.magnitude := by omega
    simp only [hplace, h.roundHalfEven_below hden hone hnormal hbelow, leadingOne_eq]
    rw [hcarry, Nat.min_eq_left hlt.le]

/-! ## Decimals -/

theorem digitCount_pos (n : ℕ) : 0 < digitCount n := Nat.length_toDigits_pos

theorem lt_pow_digitCount (n : ℕ) : n < 10 ^ digitCount n :=
  (Nat.length_toDigits_le_iff (by decide) (digitCount_pos n)).1 (Nat.le_refl _)

theorem pow_digitCount_le {n : ℕ} (hn : 0 < n) : 10 ^ (digitCount n - 1) ≤ n := by
  by_cases hone : digitCount n = 1
  · rw [hone]
    exact hn
  · have hcount := digitCount_pos n
    have hpos : 0 < digitCount n - 1 := by omega
    rw [← Nat.not_lt, ← Nat.length_toDigits_le_iff (by decide) hpos]
    change ¬ digitCount n ≤ digitCount n - 1
    omega

/-- The digits of the coefficient give the place of the first one. -/
theorem log_decimal {c : ℕ} (hc : 0 < c) (p : ℤ) :
    Int.log 10 ((c : ℚ) * 10 ^ p) = digitCount c + p - 1 := by
  have hpow : (0 : ℚ) < 10 ^ p := zpow_pos (by norm_num) _
  have hcount := digitCount_pos c
  have hlow : (10 : ℚ) ^ (digitCount c - 1) ≤ c := by exact_mod_cast pow_digitCount_le hc
  have hhigh : (c : ℚ) < 10 ^ digitCount c := by exact_mod_cast lt_pow_digitCount c
  apply log_eq (by decide) (mul_pos (Nat.cast_pos.2 hc) hpow)
  · have hexp : (digitCount c + p - 1 : ℤ) = (digitCount c - 1 : ℕ) + p := by omega
    rw [hexp, Nat.cast_ofNat, zpow_add₀ (by norm_num), zpow_natCast]
    exact mul_le_mul_of_nonneg_right hlow hpow.le
  · have hexp : (digitCount c + p - 1 + 1 : ℤ) = (digitCount c : ℕ) + p := by omega
    rw [hexp, Nat.cast_ofNat, zpow_add₀ (by norm_num), zpow_natCast]
    exact mul_lt_mul_of_pos_right hhigh hpow

theorem two_pow_le_ten_pow {a b : ℕ} (h : a ≤ 3 * b) : (2 : ℚ) ^ a ≤ 10 ^ b :=
  calc (2 : ℚ) ^ a ≤ 2 ^ (3 * b) := pow_le_pow_right₀ (by norm_num) h
    _ = 8 ^ b := by rw [pow_mul]; norm_num
    _ ≤ 10 ^ b := pow_le_pow_left₀ (by norm_num) (by norm_num) b

/-- What a double attracts is not out of its range. -/
theorem Attracts.log_bounds (hfinite : x.isFinite = true) (hzero : x.isZero = false)
    (h : x.Attracts q) : -401 ≤ Int.log 10 q ∧ Int.log 10 q < 400 := by
  have hq := h.pos hzero
  have hpow := x.zpow_exponent_pos
  have hmin := x.neg_le_exponent
  have hmax := x.exponent_le hfinite
  constructor
  · rw [← Int.zpow_le_iff_le_log (by decide) hq]
    have hone : (1 : ℚ) ≤ x.significand := by exact_mod_cast x.significand_pos hzero
    calc ((10 : ℕ) : ℚ) ^ (-401 : ℤ) = (10 ^ 401)⁻¹ := by rw [zpow_neg, zpow_ofNat, Nat.cast_ofNat]
      _ ≤ (2 ^ 1075)⁻¹ := inv_anti₀ (by positivity) (two_pow_le_ten_pow (by decide))
      _ = 1 / 2 * 2 ^ (-1074 : ℤ) := by
        rw [zpow_neg, zpow_ofNat, pow_succ, mul_inv, mul_comm, one_div]
      _ ≤ (x.significand - 1 / 2) * 2 ^ x.exponent :=
        mul_le_mul (by linarith) (zpow_le_zpow_right₀ (by norm_num) hmin) (by positivity)
          (by linarith)
      _ ≤ q := x.half_le_lower.trans h.low_le
  · rw [← Int.lt_zpow_iff_log_lt (by decide) hq]
    calc q < 2 ^ (x.exponent + 53) := h.le_high.trans_lt x.upper_lt
      _ ≤ 2 ^ (1024 : ℤ) := zpow_le_zpow_right₀ one_le_two (by omega)
      _ = 2 ^ 1024 := zpow_ofNat 2 1024
      _ ≤ 10 ^ 400 := two_pow_le_ten_pow (by decide)
      _ = ((10 : ℕ) : ℚ) ^ (400 : ℤ) := by rw [Nat.cast_ofNat, zpow_ofNat]

theorem ofDecimal_of_attracts (hfinite : x.isFinite = true) (hzero : x.isZero = false) {c : ℕ}
    {p : ℤ} (h : x.Attracts (c * 10 ^ p)) (negative : Bool) :
    ofDecimal negative c p = ofMagnitude negative x.magnitude := by
  have hc := h.coefficient_pos hzero
  obtain ⟨hlow, hhigh⟩ := h.log_bounds hfinite hzero
  rw [log_decimal hc] at hlow hhigh
  have hpow (n : ℕ) : 0 < Nat.pow 10 n := Nat.pow_pos (by decide)
  simp only [ofDecimal]
  rw [if_neg (by omega), if_neg (by omega)]
  refine ofRatio_of_attracts hfinite (Nat.mul_pos hc (hpow _)) (hpow _) ?_ negative
  rw [cast_scaled_mul]
  exact h

end Binary64

end DagSelect
