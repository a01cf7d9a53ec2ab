import DagSelect.Binary64.Shortest
import Mathlib.Algebra.Order.Field.Power
import Mathlib.Data.Rat.Cast.Order
import Mathlib.Tactic.Linarith
import Mathlib.Tactic.NormNum
import Mathlib.Tactic.Positivity
import Mathlib.Tactic.Ring

/-!
# The numbers around a double

A finite double stands, but for its sign, for the rational number `value`. The numbers that round to
it lie between `lower` and `upper`, half a unit of the last place away on either side, but only a
quarter below a power of two. The double `Attracts` the numbers between these ends, and the ends too
if its significand is even.
-/

namespace DagSelect.Binary64

variable (x : Binary64)

/-! ## Significand and exponent -/

theorem leadingOne_eq : leadingOne = 2 ^ 52 := rfl

/-- Below the normal range the significand is the magnitude, and above it has a leading one. -/
theorem significand_cases :
    (x.exponent = -1074 ∧ x.significand = x.magnitude ∧ x.magnitude < 2 ^ 52) ∨
      (x.exponent = (x.magnitude / 2 ^ 52 : Nat) - 1075 ∧
        x.significand = 2 ^ 52 + x.magnitude % 2 ^ 52 ∧ 2 ^ 52 ≤ x.magnitude) := by
  rw [exponent, significand, leadingOne_eq]
  by_cases h : x.magnitude < 2 ^ 52
  · refine .inl ⟨?_, ?_, h⟩
    · omega
    · rw [if_pos h]
      omega
  · refine .inr ⟨?_, ?_, by omega⟩
    · omega
    · rw [if_neg h]

theorem neg_le_exponent : -1074 ≤ x.exponent := by
  have := x.significand_cases
  omega

theorem significand_lt : x.significand < 2 ^ 53 := by
  have := x.significand_cases
  omega

theorem le_significand (h : -1074 < x.exponent) : 2 ^ 52 ≤ x.significand := by
  have := x.significand_cases
  omega

/-- The bits are the sum of the place and the significand. -/
theorem magnitude_eq : x.magnitude = (x.exponent + 1074).toNat * 2 ^ 52 + x.significand := by
  have := x.significand_cases
  omega

theorem exponent_le (h : x.isFinite = true) : x.exponent ≤ 971 := by
  have hlt : x.magnitude < 2047 * 2 ^ 52 := of_decide_eq_true h
  have := x.significand_cases
  omega

theorem isNaN_of_isFinite {x : Binary64} (h : x.isFinite = true) : x.isNaN = false := by
  have hlt : x.magnitude < infinityBits := of_decide_eq_true h
  exact decide_eq_false hlt.not_gt

theorem significand_pos (h : x.isZero = false) : 0 < x.significand := by
  rw [isZero, beq_eq_false_iff_ne] at h
  have := x.significand_cases
  omega

/-- A double is its sign and its magnitude. -/
theorem ofMagnitude_magnitude : ofMagnitude x.isNegative x.magnitude = x := by
  have hlt := x.bits.toNat_lt
  have hsign : signBit = 2 ^ 63 := rfl
  have hmagnitude : x.magnitude = x.bits.toNat % 2 ^ 63 := rfl
  have hbits : (if x.isNegative = true then signBit + x.magnitude else x.magnitude) =
      x.bits.toNat := by
    cases h : x.isNegative with
    | true =>
      have hle : signBit ≤ x.bits.toNat := of_decide_eq_true h
      rw [if_pos rfl]
      omega
    | false =>
      have hgt : ¬ signBit ≤ x.bits.toNat := of_decide_eq_false h
      rw [if_neg Bool.false_ne_true]
      omega
  rw [ofMagnitude, hbits, UInt64.ofNat_toNat]

/-! ## The numbers that round to a double -/

def value : ℚ := x.significand * 2 ^ x.exponent

def lower : ℚ :=
  x.value - (if x.significand = 2 ^ 52 ∧ -1074 < x.exponent then 1 / 4 else 1 / 2) * 2 ^ x.exponent

def upper : ℚ := x.value + 1 / 2 * 2 ^ x.exponent

theorem zpow_exponent_pos : (0 : ℚ) < 2 ^ x.exponent := zpow_pos (by norm_num) _

theorem upper_eq : x.upper = (x.significand + 1 / 2) * 2 ^ x.exponent := by
  rw [upper, value]
  ring

theorem half_le_lower : (x.significand - 1 / 2) * 2 ^ x.exponent ≤ x.lower := by
  have := x.zpow_exponent_pos
  rw [lower, value]
  split_ifs <;> linarith

theorem upper_lt : x.upper < 2 ^ (x.exponent + 53) := by
  have hlt : (x.significand : ℚ) + 1 ≤ 2 ^ 53 := by exact_mod_cast x.significand_lt
  rw [upper_eq, zpow_add₀ (by norm_num), mul_comm]
  exact mul_lt_mul_of_pos_left (by norm_num at hlt ⊢; linarith) x.zpow_exponent_pos

/-- The number lies between the ends, or at one of them if these count. -/
structure Between (ends : Prop) (low q high : ℚ) : Prop where
  low_le : low ≤ q
  le_high : q ≤ high
  inside : ends ∨ low < q ∧ q < high

namespace Between

variable {ends : Prop} {low q high : ℚ}

theorem of_inside (hlow : low < q) (hhigh : q < high) : Between ends low q high :=
  ⟨hlow.le, hhigh.le, .inr ⟨hlow, hhigh⟩⟩

theorem mono {low' high' : ℚ} (h : Between ends low q high) (hlow : low' ≤ low)
    (hhigh : high ≤ high') : Between ends low' q high' :=
  ⟨hlow.trans h.low_le, h.le_high.trans hhigh,
    h.inside.imp_right fun ⟨hl, hh⟩ => ⟨hlow.trans_lt hl, hh.trans_le hhigh⟩⟩

theorem div (h : Between ends low q high) {k : ℚ} (hk : 0 < k) :
    Between ends (low / k) (q / k) (high / k) :=
  ⟨div_le_div_of_nonneg_right h.low_le hk.le, div_le_div_of_nonneg_right h.le_high hk.le,
    h.inside.imp_right fun ⟨hl, hh⟩ =>
      ⟨div_lt_div_of_pos_right hl hk, div_lt_div_of_pos_right hh hk⟩⟩

end Between

/-- The number rounds to the double, but for the sign. -/
def Attracts (q : ℚ) : Prop := Between (x.significand % 2 = 0) x.lower q x.upper

variable {x}

theorem lower_pos (hzero : x.isZero = false) : 0 < x.lower := by
  have hone : (1 : ℚ) ≤ x.significand := by exact_mod_cast x.significand_pos hzero
  exact (mul_pos (by linarith) x.zpow_exponent_pos).trans_le x.half_le_lower

theorem Attracts.pos {q : ℚ} (h : x.Attracts q) (hzero : x.isZero = false) : 0 < q :=
  (lower_pos hzero).trans_le h.low_le

theorem Attracts.coefficient_pos {c : ℕ} {p : ℤ} (h : x.Attracts (c * 10 ^ p))
    (hzero : x.isZero = false) : 0 < c :=
  Nat.cast_pos.1 (pos_of_mul_pos_left (h.pos hzero) (zpow_pos (by norm_num) p).le)

end DagSelect.Binary64
