import DagSelect.Proofs.Binary64.Numeral

/-!
# Doubles read back from their text

A finite double is read back from its text, to the last bit and with its sign (`ofText_text`). The
text has a positive exponent exactly when the double is at least ten to the sixteenth: the shortest
decimal of a double is on the same side of that bound as the double (`le_shortest_iff`).
-/

namespace DagSelect.Binary64

variable {x : Binary64}

/-- At the bound itself the shortest decimal is one digit. -/
theorem shortest_bound (hexponent : x.exponent = 1) (hsignificand : x.significand = 5 * 10 ^ 15) :
    x.shortest = ⟨1, 16⟩ := by
  simp only [shortest, interval, hexponent, hsignificand]
  decide +kernel

theorem le_shortest_iff (hzero : x.isZero = false) :
    10 ^ 16 ≤ x.shortest.value ↔ 10 ^ 16 ≤ x.value := by
  have hattracts := attracts_shortest hzero
  have hlow := x.half_le_lower.trans hattracts.low_le
  have hhigh := hattracts.le_high
  have hlt : (x.significand : ℚ) + 1 ≤ 2 ^ 53 := by exact_mod_cast x.significand_lt
  have hcases : x.exponent ≤ 0 ∨ x.exponent = 1 ∨ 2 ≤ x.exponent := by omega
  rw [upper_eq] at hhigh
  rw [value]
  rcases hcases with hexponent | hexponent | hexponent
  · -- both are below the bound
    have hpow : (2 : ℚ) ^ x.exponent ≤ 1 := zpow_le_one_of_nonpos₀ one_le_two hexponent
    have hunit := mul_le_of_le_one_right (a := (x.significand : ℚ) + 1 / 2) (by positivity) hpow
    have hvalue := mul_le_of_le_one_right (a := (x.significand : ℚ)) (by positivity) hpow
    constructor <;> intro h <;> linarith
  · -- the bound is one of these doubles
    rw [hexponent, zpow_one] at hlow hhigh ⊢
    have hnat : x.significand + 1 ≤ 5 * 10 ^ 15 ∨ x.significand = 5 * 10 ^ 15 ∨
        5 * 10 ^ 15 + 1 ≤ x.significand := by omega
    rcases hnat with hnat | hnat | hnat
    · have hbelow : (x.significand : ℚ) + 1 ≤ 5 * 10 ^ 15 := by exact_mod_cast hnat
      constructor <;> intro h <;> linarith
    · rw [shortest_bound hexponent hnat, hnat]
      norm_num [Decimal.value]
    · have habove : 5 * 10 ^ 15 + 1 ≤ (x.significand : ℚ) := by exact_mod_cast hnat
      constructor <;> intro h <;> linarith
  · -- both are above the bound
    have hnormal := x.le_significand (by omega)
    have hfloor : (2 : ℚ) ^ 52 ≤ x.significand := by exact_mod_cast hnormal
    have hpow : (2 : ℚ) ^ (2 : ℤ) ≤ 2 ^ x.exponent := zpow_le_zpow_right₀ one_le_two hexponent
    have hunit := mul_le_mul (a := (2 : ℚ) ^ 52 - 1 / 2) (b := (x.significand : ℚ) - 1 / 2)
      (by linarith) hpow (by positivity) (by linarith)
    have hvalue := mul_le_mul hfloor hpow (by positivity) (by positivity)
    rw [zpow_ofNat] at hunit hvalue
    constructor <;> intro h <;> linarith

theorem le_log_shortest_iff (hzero : x.isZero = false) :
    16 ≤ Int.log 10 x.shortest.value ↔ 10 ^ 16 ≤ x.value := by
  rw [← le_shortest_iff hzero,
    ← Int.zpow_le_iff_le_log (by decide) ((attracts_shortest hzero).pos hzero), zpow_ofNat,
    Nat.cast_ofNat]

/-! ## Reading -/

theorem magnitude_of_isZero (hzero : x.isZero = true) : x.magnitude = 0 := beq_iff_eq.1 hzero

theorem value_of_isZero (hzero : x.isZero = true) : x.value = 0 := by
  have := x.significand_cases
  have hmagnitude := magnitude_of_isZero hzero
  have hsignificand : x.significand = 0 := by omega
  rw [value, hsignificand, Nat.cast_zero, zero_mul]

theorem text_eq (x : Binary64) (style : NumberStyle) :
    x.text style = Text.signText x.isNegative ++
      if x.isZero then ['0', '.', '0'] else x.shortest.text style := by
  rw [text]
  cases x.isNegative <;> rfl

theorem ofDecimal_zero (negative : Bool) (place : ℤ) :
    ofDecimal negative 0 place = ofMagnitude negative 0 := by
  simp [ofDecimal]

/-- How the text of a double is spelled, and that it is read as the double. -/
theorem exists_numeral (hfinite : x.isFinite = true) :
    ∃ n : Numeral, x.text .json = Text.signText x.isNegative ++ n.text ∧
      ofDecimal x.isNegative n.coefficient n.place = x ∧ (n.exponent = none → n.fraction ≠ []) ∧
      (10 ^ 16 ≤ x.value ↔ ∃ e, 0 ≤ e ∧ n.exponent = some e) := by
  cases hzero : x.isZero with
  | true =>
    refine ⟨⟨'0', [], ['0'], none, List.all_eq_true.1 rfl, fun _ => rfl⟩, ?_, ?_, by simp, ?_⟩
    · rw [text_eq, if_pos hzero]
      rfl
    · refine (ofDecimal_zero x.isNegative (-1)).trans ?_
      rw [← magnitude_of_isZero hzero, ofMagnitude_magnitude]
    · rw [value_of_isZero hzero]
      simp
  | false =>
    have hnotzero : ¬ x.isZero = true := Bool.eq_false_iff.1 hzero
    obtain ⟨n, htext, hvalue, hform⟩ :=
      Decimal.exists_numeral (coefficient_shortest_pos hzero) .json
    have hattracts := attracts_shortest hzero
    have hlarge := le_log_shortest_iff hzero
    refine ⟨n, ?_, ?_, ?_, ?_⟩
    · rw [text_eq, if_neg hnotzero, htext]
    · rw [← hvalue] at hattracts
      rw [ofDecimal_of_attracts hfinite hzero hattracts, ofMagnitude_magnitude]
    · split_ifs at hform with hrange
      · exact fun _ => hform.2
      · simp [hform]
    · rw [← hlarge]
      split_ifs at hform with hrange
      · have hbelow := hrange.2
        simp only [NumberStyle.json] at hbelow
        simp only [hform.1, reduceCtorEq, and_false, exists_false, iff_false]
        omega
      · simp only [NumberStyle.json] at hrange
        constructor
        · intro hle
          exact ⟨_, by omega, hform⟩
        · rintro ⟨e, he, hexponent⟩
          obtain rfl := Option.some.inj (hform.symm.trans hexponent)
          omega

/-- A finite double is what its text is read as. -/
theorem ofText_text (hfinite : x.isFinite = true) : ofText (x.text .json) = x := by
  obtain ⟨n, htext, hread, -⟩ := exists_numeral hfinite
  rw [htext, n.ofText_text, hread]

end DagSelect.Binary64
