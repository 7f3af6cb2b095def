import ValueStream.Binary.Format
import ValueStream.Proofs.Binary.Ratio

/-!
Floating magnitudes as rational numbers.

`Format.nearest` is rounding of a rational number to a format, and rounding a
ratio is rounding the number it stands for (`ofRatio_eq`). A finite magnitude is
a significand times a power of two (`decode_spec`), which is where rounding
finds it again (`nearest_value`). The ends of the range are settled by size
alone (`nearest_of_large`, `nearest_of_small`).
-/

namespace ValueStream.Binary.Format

/-- Formats that have an exponent and a fraction, and whose least number is more than twice the
power of ten below which numerals are taken for zero. -/
structure Proper (f : Format) : Prop where
  bias : 1 ≤ f.bias
  fraction : 0 < f.fractionBits
  range : f.fractionBits ≤ 2 * f.bias + 3

theorem single_proper : single.Proper := ⟨by decide, by decide, by decide⟩

theorem double_proper : double.Proper := ⟨by decide, by decide, by decide⟩

variable (f : Format)

/-- The magnitude nearest to a rational number that is not negative, the even one of two that
are equally near; what lies beyond the largest number is infinity. -/
def nearest (q : ℚ) : ℕ :=
  if q = 0 then 0
  else
    let exponent := max f.leastExponent (Int.log 2 q - f.fractionBits)
    let significand := nearestEven (q * 2 ^ (-exponent))
    min ((exponent - f.leastExponent).toNat * f.fractionWeight + significand) f.infinity

/-- Rounding a ratio is rounding the rational number it stands for. -/
theorem ofRatio_eq {r : Ratio} (hden : 0 < r.den) : f.ofRatio r = f.nearest r.worth := by
  unfold ofRatio nearest
  by_cases hnum : r.num = 0
  · rw [if_pos hnum, if_pos ((Ratio.worth_eq_zero_iff hden).mpr hnum)]
  · rw [if_neg hnum, if_neg (fun h => hnum ((Ratio.worth_eq_zero_iff hden).mp h)),
      Ratio.floorLog2_eq (Nat.pos_of_ne_zero hnum) hden]
    dsimp only
    rw [Ratio.roundHalfEven_eq (Ratio.den_scale_pos hden two_pos _), Ratio.worth_scale two_pos,
      Nat.cast_ofNat]

/-! ## The parts of a magnitude -/

theorem fractionWeight_pos : 0 < f.fractionWeight := Nat.pow_pos two_pos

theorem cast_fractionWeight : (f.fractionWeight : ℚ) = 2 ^ (f.fractionBits : ℤ) := by
  rw [fractionWeight, Nat.pow_eq, Nat.cast_pow, zpow_natCast]
  rfl

/-- A magnitude is as many binades above the least numbers as it has exponent, and in its
binade a significand: one with its leading bit, or one among the least numbers. -/
theorem decode_spec (m : ℕ) :
    ∃ j s : ℕ, m = j * f.fractionWeight + s ∧ f.decode m = (s, f.leastExponent + j)
      ∧ s < 2 * f.fractionWeight ∧ (f.fractionWeight ≤ s ∨ j = 0) := by
  have hpos := f.fractionWeight_pos
  have hsplit := Nat.div_add_mod' m f.fractionWeight
  have hlt := Nat.mod_lt m hpos
  unfold decode
  dsimp only
  by_cases hfield : m / f.fractionWeight = 0
  · rw [hfield, Nat.zero_mul, Nat.zero_add] at hsplit
    rw [if_pos hfield, hsplit]
    refine ⟨0, m, ?_, ?_, by omega, Or.inr rfl⟩
    · rw [Nat.zero_mul, Nat.zero_add]
    · rw [Nat.cast_zero, add_zero]
  · rw [if_neg hfield]
    obtain ⟨j, hj⟩ := Nat.exists_eq_succ_of_ne_zero hfield
    rw [hj, Nat.succ_mul] at hsplit
    refine ⟨j, m % f.fractionWeight + f.fractionWeight, by omega, ?_, by omega,
      Or.inl (Nat.le_add_left _ _)⟩
    rw [hj, Nat.succ_sub_one]

/-- A magnitude stands for its significand times a power of two. -/
theorem worth_value (m : ℕ) : (f.value m).worth = (f.decode m).1 * 2 ^ (f.decode m).2 := by
  have hvalue : f.value m = (Ratio.ofNat (f.decode m).1).scale 2 (f.decode m).2 := rfl
  rw [hvalue, Ratio.worth_scale two_pos, Ratio.worth_ofNat, Nat.cast_ofNat]

theorem den_value_pos (m : ℕ) : 0 < (f.value m).den := Ratio.den_scale_pos Nat.one_pos two_pos _

/-! ## Rounding -/

/-- A significand in a binade where it may stand is left as it is. -/
theorem nearest_of_significand {j s : ℕ} (hpos : 0 < s) (hs : s < 2 * f.fractionWeight)
    (hj : f.fractionWeight ≤ s ∨ j = 0) :
    f.nearest (s * 2 ^ (f.leastExponent + j)) = min (j * f.fractionWeight + s) f.infinity := by
  have hs0 : (0 : ℚ) < s := by exact_mod_cast hpos
  have hq : (0 : ℚ) < s * 2 ^ (f.leastExponent + j) := mul_pos hs0 (zpow_pos two_pos _)
  have hupper : Int.log 2 ((s : ℚ) * 2 ^ (f.leastExponent + j))
      < f.fractionBits + 1 + (f.leastExponent + j) := by
    apply (Int.lt_zpow_iff_log_lt one_lt_two hq).mp
    have hlt : (s : ℚ) < 2 * f.fractionWeight := by exact_mod_cast hs
    rw [cast_fractionWeight, ← zpow_one_add₀ two_ne_zero, add_comm 1] at hlt
    rw [Nat.cast_ofNat, zpow_add₀ two_ne_zero (f.fractionBits + 1 : ℤ)]
    exact mul_lt_mul_of_pos_right hlt (zpow_pos two_pos _)
  have hexponent : max f.leastExponent
      (Int.log 2 ((s : ℚ) * 2 ^ (f.leastExponent + j)) - f.fractionBits) = f.leastExponent + j := by
    rcases hj with hle | rfl
    · have hlower : f.fractionBits + (f.leastExponent + j)
          ≤ Int.log 2 ((s : ℚ) * 2 ^ (f.leastExponent + j)) := by
        apply (Int.zpow_le_iff_le_log one_lt_two hq).mp
        have hcast : (f.fractionWeight : ℚ) ≤ s := by exact_mod_cast hle
        rw [cast_fractionWeight] at hcast
        rw [Nat.cast_ofNat, zpow_add₀ two_ne_zero]
        exact mul_le_mul_of_nonneg_right hcast (zpow_pos two_pos _).le
      omega
    · omega
  have hback : (s : ℚ) * 2 ^ (f.leastExponent + j) * 2 ^ (-(f.leastExponent + j : ℤ)) = s := by
    rw [mul_assoc, ← zpow_add₀ two_ne_zero, add_neg_cancel, zpow_zero, mul_one]
  rw [nearest, if_neg hq.ne', hexponent]
  dsimp only
  rw [hback, nearestEven_natCast, add_sub_cancel_left, Int.toNat_natCast]

/-- A finite magnitude is the one nearest to what it stands for. -/
theorem nearest_value {m : ℕ} (hm : m < f.infinity) : f.nearest (f.value m).worth = m := by
  obtain ⟨j, s, hsplit, hdecode, hs, hj⟩ := f.decode_spec m
  rw [worth_value, hdecode]
  rcases Nat.eq_zero_or_pos s with hzero | hpos
  · -- only the least numbers have a significand without a leading bit
    have hj0 : j = 0 := hj.resolve_left (by have := f.fractionWeight_pos; omega)
    rw [hzero, hj0, Nat.zero_mul] at hsplit
    rw [hzero, Nat.cast_zero, zero_mul, nearest, if_pos rfl, hsplit]
  · rw [f.nearest_of_significand hpos hs hj, ← hsplit, min_eq_left hm.le]

theorem infinity_eq (hbias : 1 ≤ f.bias) :
    f.infinity = 2 * f.bias * f.fractionWeight + f.fractionWeight := by
  have hne : f.exponentBits ≠ 0 := by
    intro hzero
    rw [bias, hzero] at hbias
    exact absurd hbias (by decide)
  obtain ⟨n, hn⟩ := Nat.exists_eq_succ_of_ne_zero hne
  have hpow : Nat.pow 2 (n + 1) - 1 = 2 * (Nat.pow 2 n - 1) + 1 := by
    have hpos : 0 < 2 ^ n := Nat.two_pow_pos n
    rw [Nat.pow_eq, Nat.pow_eq, Nat.pow_succ]
    omega
  rw [infinity, bias, hn, Nat.succ_eq_add_one, Nat.add_sub_cancel, hpow, Nat.add_mul, Nat.one_mul]

/-- What is too large for every number of the format becomes infinity. -/
theorem nearest_of_large (hbias : 1 ≤ f.bias) {q : ℚ} (h : 2 ^ (f.bias + 1) ≤ q) :
    f.nearest q = f.infinity := by
  have hq : 0 < q := lt_of_lt_of_le (pow_pos two_pos _) h
  have hlog : ((f.bias + 1 : ℕ) : ℤ) ≤ Int.log 2 q := by
    apply (Int.zpow_le_iff_le_log one_lt_two hq).mp
    rw [zpow_natCast]
    exact_mod_cast h
  have hleast : f.leastExponent = 1 - (f.bias : ℤ) - f.fractionBits := rfl
  -- at this size the exponent alone comes to all but one of the binades, and the significand
  -- has its leading bit
  have hexponent : max f.leastExponent (Int.log 2 q - f.fractionBits)
      = Int.log 2 q - f.fractionBits := by omega
  have hsignificand : f.fractionWeight
      ≤ nearestEven (q * 2 ^ (-(Int.log 2 q - f.fractionBits : ℤ))) := by
    apply le_nearestEven
    rw [cast_fractionWeight, neg_sub, zpow_sub₀ two_ne_zero, ← mul_div_assoc,
      le_div_iff₀ (zpow_pos two_pos _), mul_comm q]
    exact mul_le_mul_of_nonneg_left (by exact_mod_cast Int.zpow_log_le_self one_lt_two hq)
      (zpow_pos two_pos _).le
  have hbinades : 2 * f.bias ≤ (Int.log 2 q - f.fractionBits - f.leastExponent).toNat := by omega
  have hproduct := Nat.mul_le_mul_right f.fractionWeight hbinades
  rw [nearest, if_neg hq.ne', hexponent]
  dsimp only
  rw [f.infinity_eq hbias]
  omega

/-- What is less than half of the least number becomes zero. -/
theorem nearest_of_small {q : ℚ} (hq : 0 ≤ q) (h : q < 2 ^ (f.leastExponent - 1)) :
    f.nearest q = 0 := by
  rcases hq.eq_or_lt with rfl | hpos
  · rw [nearest, if_pos rfl]
  · have hlog : Int.log 2 q < f.leastExponent - 1 :=
      (Int.lt_zpow_iff_log_lt one_lt_two hpos).mp (by exact_mod_cast h)
    have hexponent : max f.leastExponent (Int.log 2 q - f.fractionBits) = f.leastExponent := by
      omega
    have hhalf : q * 2 ^ (-f.leastExponent) < 1 / 2 := by
      rw [zpow_sub₀ two_ne_zero, zpow_one] at h
      rw [zpow_neg, ← div_eq_mul_inv, div_lt_iff₀ (zpow_pos two_pos _), one_div_mul_eq_div]
      exact h
    rw [nearest, if_neg hpos.ne', hexponent]
    dsimp only
    rw [nearestEven_of_lt_half hhalf, sub_self, Int.toNat_zero, Nat.zero_mul, Nat.add_zero,
      Nat.zero_min]

end ValueStream.Binary.Format
