import ValueStream.Decimal.Numeral
import ValueStream.Proofs.Binary.Nearest
import ValueStream.Proofs.Text.Numeral

/-!
Decimal numerals as rational numbers.

A numeral is read as the magnitude nearest to what it is worth, and to the even
one of two that are equally near (`toMagnitude_eq`). Settling the far ends of
the range by the place of the first digit makes no difference to that: the place
is the size of the numeral (`top_spec`), and there the format has no numbers.
-/

namespace ValueStream.Decimal

open Binary

/-- The rational number that a numeral is. -/
def worth (d : Decimal) : ℚ := d.coefficient * 10 ^ d.exponent

theorem worth_ratio (d : Decimal) : d.ratio.worth = d.worth := by
  rw [ratio, Ratio.worth_scale (by decide), Ratio.worth_ofNat, Nat.cast_ofNat, worth]

theorem den_ratio_pos (d : Decimal) : 0 < d.ratio.den :=
  Ratio.den_scale_pos Nat.one_pos (by decide) _

theorem worth_nonneg (d : Decimal) : 0 ≤ d.worth :=
  mul_nonneg (Nat.cast_nonneg _) (zpow_nonneg (by norm_num) _)

theorem worth_of_zero {d : Decimal} (h : d.coefficient = 0) : d.worth = 0 := by
  rw [worth, h, Nat.cast_zero, zero_mul]

/-- The first digit stands right below the place that is its numeral's top. -/
theorem top_spec {d : Decimal} (h : d.coefficient ≠ 0) :
    10 ^ (d.top - 1) ≤ d.worth ∧ d.worth < 10 ^ d.top := by
  generalize hlength : (Text.natural d.coefficient).length = length
  have hpos : 0 < length := hlength ▸ Nat.length_toDigits_pos
  have htop : d.top = length + d.exponent := by rw [top, hlength]
  have hupper : d.coefficient < 10 ^ length :=
    (Nat.length_toDigits_le_iff (by decide) hpos).mp hlength.le
  have hlower : 10 ^ (length - 1) ≤ d.coefficient := by
    by_contra hlt
    rw [Nat.not_le] at hlt
    rcases Nat.eq_zero_or_pos (length - 1) with hone | hmore
    · rw [hone, Nat.pow_zero] at hlt
      omega
    · have hshort := (Nat.length_toDigits_le_iff (by decide) hmore).mpr hlt
      rw [← Text.natural, hlength] at hshort
      omega
  constructor
  · have hsplit : d.top - 1 = ((length - 1 : ℕ) : ℤ) + d.exponent := by omega
    rw [hsplit, zpow_add₀ (by norm_num), zpow_natCast, worth]
    gcongr
    exact_mod_cast hlower
  · rw [htop, zpow_add₀ (by norm_num), zpow_natCast, worth]
    gcongr
    exact_mod_cast hupper

/-- A numeral is read as the magnitude nearest to what it is worth. -/
theorem toMagnitude_eq {f : Format} (hf : f.Proper) (d : Decimal) :
    d.toMagnitude f = f.nearest d.worth := by
  unfold toMagnitude
  split
  · next hzero => rw [worth_of_zero hzero, Format.nearest, if_pos rfl]
  · next hne =>
    obtain ⟨hlower, hupper⟩ := top_spec hne
    split
    · next hlarge =>
      refine (f.nearest_of_large hf.bias ?_).symm
      have hsize : ((f.bias + 1 : ℕ) : ℤ) ≤ d.top - 1 := by omega
      calc (2 : ℚ) ^ (f.bias + 1) ≤ 10 ^ (f.bias + 1) := by gcongr; norm_num
        _ = 10 ^ ((f.bias + 1 : ℕ) : ℤ) := (zpow_natCast _ _).symm
        _ ≤ 10 ^ (d.top - 1) := zpow_le_zpow_right₀ (by norm_num) hsize
        _ ≤ d.worth := hlower
    · split
      · next hsmall =>
        refine (f.nearest_of_small d.worth_nonneg ?_).symm
        have hsize : d.top ≤ -((f.bias + 1 : ℕ) : ℤ) := by omega
        have hleast : f.leastExponent - 1 = -((f.bias + f.fractionBits : ℕ) : ℤ) := by
          rw [Format.leastExponent]
          omega
        -- a decimal place is worth three binary ones
        have hpowers : (2 : ℚ) ^ (f.bias + f.fractionBits) ≤ 10 ^ (f.bias + 1) := by
          have hrange := hf.range
          calc (2 : ℚ) ^ (f.bias + f.fractionBits) ≤ 2 ^ (3 * (f.bias + 1)) :=
                pow_le_pow_right₀ (by norm_num) (by omega)
            _ = 8 ^ (f.bias + 1) := by rw [pow_mul]; norm_num
            _ ≤ 10 ^ (f.bias + 1) := by gcongr; norm_num
        calc d.worth < 10 ^ d.top := hupper
          _ ≤ 10 ^ (-((f.bias + 1 : ℕ) : ℤ)) := zpow_le_zpow_right₀ (by norm_num) hsize
          _ = ((10 : ℚ) ^ (f.bias + 1))⁻¹ := by rw [zpow_neg, zpow_natCast]
          _ ≤ ((2 : ℚ) ^ (f.bias + f.fractionBits))⁻¹ := by gcongr
          _ = 2 ^ (f.leastExponent - 1) := by rw [hleast, zpow_neg, zpow_natCast]
      · rw [f.ofRatio_eq d.den_ratio_pos, worth_ratio]

/-- Zeros at the end of a coefficient may go. -/
theorem worth_strip (d : Decimal) : d.strip.worth = d.worth := by
  induction d using strip.induct with
  | case1 d h ih =>
    have hten : (d.coefficient : ℚ) = (d.coefficient / 10 : ℕ) * 10 := by
      exact_mod_cast (Nat.div_mul_cancel (Nat.dvd_of_mod_eq_zero h.2)).symm
    rw [strip, dif_pos h, ih, worth, worth, zpow_add_one₀ (by norm_num), hten]
    ring
  | case2 d h => rw [strip, dif_neg h]

end ValueStream.Decimal
