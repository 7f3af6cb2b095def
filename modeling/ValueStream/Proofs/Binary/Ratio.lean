import Mathlib.Algebra.Order.Field.Power
import Mathlib.Algebra.Order.Floor.Semifield
import Mathlib.Data.Int.Log
import Mathlib.Data.Rat.Floor
import Mathlib.Tactic.FieldSimp
import Mathlib.Tactic.Linarith
import Mathlib.Tactic.NormNum
import Mathlib.Tactic.Positivity
import Mathlib.Tactic.Ring
import ValueStream.Binary.Ratio

/-!
Ratios as rational numbers.

A ratio is compared, scaled, measured and rounded in whole numbers. What comes
out depends on nothing but the rational number it stands for (`worth`): its size
is that number's logarithm (`floorLog2_eq`), and the whole number nearest to it
is that number's (`roundHalfEven_eq`).
-/

namespace ValueStream.Binary

/-- The whole number nearest to a rational number, the even one of two that are equally near. -/
def nearestEven (q : ℚ) : ℕ :=
  let n := ⌊q⌋₊
  if q - n < 1 / 2 then n else if q - n = 1 / 2 then n + n % 2 else n + 1

theorem nearestEven_natCast (n : ℕ) : nearestEven n = n := by
  have hhalf : (n : ℚ) - n < 1 / 2 := by rw [sub_self]; norm_num
  rw [nearestEven, Nat.floor_natCast, if_pos hhalf]

/-- What is less than one half goes to zero. -/
theorem nearestEven_of_lt_half {q : ℚ} (hq : q < 1 / 2) : nearestEven q = 0 := by
  have hfloor : ⌊q⌋₊ = 0 := Nat.floor_eq_zero.mpr (hq.trans (by norm_num))
  rw [nearestEven, hfloor, Nat.cast_zero, sub_zero, if_pos hq]

/-- A whole number below is a whole number that is not passed. -/
theorem le_nearestEven {n : ℕ} {q : ℚ} (h : (n : ℚ) ≤ q) : n ≤ nearestEven q := by
  have hfloor : n ≤ ⌊q⌋₊ := Nat.le_floor h
  unfold nearestEven
  dsimp only
  split_ifs <;> omega

/-- A logarithm is known by the powers on both sides. -/
theorem log_eq_of_bounds {b : ℕ} (hb : 1 < b) {q : ℚ} {k : ℤ} (hlo : (b : ℚ) ^ k ≤ q)
    (hhi : q < (b : ℚ) ^ (k + 1)) : Int.log b q = k := by
  have hq : 0 < q := lt_of_lt_of_le (zpow_pos (by exact_mod_cast Nat.zero_lt_of_lt hb) k) hlo
  have hle := (Int.zpow_le_iff_le_log hb hq).mp hlo
  have hlt := (Int.lt_zpow_iff_log_lt hb hq).mp hhi
  omega

namespace Ratio

/-- The rational number that a ratio is. -/
def worth (r : Ratio) : ℚ := (r.num : ℚ) / r.den

theorem worth_ofNat (n : ℕ) : (ofNat n).worth = n := by
  rw [worth, ofNat, Nat.cast_one, div_one]

theorem worth_nonneg (r : Ratio) : 0 ≤ r.worth := div_nonneg (Nat.cast_nonneg _) (Nat.cast_nonneg _)

theorem worth_pos {r : Ratio} (hnum : 0 < r.num) (hden : 0 < r.den) : 0 < r.worth := by
  have hn : (0 : ℚ) < r.num := by exact_mod_cast hnum
  have hd : (0 : ℚ) < r.den := by exact_mod_cast hden
  exact div_pos hn hd

theorem worth_eq_zero_iff {r : Ratio} (hden : 0 < r.den) : r.worth = 0 ↔ r.num = 0 := by
  have hd : (r.den : ℚ) ≠ 0 := by exact_mod_cast hden.ne'
  rw [worth, div_eq_zero_iff, or_iff_left hd, Nat.cast_eq_zero]

theorem den_scale_pos {r : Ratio} (hden : 0 < r.den) {base : ℕ} (hbase : 0 < base) (e : ℤ) :
    0 < (r.scale base e).den := by
  unfold scale
  split
  · exact hden
  · exact Nat.mul_pos hden (Nat.pow_pos hbase)

/-- Scaling multiplies by a power. -/
theorem worth_scale {base : ℕ} (hbase : 0 < base) (r : Ratio) (e : ℤ) :
    (r.scale base e).worth = r.worth * (base : ℚ) ^ e := by
  have hb : (base : ℚ) ≠ 0 := by exact_mod_cast hbase.ne'
  unfold scale
  split
  · next he =>
    obtain ⟨n, rfl⟩ := Int.eq_ofNat_of_zero_le he
    simp only [worth, Nat.pow_eq, Int.toNat_natCast, Nat.cast_mul, Nat.cast_pow, zpow_natCast]
    ring
  · next he =>
    obtain ⟨n, rfl⟩ : ∃ n : ℕ, e = -(n : ℤ) := ⟨(-e).toNat, by omega⟩
    simp only [worth, Nat.pow_eq, neg_neg, Int.toNat_natCast, Nat.cast_mul, Nat.cast_pow,
      zpow_neg, zpow_natCast]
    rw [div_mul_eq_div_div, div_eq_mul_inv]

theorem atLeastOne_iff {r : Ratio} (hden : 0 < r.den) : r.atLeastOne = true ↔ 1 ≤ r.worth := by
  have hd : (0 : ℚ) < r.den := by exact_mod_cast hden
  rw [atLeastOne, decide_eq_true_eq, worth, one_le_div hd, Nat.cast_le]

/-- Whether a power is passed shows when it is divided out. -/
theorem atLeastOne_scale_iff {base : ℕ} (hbase : 0 < base) {r : Ratio} (hden : 0 < r.den) (k : ℤ) :
    (r.scale base (-k)).atLeastOne = true ↔ (base : ℚ) ^ k ≤ r.worth := by
  have hb : (0 : ℚ) < base := by exact_mod_cast hbase
  rw [atLeastOne_iff (den_scale_pos hden hbase _), worth_scale hbase, zpow_neg, ← div_eq_mul_inv,
    one_le_div (zpow_pos hb k)]

/-- The whole part is that of the rational number. -/
theorem floor_eq (r : Ratio) : r.floor = ⌊r.worth⌋₊ := (Nat.floor_div_eq_div r.num r.den).symm

/-- The greatest power of two that is not greater is found. -/
theorem floorLog2_eq {r : Ratio} (hnum : 0 < r.num) (hden : 0 < r.den) :
    r.floorLog2 = Int.log 2 r.worth := by
  have hd : (0 : ℚ) < r.den := by exact_mod_cast hden
  generalize hk : (r.num.log2 : ℤ) - r.den.log2 = k
  -- the lengths of the two parts hold the ratio between two powers that are two places apart
  have hlo : (2 : ℚ) ^ (k - 1) < r.worth := by
    have hn : (2 : ℚ) ^ r.num.log2 ≤ r.num := by exact_mod_cast Nat.log2_self_le hnum.ne'
    have hdlt : (r.den : ℚ) < 2 ^ (r.den.log2 + 1) := by exact_mod_cast Nat.lt_log2_self
    have hsplit : (2 : ℚ) ^ (k - 1) * 2 ^ (r.den.log2 + 1) = 2 ^ r.num.log2 := by
      rw [← zpow_natCast, ← zpow_natCast, ← zpow_add₀ two_ne_zero]
      congr 1
      push_cast
      omega
    rw [worth, lt_div_iff₀ hd]
    calc (2 : ℚ) ^ (k - 1) * r.den < 2 ^ (k - 1) * 2 ^ (r.den.log2 + 1) := by gcongr
      _ = 2 ^ r.num.log2 := hsplit
      _ ≤ r.num := hn
  have hhi : r.worth < (2 : ℚ) ^ (k + 1) := by
    have hn : (r.num : ℚ) < 2 ^ (r.num.log2 + 1) := by exact_mod_cast Nat.lt_log2_self
    have hdle : (2 : ℚ) ^ r.den.log2 ≤ r.den := by exact_mod_cast Nat.log2_self_le hden.ne'
    have hsplit : (2 : ℚ) ^ (k + 1) * 2 ^ r.den.log2 = 2 ^ (r.num.log2 + 1) := by
      rw [← zpow_natCast, ← zpow_natCast, ← zpow_add₀ two_ne_zero]
      congr 1
      push_cast
      omega
    rw [worth, div_lt_iff₀ hd]
    calc (r.num : ℚ) < 2 ^ (r.num.log2 + 1) := hn
      _ = 2 ^ (k + 1) * 2 ^ r.den.log2 := hsplit.symm
      _ ≤ 2 ^ (k + 1) * r.den := by gcongr
  have hone : (r.scale 2 (-k)).atLeastOne = true ↔ (2 : ℚ) ^ k ≤ r.worth :=
    atLeastOne_scale_iff two_pos hden k
  unfold floorLog2
  rw [hk]
  dsimp only
  by_cases h : (2 : ℚ) ^ k ≤ r.worth
  · rw [if_pos (hone.mpr h)]
    exact (log_eq_of_bounds one_lt_two (by exact_mod_cast h) (by exact_mod_cast hhi)).symm
  · rw [if_neg (fun hle => h (hone.mp hle))]
    rw [not_le] at h
    refine (log_eq_of_bounds one_lt_two (by exact_mod_cast hlo.le) ?_).symm
    rw [sub_add_cancel]
    exact_mod_cast h

/-- What is left after the whole part. -/
theorem worth_sub_floor {r : Ratio} (hden : 0 < r.den) :
    r.worth - r.floor = ((r.num % r.den : ℕ) : ℚ) / r.den := by
  have hd : (r.den : ℚ) ≠ 0 := by exact_mod_cast hden.ne'
  have hsplit : (r.num : ℚ) = r.den * (r.floor : ℚ) + ((r.num % r.den : ℕ) : ℚ) := by
    exact_mod_cast (Nat.div_add_mod r.num r.den).symm
  rw [worth, hsplit]
  field_simp
  ring

theorem compareHalf_eq_lt_iff {r : Ratio} (hden : 0 < r.den) :
    r.compareHalf = .lt ↔ r.worth - r.floor < 1 / 2 := by
  have hd : (0 : ℚ) < r.den := by exact_mod_cast hden
  rw [compareHalf, Nat.compare_eq_lt, worth_sub_floor hden, div_lt_div_iff₀ hd two_pos, one_mul,
    mul_comm]
  exact_mod_cast Iff.rfl

theorem compareHalf_eq_eq_iff {r : Ratio} (hden : 0 < r.den) :
    r.compareHalf = .eq ↔ r.worth - r.floor = 1 / 2 := by
  have hd : (r.den : ℚ) ≠ 0 := by exact_mod_cast hden.ne'
  rw [compareHalf, Nat.compare_eq_eq, worth_sub_floor hden, div_eq_div_iff hd two_ne_zero, one_mul,
    mul_comm]
  exact_mod_cast Iff.rfl

/-- Rounding in whole numbers is rounding the rational number. -/
theorem roundHalfEven_eq {r : Ratio} (hden : 0 < r.den) : r.roundHalfEven = nearestEven r.worth := by
  have hlt := compareHalf_eq_lt_iff hden
  have heq := compareHalf_eq_eq_iff hden
  rw [nearestEven, ← floor_eq, roundHalfEven]
  cases hhalf : r.compareHalf with
  | lt => rw [if_pos (hlt.mp hhalf)]
  | eq =>
    have hsame := heq.mp hhalf
    rw [if_neg (hsame ▸ lt_irrefl _), if_pos hsame]
  | gt =>
    rw [hhalf] at hlt heq
    rw [if_neg (fun h => absurd (hlt.mpr h) (by decide)),
      if_neg (fun h => absurd (heq.mpr h) (by decide))]

end Ratio

end ValueStream.Binary
