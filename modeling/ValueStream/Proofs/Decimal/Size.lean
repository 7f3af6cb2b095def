import ValueStream.Decimal.Shortest
import ValueStream.Proofs.Binary.Ratio

/-!
How many decimal places a number has.

30103 powers of ten are a little more than 100000 powers of two, and the surplus
is less than a factor of two. So 0.30103 stands for the logarithm of two up to
an error that takes very many binary places to come to a single one
(`ten_zpow_le`, `two_zpow_le`). Over the sizes that floating numbers have, the
estimated count of decimal places is off by one at most, and what is found is
the logarithm (`floorLog10_eq`).
-/

namespace ValueStream.Binary

/-! ## Powers of ten among the powers of two -/

section Exponents

variable {n p : ℕ} {size k : ℤ}

theorem ten_zpow_le (hlow : 2 ^ n ≤ 10 ^ p) (hhigh : 10 ^ p ≤ 2 ^ (n + 1)) (hsize : size ≤ n) :
    (10 : ℚ) ^ (p * size) ≤ 2 ^ (n * (size + 1)) := by
  have hlow' : (2 : ℚ) ^ n ≤ 10 ^ p := by exact_mod_cast hlow
  have hhigh' : (10 : ℚ) ^ p ≤ 2 ^ (n + 1) := by exact_mod_cast hhigh
  rw [zpow_mul, zpow_natCast]
  rcases le_total 0 size with hpos | hneg
  · calc ((10 : ℚ) ^ p) ^ size ≤ (2 ^ (n + 1)) ^ size :=
          zpow_le_zpow_left₀ hpos (by positivity) hhigh'
      _ = 2 ^ (((n + 1 : ℕ) : ℤ) * size) := by rw [← zpow_natCast, ← zpow_mul]
      _ ≤ 2 ^ (n * (size + 1)) := zpow_le_zpow_right₀ one_le_two (by push_cast; linarith)
  · have hinv : ((10 : ℚ) ^ p) ^ size ≤ (2 ^ n) ^ size := by
      rw [← inv_le_inv₀ (by positivity) (by positivity), ← zpow_neg, ← zpow_neg]
      exact zpow_le_zpow_left₀ (by omega) (by positivity) hlow'
    calc ((10 : ℚ) ^ p) ^ size ≤ (2 ^ n) ^ size := hinv
      _ = 2 ^ (n * size) := by rw [← zpow_natCast, ← zpow_mul]
      _ ≤ 2 ^ (n * (size + 1)) := zpow_le_zpow_right₀ one_le_two (by linarith)

theorem two_zpow_le (hlow : 2 ^ n ≤ 10 ^ p) (hhigh : 10 ^ p ≤ 2 ^ (n + 1)) (hsize : -n ≤ size) :
    (2 : ℚ) ^ (n * (size - 1)) ≤ 10 ^ (p * size) := by
  have hlow' : (2 : ℚ) ^ n ≤ 10 ^ p := by exact_mod_cast hlow
  have hhigh' : (10 : ℚ) ^ p ≤ 2 ^ (n + 1) := by exact_mod_cast hhigh
  rw [zpow_mul 10, zpow_natCast]
  rcases le_total 0 size with hpos | hneg
  · calc (2 : ℚ) ^ (n * (size - 1)) ≤ 2 ^ (n * size) :=
          zpow_le_zpow_right₀ one_le_two (by linarith)
      _ = (2 ^ n) ^ size := by rw [zpow_mul, zpow_natCast]
      _ ≤ (10 ^ p) ^ size := zpow_le_zpow_left₀ hpos (by positivity) hlow'
  · have hinv : ((2 : ℚ) ^ (n + 1)) ^ size ≤ (10 ^ p) ^ size := by
      rw [← inv_le_inv₀ (by positivity) (by positivity), ← zpow_neg, ← zpow_neg]
      exact zpow_le_zpow_left₀ (by omega) (by positivity) hhigh'
    calc (2 : ℚ) ^ (n * (size - 1)) ≤ 2 ^ (((n + 1 : ℕ) : ℤ) * size) :=
          zpow_le_zpow_right₀ one_le_two (by push_cast; linarith)
      _ = (2 ^ (n + 1)) ^ size := by rw [zpow_mul, zpow_natCast]
      _ ≤ (10 ^ p) ^ size := hinv

theorem zpow_le_of_multiple {a b : ℚ} (hb : 0 < b) {i j : ℤ} (hn : n ≠ 0)
    (h : a ^ (n * i) ≤ b ^ (n * j)) : a ^ i ≤ b ^ j := by
  rw [mul_comm, zpow_mul, mul_comm, zpow_mul, zpow_natCast, zpow_natCast] at h
  exact le_of_pow_le_pow_left₀ hn (zpow_pos hb j).le h

/-- An estimate from below is at most one place too great. -/
theorem ten_zpow_le_of_estimate (hlow : 2 ^ n ≤ 10 ^ p) (hhigh : 10 ^ p ≤ 2 ^ (n + 1))
    (hn : n ≠ 0) (hsize : size ≤ n) (hk : k * n ≤ size * p) : (10 : ℚ) ^ (k - 1) ≤ 2 ^ size := by
  have hpowers : (10 : ℚ) ^ (n * k) ≤ 2 ^ (n * (size + 1)) :=
    (zpow_le_zpow_right₀ (by norm_num) (by linarith)).trans (ten_zpow_le hlow hhigh hsize)
  have hroot : (10 : ℚ) ^ k ≤ 2 ^ (size + 1) := zpow_le_of_multiple two_pos hn hpowers
  have hpos : (0 : ℚ) < 2 ^ size := zpow_pos two_pos _
  rw [zpow_add_one₀ two_ne_zero] at hroot
  rw [zpow_sub_one₀ (by norm_num), ← div_eq_mul_inv, div_le_iff₀ (by norm_num)]
  linarith

/-- An estimate from above is at most one place too small. -/
theorem two_zpow_le_of_estimate (hlow : 2 ^ n ≤ 10 ^ p) (hhigh : 10 ^ p ≤ 2 ^ (n + 1))
    (hn : n ≠ 0) (hsize : -n ≤ size) (hk : size * p ≤ k * n) :
    (2 : ℚ) ^ (size + 1) ≤ 10 ^ (k + 1) := by
  have hpowers : (2 : ℚ) ^ (n * (size - 1)) ≤ 10 ^ (n * k) :=
    (two_zpow_le hlow hhigh hsize).trans (zpow_le_zpow_right₀ (by norm_num) (by linarith))
  have hroot : (2 : ℚ) ^ (size - 1) ≤ 10 ^ k := zpow_le_of_multiple (by norm_num) hn hpowers
  have hpos : (0 : ℚ) < 10 ^ k := zpow_pos (by norm_num) _
  rw [zpow_sub_one₀ two_ne_zero, ← div_eq_mul_inv, div_le_iff₀ two_pos] at hroot
  rw [zpow_add_one₀ two_ne_zero, zpow_add_one₀ (by norm_num)]
  linarith

/-- Exponents that the estimate tells apart belong to different powers. -/
theorem two_pow_lt_of_estimate (hlow : 2 ^ n ≤ 10 ^ p) {a b : ℕ} (h : a * p < b * n) :
    2 ^ a < 10 ^ b := by
  apply lt_of_pow_lt_pow_left₀ n (Nat.zero_le _)
  calc (2 ^ a) ^ n = (2 ^ n) ^ a := by rw [← pow_mul, ← pow_mul, mul_comm]
    _ ≤ (10 ^ p) ^ a := Nat.pow_le_pow_left hlow a
    _ = 10 ^ (a * p) := by rw [← pow_mul, mul_comm]
    _ < 10 ^ (b * n) := Nat.pow_lt_pow_right (by decide) h
    _ = (10 ^ b) ^ n := by rw [pow_mul]

end Exponents

theorem two_pow_le_ten_pow : 2 ^ 100000 ≤ 10 ^ 30103 := by decide +kernel

theorem ten_pow_le_two_pow : 10 ^ 30103 ≤ 2 ^ (100000 + 1) := by decide +kernel

/-- The greatest power of ten that is not greater is found, for numbers of moderate size. -/
theorem Ratio.floorLog10_eq {r : Ratio} (hnum : 0 < r.num) (hden : 0 < r.den)
    (hleast : -100000 ≤ Int.log 2 r.worth) (hgreatest : Int.log 2 r.worth ≤ 100000) :
    r.floorLog10 = Int.log 10 r.worth := by
  have hpos : 0 < r.worth := Ratio.worth_pos hnum hden
  have hbelow := Int.zpow_log_le_self one_lt_two hpos
  have habove := Int.lt_zpow_succ_log_self one_lt_two r.worth
  rw [Nat.cast_ofNat] at hbelow habove
  rw [floorLog10, floorLog2_eq hnum hden]
  generalize Int.log 2 r.worth = size at *
  generalize hk : (size * 30103).fdiv 100000 = k
  rw [Int.fdiv_eq_ediv_of_nonneg _ (by decide)] at hk
  have hlower : (10 : ℚ) ^ (k - 1) ≤ r.worth :=
    (ten_zpow_le_of_estimate two_pow_le_ten_pow ten_pow_le_two_pow (by decide) hgreatest
      (by omega)).trans hbelow
  have hupper : r.worth < (10 : ℚ) ^ (k + 1 + 1) :=
    habove.trans_le (two_zpow_le_of_estimate two_pow_le_ten_pow ten_pow_le_two_pow (by decide)
      hleast (by omega))
  have htest : ∀ i : ℤ, (r.scale 10 (-i)).atLeastOne = true ↔ (10 : ℚ) ^ i ≤ r.worth :=
    Ratio.atLeastOne_scale_iff (by decide) hden
  by_cases hmore : (10 : ℚ) ^ (k + 1) ≤ r.worth
  · rw [if_pos ((htest _).mpr hmore)]
    exact (log_eq_of_bounds (by decide) hmore hupper).symm
  · rw [if_neg (fun h => hmore ((htest _).mp h))]
    rw [not_le] at hmore
    by_cases hsame : (10 : ℚ) ^ k ≤ r.worth
    · rw [if_pos ((htest _).mpr hsame)]
      exact (log_eq_of_bounds (by decide) hsame hmore).symm
    · rw [if_neg (fun h => hsame ((htest _).mp h))]
      rw [not_le] at hsame
      refine (log_eq_of_bounds (by decide) hlower ?_).symm
      rw [sub_add_cancel]
      exact hsame

end ValueStream.Binary

namespace ValueStream.Decimal

open Binary

/-- With enough digits numerals stand closer together than the significands of the format. -/
theorem two_pow_lt_enoughDigits (f : Format) :
    2 ^ (f.fractionBits + 1) < 10 ^ (enoughDigits f - 1) := by
  apply two_pow_lt_of_estimate two_pow_le_ten_pow
  rw [enoughDigits]
  omega

end ValueStream.Decimal
