import ValueStream.Json.Number
import ValueStream.Proofs.Binary.Error

/-!
How far the quick conversion of a number leads.

The digits, the power of ten and their product or quotient are each rounded to
a double (`product`, `scale?_eq`). A rounding is off by the factor of the format
at most, so the three lead at most two magnitudes away
(`scale?_of_product`). Where neither the digits nor the power are rounded, there
is one rounding left, the right one (`product_eq`).

Below the greatest power of ten there are two quotients and four roundings
(`scale?_of_low`). They lead no farther, because the greatest power is rounded
by little and because what the first quotient is off by shrinks when it is
divided again (`two_quotients_le`, `le_two_quotients`). Both come together in
`scale?_near`.
-/

namespace ValueStream.Json

open Binary Format

/-! ## Whole numbers and powers of ten -/

theorem two_mul_fractionWeight : 2 * double.fractionWeight = 2 ^ 53 := by decide +kernel

theorem factor_eq : double.factor = 1 + 1 / 2 ^ 53 := by
  have hweight : (2 : ℚ) * double.fractionWeight = 2 ^ 53 := by exact_mod_cast two_mul_fractionWeight
  rw [factor, hweight]

/-- A whole number with at most as many binary places as a significand is a double, and so it is
with factors of two behind it. -/
theorem worth_nearest_natCast {s e : ℕ} (hs : s < 2 ^ 53) (he : e ≤ 970) :
    (double.value (double.nearest (s * 2 ^ e))).worth = s * 2 ^ e := by
  have hlimit : (s : ℚ) * 2 ^ e < 2 ^ (double.bias + 1) := by
    have hcast : (s : ℚ) < 2 ^ 53 := by exact_mod_cast hs
    calc (s : ℚ) * 2 ^ e < 2 ^ 53 * 2 ^ e := mul_lt_mul_of_pos_right hcast (pow_pos two_pos e)
      _ = 2 ^ (53 + e) := (pow_add _ _ _).symm
      _ ≤ 2 ^ (double.bias + 1) := pow_le_pow_right₀ one_le_two (by
          rw [show double.bias = 1023 by decide]
          omega)
  have hleast : double.leastExponent ≤ e := by
    rw [show double.leastExponent = -1074 by decide]
    omega
  have hfits := double.worth_nearest_of_fits double_proper (two_mul_fractionWeight ▸ hs) hleast
    (by rw [zpow_natCast]; exact hlimit)
  rw [zpow_natCast] at hfits
  exact hfits

theorem worth_ofNat {n : ℕ} (h : n < 2 ^ 53) : (double.value (double.ofNat n)).worth = n := by
  have hworth := worth_nearest_natCast h (Nat.zero_le 970)
  rw [pow_zero, mul_one] at hworth
  rw [ofNat_eq, hworth]

/-- Small powers of ten are doubles: what is left of them when the factors of two are taken out
fits into the significand. -/
theorem worth_power {e : ℕ} (h : e ≤ 22) : (double.value (power e)).worth = 10 ^ e := by
  have hfive : 5 ^ e < 2 ^ 53 :=
    (Nat.pow_le_pow_right (by decide) h).trans_lt (by decide)
  have hten : ((10 ^ e : ℕ) : ℚ) = (5 ^ e : ℕ) * 2 ^ e := by
    rw [← Nat.cast_ofNat (R := ℚ), ← Nat.cast_pow, ← Nat.cast_mul, ← Nat.mul_pow]
  rw [power, Nat.pow_eq, ofNat_eq, hten, worth_nearest_natCast hfive (by omega), ← hten,
    Nat.cast_pow, Nat.cast_ofNat]

theorem within_nearest_natCast {n : ℕ} (hpos : 0 < n) (h : (n : ℚ) < 2 ^ (double.bias + 1)) :
    Within double.factor (double.value (double.nearest n)).worth n := by
  apply double.within_nearest double_proper _ h
  have hone : (1 : ℚ) ≤ n := by exact_mod_cast hpos
  exact (zpow_le_one_of_nonpos₀ one_le_two (by decide)).trans hone

theorem within_ofNat {n : ℕ} (hpos : 0 < n) (h : n < 2 ^ 64) :
    Within double.factor (double.value (double.ofNat n)).worth n := by
  rw [ofNat_eq]
  apply within_nearest_natCast hpos
  calc (n : ℚ) < 2 ^ 64 := by exact_mod_cast h
    _ ≤ 2 ^ (double.bias + 1) := pow_le_pow_right₀ one_le_two (by decide)

theorem within_power {e : ℕ} (h : e ≤ 308) :
    Within double.factor (double.value (power e)).worth (10 ^ e) := by
  have hlimit : 10 ^ e < 2 ^ (double.bias + 1) :=
    (Nat.pow_le_pow_right (by decide) h).trans_lt (by decide +kernel)
  have hwithin := within_nearest_natCast (Nat.pow_pos (by decide) : 0 < 10 ^ e)
    (by exact_mod_cast hlimit)
  rw [power, Nat.pow_eq, ofNat_eq]
  rw [Nat.cast_pow, Nat.cast_ofNat] at hwithin ⊢
  exact hwithin

theorem worth_power_pos {e : ℕ} (h : e ≤ 308) : 0 < (double.value (power e)).worth := by
  have hten : (0 : ℚ) < 10 ^ e := pow_pos (by norm_num) e
  have hfactor : 0 < double.factor := one_pos.trans_le double.one_le_factor
  have hwithin := hten.trans_le (within_power h).2
  exact pos_of_mul_pos_right (by linarith) hfactor.le

/-! ## One product or one quotient -/

/-- What is rounded at the end: digits that are rounded already, times or divided by a power that
is, too. -/
def product (n : ℕ) (e : ℤ) : ℚ :=
  if 0 ≤ e then (double.value (double.ofNat n)).worth * (double.value (power e.toNat)).worth
  else (double.value (double.ofNat n)).worth / (double.value (power (-e).toNat)).worth

theorem scale?_of_neg (m : ℕ) {k : ℕ} (hk : 1 ≤ k) (hk' : k ≤ 308) :
    scale? m (-(k : ℤ)) = some (double.divide m (power k)) := by
  rw [scale?, if_neg (by omega), if_pos (by rw [greatestPower]; omega), neg_neg, Int.toNat_natCast]

/-- Unless it becomes infinite, it is what comes out. -/
theorem scale?_eq {n : ℕ} {e : ℤ} (hlow : -308 ≤ e) (hhigh : e ≤ 308)
    (hfinite : double.nearest (product n e) < double.infinity) :
    scale? (double.ofNat n) e = some (double.nearest (product n e)) := by
  unfold product at hfinite ⊢
  by_cases he : 0 ≤ e
  · rw [if_pos he] at hfinite ⊢
    rw [scale?, if_pos he, if_pos (by rw [greatestPower]; omega), multiply_eq, if_neg hfinite.ne]
  · obtain ⟨k, rfl⟩ : ∃ k : ℕ, e = -(k : ℤ) := ⟨(-e).toNat, by omega⟩
    have hk : k ≤ 308 := by omega
    rw [if_neg he, neg_neg, Int.toNat_natCast, scale?_of_neg _ (by omega) hk,
      divide_eq _ _ (worth_power_pos hk)]

theorem product_nonneg (n : ℕ) (e : ℤ) : 0 ≤ product n e := by
  unfold product
  split
  · exact mul_nonneg (Ratio.worth_nonneg _) (Ratio.worth_nonneg _)
  · exact div_nonneg (Ratio.worth_nonneg _) (Ratio.worth_nonneg _)

/-- The power is off by the factor at most, and so are the digits. -/
theorem within_product_of_digits {n : ℕ} {e : ℤ} {c : ℚ} (hc : 0 ≤ c)
    (hdigits : Within c (double.value (double.ofNat n)).worth n) (hlow : -308 ≤ e)
    (hhigh : e ≤ 308) : Within (c * double.factor) (product n e) (n * 10 ^ e) := by
  have hn : (0 : ℚ) ≤ n := Nat.cast_nonneg n
  unfold product
  by_cases he : 0 ≤ e
  · obtain ⟨k, rfl⟩ := Int.eq_ofNat_of_zero_le he
    have hk : k ≤ 308 := by omega
    rw [if_pos he, Int.toNat_natCast, zpow_natCast]
    exact hdigits.mul hc (Ratio.worth_nonneg _) hn (Ratio.worth_nonneg _) (by positivity)
      (within_power hk)
  · obtain ⟨k, rfl⟩ : ∃ k : ℕ, e = -(k : ℤ) := ⟨(-e).toNat, by omega⟩
    have hk : k ≤ 308 := by omega
    rw [if_neg he, neg_neg, Int.toNat_natCast, zpow_neg, zpow_natCast, div_eq_mul_inv]
    exact hdigits.mul hc (Ratio.worth_nonneg _) hn (inv_nonneg.mpr (Ratio.worth_nonneg _))
      (by positivity) ((within_power hk).inv (worth_power_pos hk) (by positivity))

theorem within_product {n : ℕ} {e : ℤ} (hpos : 0 < n) (h : n < 2 ^ 64) (hlow : -308 ≤ e)
    (hhigh : e ≤ 308) : Within (double.factor * double.factor) (product n e) (n * 10 ^ e) :=
  within_product_of_digits (zero_le_one.trans double.one_le_factor) (within_ofNat hpos h) hlow hhigh

/-- Digits that fit into a significand leave only the power to be rounded. -/
theorem within_product_of_fits {n : ℕ} {e : ℤ} (h : n < 2 ^ 53) (hlow : -308 ≤ e) (hhigh : e ≤ 308) :
    Within double.factor (product n e) (n * 10 ^ e) := by
  have hself : Within 1 (double.value (double.ofNat n)).worth n := by
    rw [worth_ofNat h]
    exact .refl _
  have hwithin := within_product_of_digits zero_le_one hself hlow hhigh
  rw [one_mul] at hwithin
  exact hwithin

/-- Digits that fit into a significand and powers that are doubles are not off at all. -/
theorem product_eq {n : ℕ} {e : ℤ} (h : n < 2 ^ 53) (hlow : -22 ≤ e) (hhigh : e ≤ 22) :
    product n e = n * 10 ^ e := by
  unfold product
  rw [worth_ofNat h]
  by_cases he : 0 ≤ e
  · obtain ⟨k, rfl⟩ := Int.eq_ofNat_of_zero_le he
    rw [if_pos he, Int.toNat_natCast, worth_power (by omega), zpow_natCast]
  · obtain ⟨k, rfl⟩ : ∃ k : ℕ, e = -(k : ℤ) := ⟨(-e).toNat, by omega⟩
    rw [if_neg he, neg_neg, Int.toNat_natCast, worth_power (by omega), zpow_neg, zpow_natCast,
      div_eq_mul_inv]

/-- With one product or quotient, a double that digits stand for comes out two magnitudes off at
most. -/
theorem scale?_of_product {n m : ℕ} {e : ℤ} (hpos : 0 < n) (hn : n < 2 ^ 64) (hlow : -308 ≤ e)
    (hhigh : e ≤ 308) (hm : double.nearest (n * 10 ^ e) = m) (htop : m + 2 < double.infinity) :
    ∃ r, scale? (double.ofNat n) e = some r ∧ r ≤ m + 2 ∧ m ≤ r + 2
      ∧ (n < 2 ^ 53 → -22 ≤ e → e ≤ 22 → r = m) := by
  have hproduct := product_nonneg n e
  have hnumeral : (0 : ℚ) ≤ n * 10 ^ e := by positivity
  obtain ⟨habove, hbelow⟩ := within_product hpos hn hlow hhigh
  have hmore := nearest_le_add_two double_proper hproduct hnumeral habove
  have hless := nearest_le_add_two double_proper hnumeral hproduct hbelow
  rw [hm] at hmore hless
  refine ⟨_, scale?_eq hlow hhigh (hmore.trans_lt htop), hmore, hless, ?_⟩
  intro hfew hlow hhigh
  rw [product_eq hfew hlow hhigh, hm]

/-! ## Two quotients -/

theorem ofNat_ne_zero {n : ℕ} (hpos : 0 < n) (h : n < 2 ^ 64) : double.ofNat n ≠ 0 := by
  intro hzero
  have hwithin := (within_ofNat hpos h).2
  have hvalue : (double.value 0).worth = 0 := by
    rw [worth_value, show (double.decode 0).1 = 0 by decide +kernel, Nat.cast_zero, zero_mul]
  rw [hzero, hvalue, mul_zero] at hwithin
  exact absurd hwithin (not_le.mpr (by exact_mod_cast hpos))

/-- Below the greatest power, that one is divided by first. -/
theorem scale?_of_low {n k : ℕ} (hpos : 0 < n) (hn : n < 2 ^ 64) (hk : 1 ≤ k) (hk' : k ≤ 308) :
    scale? (double.ofNat n) (-((308 + k : ℕ) : ℤ))
      = some (double.divide (double.divide (double.ofNat n) (power 308)) (power k)) := by
  have hrest : -((308 + k : ℕ) : ℤ) + greatestPower = -(k : ℤ) := by
    rw [greatestPower]
    omega
  rw [scale?, if_neg (by omega), if_neg (by rw [greatestPower]; omega), if_neg (ofNat_ne_zero hpos hn),
    hrest, scale?_of_neg _ hk hk']
  rfl

theorem divide_few : ∀ n ∈ [1, 2], ∀ k ∈ List.range 17,
    let r := double.divide (double.divide (double.ofNat n) (power 308)) (power k)
    let m := double.ofRatio ⟨n, 10 ^ (308 + k)⟩
    r ≤ m + 2 ∧ m ≤ r + 2 := by
  decide +kernel

/-- The greatest power is rounded up, by less than a tenth of what it might be. -/
theorem worth_power_greatest :
    10 ^ 308 ≤ (double.value (power 308)).worth
      ∧ (double.value (power 308)).worth ≤ (1 + 99 / (1000 * 2 ^ 53)) * 10 ^ 308 := by
  have hden : (0 : ℚ) < (double.value (power 308)).den := by
    exact_mod_cast double.den_value_pos (power 308)
  have hup : 10 ^ 308 * (double.value (power 308)).den ≤ (double.value (power 308)).num := by
    decide +kernel
  have hlittle : 1000 * 2 ^ 53 * (double.value (power 308)).num
      ≤ (1000 * 2 ^ 53 + 99) * 10 ^ 308 * (double.value (power 308)).den := by
    decide +kernel
  have hup' : (10 : ℚ) ^ 308 * (double.value (power 308)).den ≤ (double.value (power 308)).num := by
    exact_mod_cast hup
  have hlittle' : (1000 * 2 ^ 53 : ℚ) * (double.value (power 308)).num
      ≤ (1000 * 2 ^ 53 + 99) * 10 ^ 308 * (double.value (power 308)).den := by
    exact_mod_cast hlittle
  rw [Ratio.worth, le_div_iff₀ hden, div_le_iff₀ hden]
  refine ⟨hup', ?_⟩
  have hsplit : (1 + 99 / (1000 * 2 ^ 53) : ℚ) = (1000 * 2 ^ 53 + 99) / (1000 * 2 ^ 53) := by
    norm_num
  rw [hsplit, div_mul_eq_mul_div, div_mul_eq_mul_div, le_div_iff₀ (by norm_num), mul_comm]
  exact hlittle'

section TwoQuotients

variable {n k : ℕ}

/-- From three on the first quotient is not among the least doubles, also when it is rounded. -/
theorem le_first_quotient (hn : 3 ≤ n) (hlimit : n < 2 ^ 64) :
    double.factor * 2 ^ (-1022 : ℤ) ≤ product n (-308) := by
  have hwithin := (within_product (by omega : 0 < n) hlimit (le_refl (-308)) (by norm_num)).2
  have hthree : (3 : ℚ) ≤ n := by exact_mod_cast hn
  have hsquare : 0 < double.factor * double.factor := by
    rw [factor_eq]
    norm_num
  have hcube : double.factor * double.factor * double.factor ≤ 134 / 100 := by
    rw [factor_eq]
    norm_num
  have hsize : (134 / 100 : ℚ) * 2 ^ (-1022 : ℤ) ≤ 3 * 10 ^ (-308 : ℤ) := by
    have hpowers : (134 : ℚ) * 10 ^ 308 ≤ 300 * 2 ^ 1022 := by
      exact_mod_cast (by decide +kernel : 134 * 10 ^ 308 ≤ 300 * 2 ^ 1022)
    rw [zpow_neg, zpow_neg, zpow_ofNat, zpow_ofNat, ← div_eq_mul_inv, ← div_eq_mul_inv,
      div_le_div_iff₀ (by positivity) (by positivity)]
    generalize (10 : ℚ) ^ 308 = ten at hpowers ⊢
    generalize (2 : ℚ) ^ 1022 = two at hpowers ⊢
    linarith
  apply le_of_mul_le_mul_left _ hsquare
  calc double.factor * double.factor * (double.factor * 2 ^ (-1022 : ℤ))
      = double.factor * double.factor * double.factor * 2 ^ (-1022 : ℤ) := (mul_assoc _ _ _).symm
    _ ≤ 134 / 100 * 2 ^ (-1022 : ℤ) := mul_le_mul_of_nonneg_right hcube (zpow_pos two_pos _).le
    _ ≤ 3 * 10 ^ (-308 : ℤ) := hsize
    _ ≤ n * 10 ^ (-308 : ℤ) := mul_le_mul_of_nonneg_right hthree (zpow_pos (by norm_num) _).le
    _ ≤ double.factor * double.factor * product n (-308) := hwithin

theorem first_quotient_lt (hpos : 0 < n) (hlimit : n < 2 ^ 64) :
    double.factor * product n (-308) < 2 ^ (double.bias + 1) := by
  have hwithin := (within_product hpos hlimit (le_refl (-308)) (by norm_num)).1
  have hn : (n : ℚ) < 2 ^ 64 := by exact_mod_cast hlimit
  have hpower : (10 : ℚ) ^ (-308 : ℤ) ≤ 1 := zpow_le_one_of_nonpos₀ (by norm_num) (by norm_num)
  have hfactor : double.factor ≤ 2 := by
    rw [factor_eq]
    norm_num
  have hone := double.one_le_factor
  calc double.factor * product n (-308)
      ≤ double.factor * (double.factor * double.factor * (n * 10 ^ (-308 : ℤ))) := by gcongr
    _ ≤ 2 * (2 * 2 * (n * 1)) := by gcongr
    _ < 2 ^ 67 := by linarith
    _ ≤ 2 ^ (double.bias + 1) := pow_le_pow_right₀ one_le_two (by decide)

/-- The first quotient is rounded within the factor, to a double with its leading bit. -/
theorem within_first_quotient (hn : 3 ≤ n) (hlimit : n < 2 ^ 64) :
    Within double.factor (double.value (double.nearest (product n (-308)))).worth (product n (-308))
      ∧ 2 ^ (-1022 : ℤ) ≤ (double.value (double.nearest (product n (-308)))).worth
      ∧ double.nearest (product n (-308)) < double.infinity := by
  have hone := double.one_le_factor
  have hnonneg := product_nonneg n (-308)
  have hlow := le_first_quotient hn hlimit
  have hhigh := first_quotient_lt (by omega : 0 < n) hlimit
  have hleast : (2 : ℚ) ^ (double.leastExponent + double.fractionBits) = 2 ^ (-1022 : ℤ) := by
    rw [show double.leastExponent + double.fractionBits = -1022 by decide]
  have hpositive : (0 : ℚ) < 2 ^ (-1022 : ℤ) := zpow_pos two_pos _
  have hnormal : 2 ^ (double.leastExponent + double.fractionBits) ≤ product n (-308) := by
    rw [hleast]
    exact (le_mul_of_one_le_left hpositive.le hone).trans hlow
  have hwithin := double.within_nearest double_proper hnormal
    ((le_mul_of_one_le_left hnonneg hone).trans_lt hhigh)
  refine ⟨hwithin, ?_, double.nearest_lt_infinity double_proper hnormal hhigh⟩
  exact le_of_mul_le_mul_left (hlow.trans hwithin.2) (by linarith)

/-- The unit of a double with its leading bit is not far above that of its quotient by a power of
ten. -/
theorem unit_le_of_quotient {i j s t : ℕ} (ht : (2 : ℚ) ^ 52 ≤ t) (hs : s < 2 * double.fractionWeight)
    (h : 2 * ((t : ℚ) * 2 ^ (double.leastExponent + i : ℤ))
      ≤ (2 * (s * 2 ^ (double.leastExponent + j : ℤ)) + 2 ^ (double.leastExponent + j : ℤ))
        * 10 ^ k) :
    (2 : ℚ) ^ (double.leastExponent + i : ℤ)
      ≤ 2 * 2 ^ Nat.log2 (10 ^ k) * 2 ^ (double.leastExponent + j : ℤ) := by
  have hten : (0 : ℚ) < 10 ^ k := by positivity
  have hunit : (0 : ℚ) < 2 ^ (double.leastExponent + j : ℤ) := zpow_pos two_pos _
  have hunit' : (0 : ℚ) < 2 ^ (double.leastExponent + i : ℤ) := zpow_pos two_pos _
  have hend : (s : ℚ) + 1 ≤ 2 ^ 53 := by exact_mod_cast two_mul_fractionWeight ▸ hs
  have hbound : (2 : ℚ) ^ 52 * 2 ^ (double.leastExponent + i : ℤ)
      < 2 ^ 52 * (2 * 10 ^ k * 2 ^ (double.leastExponent + j : ℤ)) := by
    have hless := mul_le_mul_of_nonneg_right ht hunit'.le
    have hmore := mul_le_mul_of_nonneg_right hend (mul_pos hunit hten).le
    have hpositive := mul_pos hunit hten
    linarith
  have hbinades : 2 ^ i < 2 * 10 ^ k * 2 ^ j := by
    have hless := lt_of_mul_lt_mul_left hbound (by positivity)
    rw [zpow_add₀ two_ne_zero, zpow_add₀ two_ne_zero, zpow_natCast, zpow_natCast,
      mul_left_comm] at hless
    exact_mod_cast lt_of_mul_lt_mul_left hless (zpow_pos two_pos _).le
  have hlog : 10 ^ k < 2 ^ (Nat.log2 (10 ^ k) + 1) := Nat.lt_log2_self
  have hless : 2 ^ i < 2 ^ (1 + (Nat.log2 (10 ^ k) + 1) + j) := by
    rw [pow_add, pow_add, pow_one]
    exact hbinades.trans (by gcongr)
  have hexponent := (Nat.pow_lt_pow_iff_right (by decide)).mp hless
  rw [← pow_succ', ← zpow_natCast, ← zpow_add₀ two_ne_zero]
  exact zpow_le_zpow_right₀ one_le_two (by push_cast; omega)

/-- Small powers of ten are well above the last power of two before them. -/
theorem log2_ten_pow_far (hk : 1 ≤ k) (hk' : k ≤ 16) :
    (10000 : ℚ) * 2 ^ Nat.log2 (10 ^ k) ≤ 9008 * 10 ^ k := by
  have hall : ∀ k ∈ List.range 17, 1 ≤ k → 10000 * 2 ^ Nat.log2 (10 ^ k) ≤ 9008 * 10 ^ k := by
    decide +kernel
  exact_mod_cast hall k (List.mem_range.mpr (by omega)) hk

/-- Dividing a rounded number by a power of ten leaves less of what rounding added than the unit
of the quotient, since the power is well above the last power of two before it. -/
theorem div_ten_pow_le (hk : 1 ≤ k) (hk' : k ≤ 16) {x : ℚ} (hx : 0 ≤ x)
    (hlead : 2 ^ (-1022 : ℤ) ≤ (double.value (double.nearest x)).worth)
    (hfinite : double.nearest x < double.infinity) {m j s : ℕ}
    (hm : double.nearest ((double.value (double.nearest x)).worth / 10 ^ k) = m)
    (hmfinite : m < double.infinity) (hsplit : m = j * double.fractionWeight + s)
    (hs : s < 2 * double.fractionWeight) (hj : double.fractionWeight ≤ s ∨ j = 0) :
    x / 10 ^ k ≤ (s + 14008 / 10000) * 2 ^ (double.leastExponent + j : ℤ) := by
  have hten : (0 : ℚ) < 10 ^ k := by positivity
  have hquotient : 0 ≤ (double.value (double.nearest x)).worth / 10 ^ k :=
    div_nonneg (Ratio.worth_nonneg _) hten.le
  have hbelow := two_mul_le_of_nearest double_proper hquotient hm hmfinite hsplit hs hj
  rw [hsplit, double.worth_of_parts hs.le hj] at hbelow
  obtain ⟨i, t, hsplit', -, ht, hi⟩ := double.decode_spec (double.nearest x)
  have hbefore := two_mul_le_of_nearest double_proper hx rfl hfinite hsplit' ht hi
  have hworth : (double.value (double.nearest x)).worth = t * 2 ^ (double.leastExponent + i : ℤ) := by
    rw [hsplit', double.worth_of_parts ht.le hi]
  rw [hworth] at hlead hbelow hbefore
  have hunit : (0 : ℚ) < 2 ^ (double.leastExponent + j : ℤ) := zpow_pos two_pos _
  -- the rounded number has its leading bit, and the quotient is below the end of its binade
  have hleading : (2 : ℚ) ^ 52 ≤ t := by
    rcases hi with hle | rfl
    · exact_mod_cast hle
    · rw [Nat.cast_zero, add_zero, show double.leastExponent = -1074 by decide,
        show (-1022 : ℤ) = 52 + -1074 by norm_num, zpow_add₀ two_ne_zero] at hlead
      exact le_of_mul_le_mul_right hlead (zpow_pos two_pos _)
  rw [mul_div_assoc', div_le_iff₀ hten] at hbelow
  have hunits := unit_le_of_quotient hleading hs hbelow
  have hfar := log2_ten_pow_far hk hk'
  rw [div_le_iff₀ hten]
  generalize (2 : ℚ) ^ Nat.log2 (10 ^ k) = near at hunits hfar
  generalize (2 : ℚ) ^ (double.leastExponent + i : ℤ) = unit' at *
  generalize (2 : ℚ) ^ (double.leastExponent + j : ℤ) = unit at *
  nlinarith only [hbelow, hbefore, hunits, hfar, hunit]

theorem natCast_mul_zpow_low (n k : ℕ) :
    (n : ℚ) * 10 ^ (-((308 + k : ℕ) : ℤ)) = n / 10 ^ 308 / 10 ^ k := by
  rw [zpow_neg, zpow_natCast, pow_add, ← div_eq_mul_inv, div_div]

/-- Two quotients come out at most two magnitudes above what the digits stand for: the greatest
power is rounded up, and so the first quotient is off by no more than the digits are. -/
theorem two_quotients_le (hn : 3 ≤ n) (hlimit : n < 2 ^ 64) :
    double.nearest ((double.value (double.nearest (product n (-308)))).worth / 10 ^ k)
      ≤ double.nearest (n * 10 ^ (-((308 + k : ℕ) : ℤ))) + 2 := by
  obtain ⟨hwithin, -, -⟩ := within_first_quotient hn hlimit
  obtain ⟨hpower, -⟩ := worth_power_greatest
  have hdigits := within_ofNat (by omega : 0 < n) hlimit
  have hten : (0 : ℚ) < 10 ^ k := by positivity
  have hfactor : 0 < double.factor := one_pos.trans_le double.one_le_factor
  have hproduct : product n (-308)
      = (double.value (double.ofNat n)).worth / (double.value (power 308)).worth := rfl
  rw [natCast_mul_zpow_low]
  apply nearest_le_add_two double_proper (div_nonneg (Ratio.worth_nonneg _) hten.le) (by positivity)
  have hfirst : product n (-308) ≤ double.factor * (n / 10 ^ 308) := by
    rw [hproduct, div_le_iff₀ (worth_power_pos (le_refl 308))]
    calc (double.value (double.ofNat n)).worth ≤ double.factor * n := hdigits.1
      _ = double.factor * (n / 10 ^ 308) * 10 ^ 308 := by
          rw [mul_assoc, div_mul_cancel₀ _ (by positivity)]
      _ ≤ double.factor * (n / 10 ^ 308) * (double.value (power 308)).worth := by gcongr
  rw [mul_div_assoc', div_le_div_iff_of_pos_right hten, mul_assoc]
  exact hwithin.1.trans (mul_le_mul_of_nonneg_left hfirst hfactor.le)

/-- What the digits stand for is off from the first quotient by little more than the factor. -/
theorem le_first_quotient_mul (hn : 3 ≤ n) (hlimit : n < 2 ^ 64) :
    (n : ℚ) / 10 ^ 308 ≤ double.factor * (1 + 99 / (1000 * 2 ^ 53)) * product n (-308) := by
  obtain ⟨-, hpower⟩ := worth_power_greatest
  have hdigits := within_ofNat (by omega : 0 < n) hlimit
  have hfactor : 0 < double.factor := one_pos.trans_le double.one_le_factor
  have hback : product n (-308) * (double.value (power 308)).worth
      = (double.value (double.ofNat n)).worth :=
    div_mul_cancel₀ _ (worth_power_pos (le_refl 308)).ne'
  rw [div_le_iff₀ (by positivity)]
  calc (n : ℚ) ≤ double.factor * (double.value (double.ofNat n)).worth := hdigits.2
    _ = double.factor * product n (-308) * (double.value (power 308)).worth := by
        rw [mul_assoc, hback]
    _ ≤ double.factor * product n (-308) * ((1 + 99 / (1000 * 2 ^ 53)) * 10 ^ 308) :=
        mul_le_mul_of_nonneg_left hpower (mul_nonneg hfactor.le (product_nonneg n (-308)))
    _ = double.factor * (1 + 99 / (1000 * 2 ^ 53)) * product n (-308) * 10 ^ 308 := by
        rw [← mul_assoc, mul_right_comm double.factor]

/-- Two quotients come out at most two magnitudes below what the digits stand for. -/
theorem le_two_quotients (hn : 3 ≤ n) (hlimit : n < 2 ^ 64) (hk : 1 ≤ k) (hk' : k ≤ 16) {r : ℕ}
    (hr : double.nearest ((double.value (double.nearest (product n (-308)))).worth / 10 ^ k) = r)
    (hfinite : r < double.infinity) :
    double.nearest (n * 10 ^ (-((308 + k : ℕ) : ℤ))) ≤ r + 2 := by
  obtain ⟨-, hlead, hfirst⟩ := within_first_quotient hn hlimit
  have hten : (0 : ℚ) < 10 ^ k := by positivity
  have hfactor : 0 < double.factor := one_pos.trans_le double.one_le_factor
  obtain ⟨j, s, hsplit, -, hs, hj⟩ := double.decode_spec r
  have hquotient :=
    div_ten_pow_le hk hk' (product_nonneg n _) hlead hfirst hr hfinite hsplit hs hj
  have htwo := double.worth_add_le hsplit hj 2
  have hthree := double.worth_add_le hsplit hj 3
  rw [natCast_mul_zpow_low]
  apply nearest_le_of_lt double_proper (by positivity)
  rw [doubleMidpoint, Nat.add_assoc]
  push_cast at htwo hthree
  have hworth : (double.value r).worth = s * 2 ^ (double.leastExponent + j : ℤ) := by
    rw [hsplit, double.worth_of_parts hs.le hj]
  have hend : (s : ℚ) + 1 ≤ 2 ^ 53 := by exact_mod_cast two_mul_fractionWeight ▸ hs
  have hunit : (0 : ℚ) < 2 ^ (double.leastExponent + j : ℤ) := zpow_pos two_pos _
  have hsum : double.factor * (1 + 99 / (1000 * 2 ^ 53)) * (2 * s + 28016 / 10000) < 2 * s + 5 := by
    rw [factor_eq]
    linarith only [hend]
  have hscaled := mul_lt_mul_of_pos_right hsum hunit
  have hquotient' := mul_le_mul_of_nonneg_left hquotient
    (mul_nonneg hfactor.le (by norm_num : (0 : ℚ) ≤ 1 + 99 / (1000 * 2 ^ 53)))
  have hlast := div_le_div_of_nonneg_right (le_first_quotient_mul hn hlimit) hten.le
  rw [mul_div_assoc] at hlast
  rw [hworth] at htwo hthree
  generalize (n : ℚ) / 10 ^ 308 / 10 ^ k = q at hlast ⊢
  linarith only [hscaled, hquotient', hlast, htwo, hthree]

end TwoQuotients

/-- A double that digits stand for comes out two magnitudes off at most, and as it is if neither
the digits nor the power are rounded. -/
theorem scale?_near {n m : ℕ} {e : ℤ} (hpos : 0 < n) (hn : n < 2 ^ 64) (hlow : -324 ≤ e)
    (hhigh : e ≤ 308) (hm : double.nearest (n * 10 ^ e) = m) (htop : m + 2 < double.infinity) :
    ∃ r, scale? (double.ofNat n) e = some r ∧ r ≤ m + 2 ∧ m ≤ r + 2
      ∧ (n < 2 ^ 53 → -22 ≤ e → e ≤ 22 → r = m) := by
  by_cases hone : -308 ≤ e
  · exact scale?_of_product hpos hn hone hhigh hm htop
  obtain ⟨k, rfl⟩ : ∃ k : ℕ, e = -((308 + k : ℕ) : ℤ) := ⟨(-e - 308).toNat, by omega⟩
  refine ⟨_, scale?_of_low hpos hn (by omega) (by omega), ?_⟩
  have hnear : double.divide (double.divide (double.ofNat n) (power 308)) (power k) ≤ m + 2
      ∧ m ≤ double.divide (double.divide (double.ofNat n) (power 308)) (power k) + 2 := by
    rcases Nat.lt_or_ge n 3 with hfew | hmany
    · have hratio : double.ofRatio ⟨n, 10 ^ (308 + k)⟩ = m := by
        rw [double.ofRatio_eq (Nat.pow_pos (by decide)), ← hm, Ratio.worth, zpow_neg, zpow_natCast,
          div_eq_mul_inv]
        push_cast
        rfl
      have hmem : n ∈ [1, 2] := by
        simp only [List.mem_cons, List.not_mem_nil, or_false]
        omega
      rw [← hratio]
      exact divide_few n hmem k (List.mem_range.mpr (by omega))
    · have hquotients : double.divide (double.divide (double.ofNat n) (power 308)) (power k)
          = double.nearest
            ((double.value (double.nearest (product n (-308)))).worth / 10 ^ k) := by
        rw [divide_eq _ _ (worth_power_pos (by omega)), worth_power (by omega),
          divide_eq _ _ (worth_power_pos (le_refl 308))]
        rfl
      have hmore := two_quotients_le (k := k) hmany hn
      rw [hm] at hmore
      have hless := le_two_quotients hmany hn (by omega) (by omega) rfl (hmore.trans_lt htop)
      rw [hm] at hless
      rw [hquotients]
      exact ⟨hmore, hless⟩
  refine ⟨hnear.1, hnear.2, fun _ hless => ?_⟩
  omega

end ValueStream.Json
