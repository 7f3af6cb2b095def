import ValueStream.Binary.Arithmetic
import ValueStream.Proofs.Binary.Nearest

/-!
How far rounding leads.

A number that is not among the least is rounded to one within a factor of it
that is barely more than one (`within_nearest`), and a number that fits into the
format stays what it is (`worth_nearest_of_fits`). Rounding asks no more of a
number than on which side of the midpoints it lies (`nearest_eq_of_midpoints`).
So a number that is off by the factor twice is rounded at most two magnitudes
away (`nearest_le_add_two`).
-/

namespace ValueStream.Binary

/-- Neither of two numbers is more than so many times the other. -/
def Within (c p q : ℚ) : Prop := p ≤ c * q ∧ q ≤ c * p

namespace Within

variable {c c' p p' q q' : ℚ}

theorem refl (q : ℚ) : Within 1 q q := ⟨(one_mul q).ge, (one_mul q).ge⟩

theorem trans (hc : 0 ≤ c) (hc' : 0 ≤ c') (h : Within c p q) (h' : Within c' q q') :
    Within (c * c') p q' := by
  constructor
  · calc p ≤ c * q := h.1
      _ ≤ c * (c' * q') := mul_le_mul_of_nonneg_left h'.1 hc
      _ = c * c' * q' := (mul_assoc _ _ _).symm
  · calc q' ≤ c' * q := h'.2
      _ ≤ c' * (c * p) := mul_le_mul_of_nonneg_left h.2 hc'
      _ = c * c' * p := by ring

theorem mono (hc : c ≤ c') (hp : 0 ≤ p) (hq : 0 ≤ q) (h : Within c p q) : Within c' p q :=
  ⟨h.1.trans (mul_le_mul_of_nonneg_right hc hq), h.2.trans (mul_le_mul_of_nonneg_right hc hp)⟩

theorem mul (hc : 0 ≤ c) (hp : 0 ≤ p) (hq : 0 ≤ q) (hp' : 0 ≤ p') (hq' : 0 ≤ q')
    (h : Within c p q) (h' : Within c' p' q') : Within (c * c') (p * p') (q * q') := by
  have hcq : 0 ≤ c * q := mul_nonneg hc hq
  have hcp : 0 ≤ c * p := mul_nonneg hc hp
  constructor
  · calc p * p' ≤ c * q * (c' * q') := mul_le_mul h.1 h'.1 hp' hcq
      _ = c * c' * (q * q') := by ring
  · calc q * q' ≤ c * p * (c' * p') := mul_le_mul h.2 h'.2 hq' hcp
      _ = c * c' * (p * p') := by ring

theorem inv (hp : 0 < p) (hq : 0 < q) (h : Within c p q) : Within c p⁻¹ q⁻¹ := by
  constructor
  · rw [← div_eq_mul_inv, le_div_iff₀ hq, inv_mul_le_iff₀ hp, mul_comm]
    exact h.2
  · rw [← div_eq_mul_inv, le_div_iff₀ hp, inv_mul_le_iff₀ hq, mul_comm]
    exact h.1

end Within

/-- What is taken is at most half of a step away. -/
theorem abs_nearestEven_sub_le {q : ℚ} (hq : 0 ≤ q) : |(nearestEven q : ℚ) - q| ≤ 1 / 2 := by
  have hfloor := (nearestEven_spec hq ⌊q⌋₊).1
  have hnext := (nearestEven_spec hq (⌊q⌋₊ + 1)).1
  have hbelow := Nat.floor_le hq
  have habove := (Nat.lt_floor_add_one q).le
  rw [abs_of_nonpos (sub_nonpos.mpr hbelow)] at hfloor
  rw [Nat.cast_add, Nat.cast_one, abs_of_nonneg (sub_nonneg.mpr habove)] at hnext
  linarith

namespace Format

variable (f : Format)

/-- What rounding multiplies or divides a number by, at most. -/
def factor : ℚ := 1 + 1 / (2 * f.fractionWeight)

theorem one_le_factor : 1 ≤ f.factor := by
  rw [factor]
  have : (0 : ℚ) ≤ 1 / (2 * f.fractionWeight) := by positivity
  linarith

/-- A number with its leading bit in a binade is rounded to one within the factor. -/
theorem within_nearest (hf : f.Proper) {q : ℚ} (hleast : 2 ^ (f.leastExponent + f.fractionBits) ≤ q)
    (hq : q < 2 ^ (f.bias + 1)) : Within f.factor (f.value (f.nearest q)).worth q := by
  have hpos : 0 < q := (zpow_pos two_pos _).trans_le hleast
  have hweight : (0 : ℚ) < f.fractionWeight := by exact_mod_cast f.fractionWeight_pos
  obtain ⟨j, x, rfl, hx, hlead, hnearest, hcarry⟩ := f.nearest_parts hf.bias hpos hq
  have hunit : (0 : ℚ) < 2 ^ (f.leastExponent + j : ℤ) := zpow_pos two_pos _
  have hlarge : (f.fractionWeight : ℚ) ≤ x := by
    by_cases hj : j = 0
    · rw [hj, Nat.cast_zero, add_zero, zpow_add₀ two_ne_zero, ← cast_fractionWeight, mul_comm x]
        at hleast
      exact le_of_mul_le_mul_left hleast (zpow_pos two_pos _)
    · exact hlead hj
  have hrounded := le_nearestEven hlarge
  have hroundedCast : (f.fractionWeight : ℚ) ≤ nearestEven x := by exact_mod_cast hrounded
  have hhalf : |(nearestEven x : ℚ) - x| ≤ 1 / 2 := abs_nearestEven_sub_le hx
  rw [abs_le] at hhalf
  rw [hnearest, f.worth_of_parts hcarry (.inl hrounded)]
  -- half a unit is less than the factor makes of a significand with its leading bit
  have hfactor : ∀ y : ℚ, f.fractionWeight ≤ y → y + 1 / 2 ≤ f.factor * y := by
    intro y hy
    have hone : 1 / 2 ≤ 1 / (2 * f.fractionWeight) * y := by
      rw [div_mul_eq_mul_div, one_mul, div_le_div_iff₀ two_pos (by positivity)]
      linarith
    rw [factor, add_mul, one_mul]
    linarith
  have hup := hfactor x hlarge
  have hdown := hfactor _ hroundedCast
  constructor
  · rw [← mul_assoc]
    exact mul_le_mul_of_nonneg_right (by linarith) hunit.le
  · rw [← mul_assoc]
    exact mul_le_mul_of_nonneg_right (by linarith) hunit.le

/-- What stays in the range when it grows by the factor is not rounded to infinity. -/
theorem nearest_lt_infinity (hf : f.Proper) {q : ℚ}
    (hleast : 2 ^ (f.leastExponent + f.fractionBits) ≤ q) (hq : f.factor * q < 2 ^ (f.bias + 1)) :
    f.nearest q < f.infinity := by
  have hpos : 0 < q := (zpow_pos two_pos _).trans_le hleast
  have hless : q < 2 ^ (f.bias + 1) := (le_mul_of_one_le_left hpos.le f.one_le_factor).trans_lt hq
  have hworth := (f.within_nearest hf hleast hless).1.trans_lt hq
  rw [← f.worth_infinity hf.bias] at hworth
  exact f.worth_strictMono.lt_iff_lt.mp hworth

/-- What needs no more than the significand and the exponents of the format is left as it is. -/
theorem worth_nearest_of_fits (hf : f.Proper) {s : ℕ} {e : ℤ} (hs : s < 2 * f.fractionWeight)
    (he : f.leastExponent ≤ e) (h : (s : ℚ) * 2 ^ e < 2 ^ (f.bias + 1)) :
    (f.value (f.nearest (s * 2 ^ e))).worth = s * 2 ^ e := by
  rcases Nat.eq_zero_or_pos s with rfl | hpos
  · rw [Nat.cast_zero, zero_mul, nearest, if_pos rfl]
    have hworth := f.worth_of_parts (j := 0) (s := 0) (Nat.zero_le _) (.inr rfl)
    rw [Nat.zero_mul, Nat.cast_zero, zero_mul] at hworth
    exact hworth
  have hq : (0 : ℚ) < s * 2 ^ e := mul_pos (by exact_mod_cast hpos) (zpow_pos two_pos _)
  obtain ⟨j, x, hx, hnonneg, hlead, hnearest, hcarry⟩ := f.nearest_parts hf.bias hq h
  have hunit : (2 : ℚ) ^ (f.leastExponent + j : ℤ) ≠ 0 := (zpow_pos two_pos _).ne'
  -- the unit of the binade is not greater than that of the number
  have hfine : f.leastExponent + j ≤ e := by
    by_contra hcoarse
    have hj : j ≠ 0 := by omega
    have hdouble : (2 : ℚ) ^ (e + 1) ≤ 2 ^ (f.leastExponent + j : ℤ) :=
      zpow_le_zpow_right₀ one_le_two (by omega)
    have hproduct := mul_le_mul (hlead hj) hdouble (zpow_pos two_pos _).le hnonneg
    have hcast : (s : ℚ) < 2 * f.fractionWeight := by exact_mod_cast hs
    have hless := mul_lt_mul_of_pos_right hcast (zpow_pos two_pos e : (0 : ℚ) < 2 ^ e)
    rw [zpow_add_one₀ two_ne_zero, hx] at hproduct
    linarith
  obtain ⟨d, hd⟩ := Int.eq_ofNat_of_zero_le (sub_nonneg.mpr hfine)
  have hmultiple : x = (s * 2 ^ d : ℕ) := by
    apply mul_right_cancel₀ hunit
    rw [hx, (by omega : e = d + (f.leastExponent + j)), zpow_add₀ two_ne_zero, zpow_natCast]
    push_cast
    ring
  have hplace : f.fractionWeight ≤ s * 2 ^ d ∨ j = 0 := by
    by_cases hj : j = 0
    · exact .inr hj
    · have hle := hlead hj
      rw [hmultiple] at hle
      exact .inl (by exact_mod_cast hle)
  rw [hmultiple, nearestEven_natCast] at hnearest hcarry
  rw [hnearest, f.worth_of_parts hcarry hplace, ← hmultiple, hx]

/-! ## Arithmetic -/

theorem ofNat_eq (n : ℕ) : f.ofNat n = f.nearest n := by
  rw [ofNat, f.ofRatio_eq Nat.one_pos, Ratio.worth_ofNat]

/-- A product is rounded once. -/
theorem multiply_eq (a b : ℕ) :
    f.multiply a b = f.nearest ((f.value a).worth * (f.value b).worth) := by
  have hden : 0 < (f.value a).den * (f.value b).den :=
    Nat.mul_pos (f.den_value_pos a) (f.den_value_pos b)
  rw [multiply, f.ofRatio_eq hden, Ratio.worth, Ratio.worth, Ratio.worth]
  push_cast
  rw [div_mul_div_comm]

/-- A quotient is rounded once. -/
theorem divide_eq (a : ℕ) {b : ℕ} (hb : 0 < (f.value b).worth) :
    f.divide a b = f.nearest ((f.value a).worth / (f.value b).worth) := by
  have hnum : 0 < (f.value b).num := by
    apply Nat.pos_of_ne_zero
    intro hzero
    rw [(Ratio.worth_eq_zero_iff (f.den_value_pos b)).mpr hzero] at hb
    exact lt_irrefl _ hb
  rw [divide, f.ofRatio_eq (Nat.mul_pos (f.den_value_pos a) hnum), Ratio.worth, Ratio.worth,
    Ratio.worth]
  push_cast
  rw [div_div_div_eq]

/-! ## Midpoints -/

/-- Twice the number halfway between a magnitude and the next. -/
def doubleMidpoint (k : ℕ) : ℚ := (f.value k).worth + (f.value (k + 1)).worth

variable {f}

theorem nearest_le_of_lt (hf : f.Proper) {q : ℚ} {k : ℕ} (hq : 0 ≤ q)
    (h : 2 * q < f.doubleMidpoint k) : f.nearest q ≤ k := by
  rw [doubleMidpoint] at h
  have hmono := f.worth_strictMono.monotone
  by_contra hmore
  rw [Nat.not_le] at hmore
  have hnext := hmono (Nat.succ_le_of_lt hmore)
  have hstep := f.worth_strictMono (Nat.lt_succ_self k)
  dsimp only [Nat.succ_eq_add_one] at hnext hstep
  rcases lt_or_ge q (2 ^ (f.bias + 1)) with hsmall | hlarge
  · have hnear := (f.nearest_spec hf hq hsmall k).1
    rw [← sq_le_sq] at hnear
    nlinarith only [hnear, hnext, hstep, h]
  · rw [f.nearest_of_large hf.bias hlarge, f.worth_infinity hf.bias] at hnext
    linarith

theorem lt_nearest_of_lt (hf : f.Proper) {q : ℚ} {k : ℕ} (hq : 0 ≤ q) (hk : k < f.infinity)
    (h : f.doubleMidpoint k < 2 * q) : k < f.nearest q := by
  rw [doubleMidpoint] at h
  have hmono := f.worth_strictMono.monotone
  rcases lt_or_ge q (2 ^ (f.bias + 1)) with hsmall | hlarge
  · by_contra hless
    rw [Nat.not_lt] at hless
    have hbelow := hmono hless
    have hstep := f.worth_strictMono (Nat.lt_succ_self k)
    dsimp only [Nat.succ_eq_add_one] at hbelow hstep
    have hnear := (f.nearest_spec hf hq hsmall (k + 1)).1
    rw [← sq_le_sq] at hnear
    nlinarith only [hnear, hbelow, hstep, h]
  · rw [f.nearest_of_large hf.bias hlarge]
    exact hk

/-- A number goes no farther above what it is rounded to than half of the unit there. -/
theorem two_mul_le_of_nearest (hf : f.Proper) {q : ℚ} (hq : 0 ≤ q) {m j s : ℕ}
    (hnearest : f.nearest q = m) (hm : m < f.infinity) (hsplit : m = j * f.fractionWeight + s)
    (hs : s < 2 * f.fractionWeight) (hj : f.fractionWeight ≤ s ∨ j = 0) :
    2 * q ≤ 2 * (f.value m).worth + 2 ^ (f.leastExponent + j : ℤ) := by
  by_contra habove
  have hmidpoint : f.doubleMidpoint m < 2 * q := by
    rw [doubleMidpoint, f.worth_succ hsplit hs hj]
    linarith
  have hmore := lt_nearest_of_lt hf hq hm hmidpoint
  rw [hnearest] at hmore
  exact absurd hmore (Nat.lt_irrefl m)

/-- Two numbers on the same side of every midpoint are rounded alike, if they are the same where
one of them is a midpoint. -/
theorem nearest_eq_of_midpoints (hf : f.Proper) {p q : ℚ} (hp : 0 ≤ p) (hq : 0 ≤ q)
    (h : ∀ k < f.infinity, p = q ∨ 2 * p < f.doubleMidpoint k ∧ 2 * q < f.doubleMidpoint k
      ∨ f.doubleMidpoint k < 2 * p ∧ f.doubleMidpoint k < 2 * q) : f.nearest p = f.nearest q := by
  rcases Nat.lt_trichotomy (f.nearest p) (f.nearest q) with hlt | heq | hlt
  · have hk := hlt.trans_le (f.nearest_le_infinity q)
    rcases h _ hk with rfl | ⟨-, hbelow⟩ | ⟨habove, -⟩
    · rfl
    · exact absurd (nearest_le_of_lt hf hq hbelow) (Nat.not_le.mpr hlt)
    · exact absurd (lt_nearest_of_lt hf hp hk habove) (Nat.lt_irrefl _)
  · exact heq
  · have hk := hlt.trans_le (f.nearest_le_infinity p)
    rcases h _ hk with rfl | ⟨hbelow, -⟩ | ⟨-, habove⟩
    · rfl
    · exact absurd (nearest_le_of_lt hf hp hbelow) (Nat.not_le.mpr hlt)
    · exact absurd (lt_nearest_of_lt hf hq hk habove) (Nat.lt_irrefl _)

/-- Magnitudes above are no closer to each other. -/
theorem worth_add_le {m j s : ℕ} (hsplit : m = j * f.fractionWeight + s)
    (hj : f.fractionWeight ≤ s ∨ j = 0) (n : ℕ) :
    (f.value m).worth + n * 2 ^ (f.leastExponent + j : ℤ) ≤ (f.value (m + n)).worth := by
  induction n with
  | zero => rw [Nat.cast_zero, zero_mul, add_zero, Nat.add_zero]
  | succ n ih =>
    obtain ⟨j', s', hsplit', -, hs', hj'⟩ := f.decode_spec (m + n)
    have hbinade : j ≤ j' := by
      by_contra hlower
      obtain ⟨d, rfl⟩ := Nat.exists_eq_add_of_lt (Nat.lt_of_not_le hlower)
      rw [Nat.add_mul, Nat.add_mul, Nat.one_mul] at hsplit
      omega
    have hunit : (2 : ℚ) ^ (f.leastExponent + j : ℤ) ≤ 2 ^ (f.leastExponent + j' : ℤ) :=
      zpow_le_zpow_right₀ one_le_two (by omega)
    rw [← Nat.add_assoc, f.worth_succ hsplit' hs' hj', Nat.cast_add, Nat.cast_one, add_mul, one_mul]
    linarith

theorem worth_add_least_le (m : ℕ) :
    (f.value m).worth + 2 ^ f.leastExponent ≤ (f.value (m + 1)).worth := by
  obtain ⟨j, s, hsplit, -, hs, hj⟩ := f.decode_spec m
  rw [f.worth_succ hsplit hs hj]
  exact add_le_add_right (zpow_le_zpow_right₀ one_le_two (by omega)) _

/-- Where a number is off by the factor twice, rounding is off by two magnitudes at most. -/
theorem nearest_le_add_two (hf : f.Proper) {p q : ℚ} (hp : 0 ≤ p) (hq : 0 ≤ q)
    (h : p ≤ f.factor * f.factor * q) : f.nearest p ≤ f.nearest q + 2 := by
  rcases (f.nearest_le_infinity q).lt_or_eq with hfinite | hinfinite
  · generalize hk : f.nearest q = k at hfinite ⊢
    apply nearest_le_of_lt hf hp
    obtain ⟨j, s, hsplit, hdecode, hs, hj⟩ := f.decode_spec k
    have hbelow := two_mul_le_of_nearest hf hq hk hfinite hsplit hs hj
    have htwo := worth_add_le hsplit hj 2
    have hthree := worth_add_le hsplit hj 3
    have hworth := f.worth_value k
    rw [hdecode] at hworth
    rw [doubleMidpoint, Nat.add_assoc]
    dsimp only at hworth
    push_cast at htwo hthree
    have hunit : (0 : ℚ) < 2 ^ (f.leastExponent + j : ℤ) := zpow_pos two_pos _
    generalize (2 : ℚ) ^ (f.leastExponent + j : ℤ) = unit at *
    have hweight : (0 : ℚ) < f.fractionWeight := by exact_mod_cast f.fractionWeight_pos
    -- twice the factor is less than two units, even at the end of a binade
    have hfactor : f.factor * f.factor * (2 * s + 1) < 2 * s + 5 := by
      have hcast : (s : ℚ) + 1 ≤ 2 * f.fractionWeight := by exact_mod_cast hs
      rw [factor]
      generalize (f.fractionWeight : ℚ) = w at hweight hcast
      have hsurplus : (1 + 1 / (2 * w)) * (1 + 1 / (2 * w)) = 1 + (4 * w + 1) / (4 * w ^ 2) := by
        field_simp
        ring
      have hsmall : (4 * w + 1) / (4 * w ^ 2) * (2 * s + 1) < 4 := by
        rw [div_mul_eq_mul_div, div_lt_iff₀ (by positivity)]
        nlinarith only [hweight, hcast]
      rw [hsurplus]
      linarith
    have hscaled := mul_lt_mul_of_pos_right hfactor hunit
    have hdoubled := mul_le_mul_of_nonneg_left hbelow
      (mul_self_nonneg f.factor : 0 ≤ f.factor * f.factor)
    rw [hworth] at hdoubled htwo hthree
    linarith
  · exact (f.nearest_le_infinity p).trans (by omega)

end Format

end ValueStream.Binary
