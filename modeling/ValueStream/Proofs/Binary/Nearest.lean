import ValueStream.Proofs.Binary.Format

/-!
Rounding is to the nearest magnitude, and to the even one of two.

Rounding works in one binade, where magnitudes are the multiples of a power of
two: it takes the nearest multiple, and the even one of two that are equally
near (`nearestEven_spec`). Magnitudes of higher binades are multiples of the
power as well, and those of lower binades lie below the binade, so none of them
is nearer (`nearest_spec`). Infinity counts as the number that would come next
after the largest.

Greater magnitudes stand for greater numbers (`worth_strictMono`), so rounding
never turns two numbers around (`nearest_mono`), and whatever lies less than
halfway from a magnitude to the next on either side is rounded to it
(`nearest_of_close`). Steps need to be only a little finer than the significands
for one of them to come that close (`nearest_of_step`).
-/

namespace ValueStream.Binary

/-- A whole number lies at or below the whole part of a number, or at or above the next. -/
theorem dist_natCast {q : ℚ} {n : ℕ} (hfloor : n ≤ q) (hnext : q < n + 1) (k : ℕ) :
    |(k : ℚ) - q| = q - k ∧ (k : ℚ) ≤ n ∨ |(k : ℚ) - q| = k - q ∧ (n : ℚ) + 1 ≤ k := by
  rcases Nat.lt_or_ge n k with h | h
  · have hcast : (n : ℚ) + 1 ≤ k := by exact_mod_cast h
    exact Or.inr ⟨abs_of_nonneg (by linarith), hcast⟩
  · have hcast : (k : ℚ) ≤ n := by exact_mod_cast h
    refine Or.inl ⟨?_, hcast⟩
    rw [abs_of_nonpos (by linarith), neg_sub]

/-- No whole number is nearer than the one that is taken, and if one is as near, that one is even. -/
theorem nearestEven_spec {q : ℚ} (hq : 0 ≤ q) (k : ℕ) :
    |(nearestEven q : ℚ) - q| ≤ |(k : ℚ) - q|
      ∧ (k ≠ nearestEven q → |(nearestEven q : ℚ) - q| = |(k : ℚ) - q| → nearestEven q % 2 = 0) := by
  have hfloor := Nat.floor_le hq
  have hnext := Nat.lt_floor_add_one q
  have hsides := dist_natCast hfloor hnext k
  rw [nearestEven]
  generalize ⌊q⌋₊ = n at hfloor hnext hsides
  split
  · next hless =>
    rw [abs_of_nonpos (by linarith), neg_sub]
    rcases hsides with ⟨habs, hcast⟩ | ⟨habs, hcast⟩
    · rw [habs]
      refine ⟨by linarith, fun hne heq => absurd ?_ hne⟩
      have hsame : (k : ℚ) = n := by linarith
      exact_mod_cast hsame
    · rw [habs]
      exact ⟨by linarith, fun _ heq => by linarith⟩
  · next hnotless =>
    split
    · next hhalf =>
      have habs : |((n + n % 2 : ℕ) : ℚ) - q| = 1 / 2 := by
        rcases Nat.mod_two_eq_zero_or_one n with h | h
        · rw [h, Nat.add_zero, abs_of_nonpos (by linarith)]
          linarith
        · rw [h, Nat.cast_add, Nat.cast_one, abs_of_nonneg (by linarith)]
          linarith
      rw [habs]
      refine ⟨?_, fun _ _ => by omega⟩
      rcases hsides with ⟨hk, hcast⟩ | ⟨hk, hcast⟩ <;> rw [hk] <;> linarith
    · next hnothalf =>
      have hmore : 1 / 2 < q - n := lt_of_le_of_ne (not_lt.mp hnotless) (Ne.symm hnothalf)
      rw [Nat.cast_add, Nat.cast_one, abs_of_nonneg (by linarith)]
      rcases hsides with ⟨habs, hcast⟩ | ⟨habs, hcast⟩
      · rw [habs]
        exact ⟨by linarith, fun _ heq => by linarith⟩
      · rw [habs]
        refine ⟨by linarith, fun hne heq => absurd ?_ hne⟩
        have hsame : (k : ℚ) = (n : ℚ) + 1 := by linarith
        exact_mod_cast hsame

/-- Among the multiples of a unit it is the same. -/
theorem nearestEven_spec_unit {x unit : ℚ} (hx : 0 ≤ x) (hunit : 0 < unit) (k : ℕ) :
    |nearestEven x * unit - x * unit| ≤ |k * unit - x * unit|
      ∧ (k ≠ nearestEven x → |nearestEven x * unit - x * unit| = |k * unit - x * unit| →
        nearestEven x % 2 = 0) := by
  obtain ⟨hnear, htie⟩ := nearestEven_spec hx k
  simp only [← sub_mul, abs_mul, abs_of_pos hunit]
  refine ⟨mul_le_mul_of_nonneg_right hnear hunit.le, ?_⟩
  intro hne heq
  exact htie hne (mul_right_cancel₀ hunit.ne' heq)

theorem nearestEven_le {q : ℚ} (hq : 0 ≤ q) {n : ℕ} (h : q < n) : nearestEven q ≤ n := by
  have hfloor : ⌊q⌋₊ < n := (Nat.floor_lt hq).mpr h
  unfold nearestEven
  dsimp only
  split_ifs <;> omega

namespace Format

variable (f : Format)

/-! ## The parts of a magnitude -/

/-- A magnitude has one significand in one binade. -/
theorem parts_unique {j s j' s' : ℕ} (h : j * f.fractionWeight + s = j' * f.fractionWeight + s')
    (hs : s < 2 * f.fractionWeight) (hs' : s' < 2 * f.fractionWeight)
    (hj : f.fractionWeight ≤ s ∨ j = 0) (hj' : f.fractionWeight ≤ s' ∨ j' = 0) :
    j = j' ∧ s = s' := by
  rcases Nat.lt_trichotomy j j' with hlt | rfl | hlt
  · obtain ⟨d, rfl⟩ := Nat.exists_eq_add_of_lt hlt
    rw [Nat.add_mul, Nat.add_mul, Nat.one_mul] at h
    omega
  · exact ⟨rfl, by omega⟩
  · obtain ⟨d, rfl⟩ := Nat.exists_eq_add_of_lt hlt
    rw [Nat.add_mul, Nat.add_mul, Nat.one_mul] at h
    omega

/-- What a magnitude stands for, from its parts; the significand may have just been carried into
the next binade. -/
theorem worth_of_parts {j s : ℕ} (hs : s ≤ 2 * f.fractionWeight)
    (hj : f.fractionWeight ≤ s ∨ j = 0) :
    (f.value (j * f.fractionWeight + s)).worth = s * 2 ^ (f.leastExponent + j) := by
  have hpos := f.fractionWeight_pos
  obtain ⟨j', s', hsplit, hdecode, hs', hj'⟩ := f.decode_spec (j * f.fractionWeight + s)
  rw [worth_value, hdecode]
  dsimp only
  rcases hs.lt_or_eq with hlt | rfl
  · obtain ⟨rfl, rfl⟩ := f.parts_unique hsplit hlt hs' hj hj'
    rfl
  · have hcarry : (j + 1) * f.fractionWeight + f.fractionWeight
        = j' * f.fractionWeight + s' := by
      rw [← hsplit, Nat.add_mul, Nat.one_mul]
      omega
    obtain ⟨rfl, rfl⟩ := f.parts_unique hcarry (by omega) hs' (Or.inl (Nat.le_refl _)) hj'
    rw [Nat.cast_add, Nat.cast_one, ← add_assoc, zpow_add_one₀ two_ne_zero]
    push_cast
    ring

/-- The same multiple of a binade's unit is the same magnitude, be it a carry or not. -/
theorem parts_of_multiple {j d s : ℕ} (hj : f.fractionWeight ≤ s ∨ j + d = 0)
    (hcarry : s * 2 ^ d ≤ 2 * f.fractionWeight) :
    (j + d) * f.fractionWeight + s = j * f.fractionWeight + s * 2 ^ d := by
  cases d with
  | zero => rw [Nat.pow_zero, Nat.mul_one, Nat.add_zero]
  | succ d =>
    have hpos := f.fractionWeight_pos
    have hlead : f.fractionWeight ≤ s := hj.resolve_right (by omega)
    have hpower : 2 ^ (d + 1) = 2 * 2 ^ d := Nat.pow_succ'
    have hone : 2 ^ d = 1 := by
      by_contra hmore
      have htwo : 2 ≤ 2 ^ d := by have := Nat.two_pow_pos d; omega
      have hproduct := Nat.mul_le_mul hlead (Nat.mul_le_mul_left 2 htwo)
      rw [hpower] at hcarry
      omega
    have hzero : d = 0 := (Nat.pow_eq_one.mp hone).resolve_left (by decide)
    rw [hzero, Nat.zero_add, Nat.pow_one] at hcarry ⊢
    rw [Nat.add_mul, Nat.one_mul]
    omega

/-- Within the range of the format, rounding takes the nearest multiple in the binade of the
number, and carries at most into the next. -/
theorem nearest_parts (hbias : 1 ≤ f.bias) {q : ℚ} (hq : 0 < q) (h : q < 2 ^ (f.bias + 1)) :
    ∃ (j : ℕ) (x : ℚ), x * 2 ^ (f.leastExponent + j) = q ∧ 0 ≤ x
      ∧ (j ≠ 0 → (f.fractionWeight : ℚ) ≤ x)
      ∧ f.nearest q = j * f.fractionWeight + nearestEven x
      ∧ nearestEven x ≤ 2 * f.fractionWeight := by
  have hleast : f.leastExponent = 1 - (f.bias : ℤ) - f.fractionBits := rfl
  have hlower := Int.zpow_log_le_self one_lt_two hq
  have hupper := Int.lt_zpow_succ_log_self one_lt_two q
  have hlog : Int.log 2 q < f.bias + 1 := by
    apply (Int.lt_zpow_iff_log_lt one_lt_two hq).mp
    exact_mod_cast h
  obtain ⟨j, hj⟩ : ∃ j : ℕ, max f.leastExponent (Int.log 2 q - f.fractionBits)
      = f.leastExponent + j :=
    ⟨(max f.leastExponent (Int.log 2 q - f.fractionBits) - f.leastExponent).toNat, by omega⟩
  have hback : q * 2 ^ (-(f.leastExponent + j : ℤ)) * 2 ^ (f.leastExponent + j : ℤ) = q := by
    rw [mul_assoc, ← zpow_add₀ two_ne_zero, neg_add_cancel, zpow_zero, mul_one]
  have hx : (0 : ℚ) ≤ q * 2 ^ (-(f.leastExponent + j : ℤ)) :=
    mul_nonneg hq.le (zpow_pos two_pos _).le
  have hsignificand : nearestEven (q * 2 ^ (-(f.leastExponent + j : ℤ))) ≤ 2 * f.fractionWeight := by
    apply nearestEven_le hx
    rw [Nat.cast_mul, cast_fractionWeight, zpow_neg, ← div_eq_mul_inv,
      div_lt_iff₀ (zpow_pos two_pos _), Nat.cast_ofNat, ← zpow_one_add₀ two_ne_zero,
      ← zpow_add₀ two_ne_zero]
    refine lt_of_lt_of_le hupper ?_
    rw [Nat.cast_ofNat]
    exact zpow_le_zpow_right₀ one_le_two (by omega)
  refine ⟨j, _, hback, hx, ?_, ?_, hsignificand⟩
  · intro hne
    rw [cast_fractionWeight, zpow_neg, ← div_eq_mul_inv, le_div_iff₀ (zpow_pos two_pos _),
      ← zpow_add₀ two_ne_zero]
    refine le_trans ?_ hlower
    rw [Nat.cast_ofNat]
    exact zpow_le_zpow_right₀ one_le_two (by omega)
  · rw [nearest, if_neg hq.ne', hj]
    dsimp only
    rw [add_sub_cancel_left, Int.toNat_natCast]
    -- the binade is one of the format, so that nothing is cut off at infinity
    have hbinade : j ≤ 2 * f.bias - 1 := by omega
    have hproduct := Nat.mul_le_mul_right f.fractionWeight hbinade
    have hall : (2 * f.bias - 1) * f.fractionWeight + f.fractionWeight
        = 2 * f.bias * f.fractionWeight := by
      rw [← Nat.succ_mul]
      congr 1
      omega
    apply min_eq_left
    rw [f.infinity_eq hbias]
    omega

theorem fractionWeight_even (hfraction : 0 < f.fractionBits) : f.fractionWeight % 2 = 0 := by
  obtain ⟨n, hn⟩ := Nat.exists_eq_succ_of_ne_zero hfraction.ne'
  rw [fractionWeight, hn, Nat.pow_eq, Nat.pow_succ, Nat.mul_mod_left]

/-- A magnitude of a lower binade lies below the binade. -/
theorem worth_lt_of_lower {j m : ℕ} {j' s' : ℕ} (hdecode : f.decode m = (s', f.leastExponent + j'))
    (hs' : s' < 2 * f.fractionWeight) (hlt : j' < j) :
    (f.value m).worth < f.fractionWeight * 2 ^ (f.leastExponent + j) := by
  have hcast : (s' : ℚ) < 2 * f.fractionWeight := by exact_mod_cast hs'
  have hpowers : (2 : ℚ) ^ (f.leastExponent + j' + 1) ≤ 2 ^ (f.leastExponent + j) :=
    zpow_le_zpow_right₀ one_le_two (by omega)
  rw [worth_value, hdecode]
  calc (s' : ℚ) * 2 ^ (f.leastExponent + j')
      < 2 * f.fractionWeight * 2 ^ (f.leastExponent + j') :=
        mul_lt_mul_of_pos_right hcast (zpow_pos two_pos _)
    _ = f.fractionWeight * 2 ^ (f.leastExponent + j' + 1) := by
        rw [zpow_add_one₀ two_ne_zero]
        ring
    _ ≤ f.fractionWeight * 2 ^ (f.leastExponent + j) :=
        mul_le_mul_of_nonneg_left hpowers (Nat.cast_nonneg _)

/-- So it is farther away than the multiple that is taken. -/
theorem dist_lt_of_lower {j m : ℕ} {j' s' : ℕ} {x : ℚ}
    (hdecode : f.decode m = (s', f.leastExponent + j')) (hs' : s' < 2 * f.fractionWeight)
    (hlt : j' < j) (hx : 0 ≤ x) (hlead : (f.fractionWeight : ℚ) ≤ x) :
    |nearestEven x * 2 ^ (f.leastExponent + j) - x * 2 ^ (f.leastExponent + j)|
      < |(f.value m).worth - x * 2 ^ (f.leastExponent + j)| := by
  have hbelow := f.worth_lt_of_lower hdecode hs' hlt
  have hunit : (0 : ℚ) < 2 ^ (f.leastExponent + j) := zpow_pos two_pos _
  have hbinade := mul_le_mul_of_nonneg_right hlead hunit.le
  calc |nearestEven x * 2 ^ (f.leastExponent + j) - x * 2 ^ (f.leastExponent + j)|
      ≤ |f.fractionWeight * 2 ^ (f.leastExponent + j) - x * 2 ^ (f.leastExponent + j)| :=
        (nearestEven_spec_unit hx hunit f.fractionWeight).1
    _ = x * 2 ^ (f.leastExponent + j) - f.fractionWeight * 2 ^ (f.leastExponent + j) := by
        rw [abs_of_nonpos (by linarith), neg_sub]
    _ < x * 2 ^ (f.leastExponent + j) - (f.value m).worth := sub_lt_sub_left hbelow _
    _ = |(f.value m).worth - x * 2 ^ (f.leastExponent + j)| := by
        rw [abs_of_nonpos (by linarith), neg_sub]

/-- No magnitude is nearer than the one that is taken, and if another is as near, the one that is
taken is even. -/
theorem nearest_spec (hf : f.Proper) {q : ℚ} (hq : 0 ≤ q) (h : q < 2 ^ (f.bias + 1)) (m : ℕ) :
    |(f.value (f.nearest q)).worth - q| ≤ |(f.value m).worth - q|
      ∧ (m ≠ f.nearest q → |(f.value (f.nearest q)).worth - q| = |(f.value m).worth - q| →
        f.nearest q % 2 = 0) := by
  rcases hq.eq_or_lt with rfl | hpos
  · have hzero : f.nearest 0 = 0 := if_pos rfl
    have hworth : (f.value 0).worth = 0 := by
      have hparts := f.worth_of_parts (j := 0) (s := 0) (Nat.zero_le _) (Or.inr rfl)
      rw [Nat.zero_mul, Nat.add_zero, Nat.cast_zero, zero_mul] at hparts
      exact hparts
    rw [hzero, hworth, sub_self, abs_zero]
    exact ⟨abs_nonneg _, fun _ _ => rfl⟩
  · obtain ⟨j, x, rfl, hx, hlead, hnearest, hcarry⟩ := f.nearest_parts hf.bias hpos h
    have hunit : (0 : ℚ) < 2 ^ (f.leastExponent + j) := zpow_pos two_pos _
    have hplace : f.fractionWeight ≤ nearestEven x ∨ j = 0 := by
      by_cases hj : j = 0
      · exact Or.inr hj
      · exact Or.inl (le_nearestEven (hlead hj))
    rw [hnearest, f.worth_of_parts hcarry hplace]
    obtain ⟨j', s', hsplit, hdecode, hs', hj'⟩ := f.decode_spec m
    rcases Nat.lt_or_ge j' j with hlt | hle
    · have hfarther := f.dist_lt_of_lower hdecode hs' hlt hx (hlead (by omega))
      exact ⟨hfarther.le, fun _ heq => absurd heq hfarther.ne⟩
    · -- in this binade and above all magnitudes are multiples of the unit
      obtain ⟨d, rfl⟩ := Nat.exists_eq_add_of_le hle
      have hworth : (f.value m).worth
          = ((s' * 2 ^ d : ℕ) : ℚ) * 2 ^ (f.leastExponent + j : ℤ) := by
        rw [worth_value, hdecode, Nat.cast_add, ← add_assoc, zpow_add₀ two_ne_zero, zpow_natCast]
        push_cast
        ring
      obtain ⟨hnear, htie⟩ := nearestEven_spec_unit hx hunit (s' * 2 ^ d)
      rw [hworth]
      refine ⟨hnear, ?_⟩
      intro hne heq
      have hother : s' * 2 ^ d ≠ nearestEven x := by
        intro hsame
        apply hne
        rw [hsplit, ← hsame]
        exact f.parts_of_multiple hj' (hsame ▸ hcarry)
      rw [Nat.add_mod, Nat.mul_mod, f.fractionWeight_even hf.fraction, htie hother heq,
        Nat.mul_zero]

/-! ## Order -/

/-- The next magnitude is one unit of the binade away. -/
theorem worth_succ {m j s : ℕ} (hsplit : m = j * f.fractionWeight + s)
    (hs : s < 2 * f.fractionWeight) (hj : f.fractionWeight ≤ s ∨ j = 0) :
    (f.value (m + 1)).worth = (f.value m).worth + 2 ^ (f.leastExponent + j : ℤ) := by
  have hnext := f.worth_of_parts (j := j) (s := s + 1) hs (hj.imp_left (fun h => by omega))
  rw [← Nat.add_assoc, ← hsplit] at hnext
  rw [hnext, hsplit, f.worth_of_parts hs.le hj]
  push_cast
  ring

theorem worth_strictMono : StrictMono (fun m => (f.value m).worth) := by
  apply strictMono_nat_of_lt_succ
  intro m
  obtain ⟨j, s, hsplit, -, hs, hj⟩ := f.decode_spec m
  rw [f.worth_succ hsplit hs hj]
  exact lt_add_of_pos_right _ (zpow_pos two_pos _)

/-- The magnitudes below are a unit away, unless a binade begins. -/
theorem worth_add_unit_le {m n j s : ℕ} (hsplit : m = j * f.fractionWeight + s)
    (hs : s < 2 * f.fractionWeight) (hlead : f.fractionWeight < s ∨ j = 0) (hn : n < m) :
    (f.value n).worth + 2 ^ (f.leastExponent + j : ℤ) ≤ (f.value m).worth := by
  have hpos : 0 < s := by
    rcases hlead with hlt | rfl
    · exact Nat.zero_lt_of_lt hlt
    · omega
  have hpred := f.worth_succ (m := j * f.fractionWeight + (s - 1)) rfl (by omega) (by omega)
  rw [Nat.add_assoc, Nat.sub_add_cancel hpos, ← hsplit] at hpred
  have hle : n ≤ j * f.fractionWeight + (s - 1) := by omega
  have hmonotone := f.worth_strictMono.monotone hle
  linarith

theorem worth_infinity (hbias : 1 ≤ f.bias) : (f.value f.infinity).worth = 2 ^ (f.bias + 1) := by
  have hleast : f.leastExponent = 1 - (f.bias : ℤ) - f.fractionBits := rfl
  have hpos := f.fractionWeight_pos
  have hexponent : (f.fractionBits : ℤ) + (f.leastExponent + ((2 * f.bias : ℕ) : ℤ))
      = ((f.bias + 1 : ℕ) : ℤ) := by omega
  rw [f.infinity_eq hbias, f.worth_of_parts (by omega) (Or.inl (Nat.le_refl _)),
    cast_fractionWeight, ← zpow_add₀ two_ne_zero, hexponent, zpow_natCast]

/-- Finite magnitudes stand for numbers within the range. -/
theorem worth_lt_of_finite (hbias : 1 ≤ f.bias) {m : ℕ} (hm : m < f.infinity) :
    (f.value m).worth < 2 ^ (f.bias + 1) := by
  rw [← f.worth_infinity hbias]
  exact f.worth_strictMono hm

theorem nearest_le_infinity (q : ℚ) : f.nearest q ≤ f.infinity := by
  unfold nearest
  split
  · exact Nat.zero_le _
  · exact Nat.min_le_right _ _

/-- Rounding never turns two numbers around. -/
theorem nearest_mono (hf : f.Proper) {p q : ℚ} (hp : 0 ≤ p) (h : p ≤ q) :
    f.nearest p ≤ f.nearest q := by
  rcases lt_or_ge q (2 ^ (f.bias + 1)) with hq | hq
  · by_contra hless
    rw [Nat.not_le] at hless
    have hworth := f.worth_strictMono hless
    have hnearp := (f.nearest_spec hf hp (lt_of_le_of_lt h hq) (f.nearest q)).1
    have hnearq := (f.nearest_spec hf (hp.trans h) hq (f.nearest p)).1
    dsimp only at hworth
    -- the smaller number is nearer to the smaller magnitude as soon as the greater one is
    have hsame : p = q := by
      rw [← sq_le_sq] at hnearp hnearq
      nlinarith only [hnearp, hnearq, hworth, h]
    rw [hsame] at hless
    exact absurd hless (Nat.lt_irrefl _)
  · rw [f.nearest_of_large hf.bias hq]
    exact f.nearest_le_infinity p

/-- What lies between a number that is rounded to a magnitude and what the magnitude stands for is
rounded to it too. -/
theorem nearest_of_between (hf : f.Proper) {m : ℕ} {p q : ℚ} (hp : 0 ≤ p) (hm : m < f.infinity)
    (hnear : f.nearest p = m)
    (hq : p ≤ q ∧ q ≤ (f.value m).worth ∨ (f.value m).worth ≤ q ∧ q ≤ p) : f.nearest q = m := by
  have hself := f.nearest_value hm
  rcases hq with ⟨hpq, hqm⟩ | ⟨hmq, hqp⟩
  · apply Nat.le_antisymm
    · exact hself ▸ f.nearest_mono hf (hp.trans hpq) hqm
    · exact hnear ▸ f.nearest_mono hf hp hpq
  · have hnonneg := (f.value m).worth_nonneg
    apply Nat.le_antisymm
    · exact hnear ▸ f.nearest_mono hf (hnonneg.trans hmq) hqp
    · exact hself ▸ f.nearest_mono hf hnonneg hmq

/-- What lies less than halfway to the magnitudes on both sides is rounded to the one in between. -/
theorem nearest_of_close (hf : f.Proper) {m : ℕ} {q : ℚ} (hq : 0 ≤ q) (hm : m < f.infinity)
    (hup : 2 * q < (f.value m).worth + (f.value (m + 1)).worth)
    (hdown : ∀ n < m, (f.value n).worth + (f.value m).worth < 2 * q) : f.nearest q = m := by
  have hmono := f.worth_strictMono
  have hstep := hmono (Nat.lt_succ_self m)
  have hlast := hmono.monotone (Nat.succ_le_of_lt hm)
  dsimp only at hstep hlast
  rw [Nat.succ_eq_add_one] at hstep hlast
  rw [f.worth_infinity hf.bias] at hlast
  have hnear := (f.nearest_spec hf hq (by linarith) m).1
  rw [← sq_le_sq] at hnear
  rcases Nat.lt_trichotomy (f.nearest q) m with hlt | heq | hgt
  · have hbelow := hmono hlt
    have hhalf := hdown _ hlt
    dsimp only at hbelow
    nlinarith only [hnear, hbelow, hhalf]
  · exact heq
  · have habove := hmono.monotone (Nat.succ_le_of_lt hgt)
    rw [Nat.succ_eq_add_one] at habove
    nlinarith only [hnear, habove, hstep, hup]

/-- Of steps that are finer than the significands one on the two sides of a magnitude is rounded
to the magnitude. -/
theorem nearest_of_step (hf : f.Proper) {m k : ℕ} {step : ℚ} (hm : m < f.infinity) (hstep : 0 < step)
    (hfine : step * (2 * f.fractionWeight) < (f.value m).worth)
    (hlower : k * step ≤ (f.value m).worth) (hupper : (f.value m).worth < (k + 1) * step) :
    f.nearest (k * step) = m ∨ f.nearest ((k + 1) * step) = m := by
  have hmono := f.worth_strictMono
  have hnonneg : 0 ≤ k * step := mul_nonneg (Nat.cast_nonneg _) hstep.le
  obtain ⟨j, s, hsplit, hdecode, hs, hj⟩ := f.decode_spec m
  have hsucc := f.worth_succ hsplit hs hj
  have hworth := f.worth_value m
  rw [hdecode] at hworth
  dsimp only at hworth
  generalize hunit : (2 : ℚ) ^ (f.leastExponent + j : ℤ) = unit at hsucc hworth
  have hunitpos : 0 < unit := hunit ▸ zpow_pos two_pos _
  have hweight : (0 : ℚ) < f.fractionWeight := by exact_mod_cast f.fractionWeight_pos
  by_cases hlead : f.fractionWeight < s ∨ j = 0
  · -- the units on both sides are the same, and one of them is no more than half passed
    have hcast : (s : ℚ) < 2 * f.fractionWeight := by exact_mod_cast hs
    have hless : step < unit := by
      rw [hworth] at hfine
      nlinarith only [hfine, hcast, hweight, hunitpos]
    have hbelow : ∀ n < m, (f.value n).worth + unit ≤ (f.value m).worth := fun n hn =>
      hunit ▸ f.worth_add_unit_le hsplit hs hlead hn
    by_cases hhalf : 2 * ((k + 1) * step) < 2 * (f.value m).worth + unit
    · refine Or.inr (f.nearest_of_close hf (by linarith) hm (by linarith) ?_)
      intro n hn
      have := hbelow n hn
      linarith
    · refine Or.inl (f.nearest_of_close hf hnonneg hm (by linarith) ?_)
      intro n hn
      have := hbelow n hn
      linarith
  · -- the magnitude begins a binade: there are two steps in the unit above it
    have hstart : s = f.fractionWeight := by omega
    have htwo : 2 * step < unit := by
      rw [hworth, hstart] at hfine
      nlinarith only [hfine, hweight]
    refine Or.inr (f.nearest_of_close hf (by linarith) hm (by linarith) ?_)
    intro n hn
    have hbelow := hmono hn
    dsimp only at hbelow
    linarith

end Format

end ValueStream.Binary
