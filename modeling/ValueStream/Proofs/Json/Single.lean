import ValueStream.Proofs.Decimal.Apart
import ValueStream.Proofs.Decimal.Step
import ValueStream.Proofs.Json.Conversion

/-!
Floats come through the conversion of doubles.

The double that comes out is off by less than three parts in `2 ^ 53`, and
then it is narrowed. It is narrowed to the right float if the numeral is far
from the midpoints of floats (`nearest_single_of_far`). A numeral of few digits
is far from them or is one of them, but for two that are checked one by one
(`far_of_few`, `divide_near_midpoint`). A numeral of many digits is written only
where none with fewer will do, and so it is near the float and far from the
midpoints on both sides of it (`far_of_many`). So every float comes out
(`scale?_shortest`).
-/

namespace ValueStream.Json

open Binary Decimal Format

/-! ## Rounding twice -/

/-- A number that is off by less than three parts in `2 ^ 53` is rounded like the one it stands
for, if that one is far from every midpoint. -/
theorem nearest_single_of_far {p q : ℚ} (hp : 0 ≤ p) (hq : 0 ≤ q) (hwithin : Within (1 + 3 / 2 ^ 53) p q)
    (h : ∀ k < single.infinity, p = q ∨ FarBelow (2 * q) (single.doubleMidpoint k)
      ∨ FarBelow (single.doubleMidpoint k) (2 * q)) : single.nearest p = single.nearest q := by
  obtain ⟨hmore, hless⟩ := hwithin
  apply nearest_eq_of_midpoints single_proper hp hq
  intro k hk
  rcases h k hk with heq | hbelow | habove
  · exact .inl heq
  · rw [FarBelow] at hbelow
    exact .inr (.inl ⟨by linarith, by linarith⟩)
  · rw [FarBelow] at habove
    exact .inr (.inr ⟨by linarith, by linarith⟩)

/-- Midpoints have one binary digit more than significands. -/
theorem exists_doubleMidpoint_eq (k : ℕ) :
    ∃ (s : ℕ) (e : ℤ), 0 < s ∧ s < 2 ^ 25 ∧ -150 ≤ e
      ∧ single.doubleMidpoint k = 2 * (s * 2 ^ e) := by
  obtain ⟨j, s, hsplit, hdecode, hs, hj⟩ := single.decode_spec k
  have hweight : single.fractionWeight = 2 ^ 23 := by decide +kernel
  have hleast : single.leastExponent = -149 := by decide
  have hworth := single.worth_value k
  rw [hdecode] at hworth
  dsimp only at hworth
  refine ⟨2 * s + 1, single.leastExponent + j - 1, by omega, by omega, by omega, ?_⟩
  rw [doubleMidpoint, single.worth_succ hsplit hs hj, hworth, zpow_sub_one₀ two_ne_zero]
  push_cast
  ring

/-- Midpoints of floats are doubles. -/
theorem worth_nearest_of_midpoint {k : ℕ} {q : ℚ} (h : 2 * q = single.doubleMidpoint k) (hlimit : q < 2 ^ 128) :
    (double.value (double.nearest q)).worth = q := by
  obtain ⟨s, i, -, hs, hi, hmidpoint⟩ := exists_doubleMidpoint_eq k
  have hsame : q = s * 2 ^ i := by linarith
  rw [hsame]
  apply double.worth_nearest_of_fits double_proper
  · rw [two_mul_fractionWeight]
    omega
  · rw [show double.leastExponent = -1074 by decide]
    omega
  · rw [← hsame]
    exact hlimit.trans_le (pow_le_pow_right₀ one_le_two (by decide))

/-- Digits that fit into a significand come out as the float nearest to what they stand for, if
that is far from every midpoint or is one and no power is rounded. -/
theorem scale?_of_far {n : ℕ} {e : ℤ} {q : ℚ} (hq : n * 10 ^ e = q) (hn : n < 2 ^ 53)
    (hleast : 2 ^ (-150 : ℤ) ≤ q) (hgreatest : q < 2 ^ 128) (hlow : -308 ≤ e) (hhigh : e ≤ 308)
    (h : ∀ k < single.infinity, (2 * q = single.doubleMidpoint k ∧ -22 ≤ e ∧ e ≤ 22)
      ∨ FarBelow (2 * q) (single.doubleMidpoint k) ∨ FarBelow (single.doubleMidpoint k) (2 * q)) :
    ∃ r, scale? (double.ofNat n) e = some r ∧ r < double.infinity
      ∧ single.nearest (double.value r).worth = single.nearest q := by
  have hpos : 0 < q := (zpow_pos two_pos _).trans_le hleast
  have hone := double.one_le_factor
  have hfactor : double.factor ≤ 2 := by
    rw [factor_eq]
    norm_num
  have hproduct := product_nonneg n e
  have hpower := within_product_of_fits hn hlow hhigh
  rw [hq] at hpower
  have hnormal : 2 ^ (double.leastExponent + double.fractionBits) ≤ product n e := by
    have hsmall : (2 : ℚ) ^ (double.leastExponent + double.fractionBits) * 2 ≤ 2 ^ (-150 : ℤ) := by
      rw [← zpow_add_one₀ two_ne_zero]
      exact zpow_le_zpow_right₀ one_le_two (by decide)
    have hscaled := mul_le_mul_of_nonneg_right hfactor hproduct
    have habove := hpower.2
    linarith
  have hlimit : double.factor * product n e < 2 ^ (double.bias + 1) := by
    have hlarge : (2 : ℚ) ^ 128 * 4 ≤ 2 ^ (double.bias + 1) := by
      rw [show (4 : ℚ) = 2 ^ 2 by norm_num, ← pow_add]
      exact pow_le_pow_right₀ one_le_two (by decide)
    calc double.factor * product n e ≤ 2 * (2 * q) :=
          mul_le_mul hfactor (hpower.1.trans (mul_le_mul_of_nonneg_right hfactor hpos.le)) hproduct
            two_pos.le
      _ < 2 ^ (double.bias + 1) := by linarith
  have hfinite := double.nearest_lt_infinity double_proper hnormal hlimit
  refine ⟨_, scale?_eq hlow hhigh hfinite, hfinite, ?_⟩
  have hround := double.within_nearest double_proper hnormal
    ((le_mul_of_one_le_left hproduct hone).trans_lt hlimit)
  have hworth : 0 ≤ (double.value (double.nearest (product n e))).worth := Ratio.worth_nonneg _
  have hwithin : Within (1 + 3 / 2 ^ 53) (double.value (double.nearest (product n e))).worth q := by
    apply (hround.trans (by linarith) (by linarith) hpower).mono _ hworth hpos.le
    rw [factor_eq]
    norm_num
  apply nearest_single_of_far hworth hpos.le hwithin
  intro k hk
  rcases h k hk with ⟨heq, hlow, hhigh⟩ | hfar
  · -- neither rounding changes a midpoint
    left
    rw [product_eq hn hlow hhigh, hq]
    exact worth_nearest_of_midpoint heq hgreatest
  · exact .inr hfar

/-! ## Few digits -/

theorem le_exponent {n limit : ℕ} {e least : ℤ} (hn : n ≤ limit)
    (hlimit : (limit : ℚ) * 10 ^ (least - 1) < 2 ^ (-150 : ℤ))
    (h : 2 ^ (-150 : ℤ) ≤ (n : ℚ) * 10 ^ e) : least ≤ e := by
  by_contra hlow
  have hcast : (n : ℚ) ≤ limit := by exact_mod_cast hn
  have hpower : (10 : ℚ) ^ e ≤ 10 ^ (least - 1) := zpow_le_zpow_right₀ (by norm_num) (by omega)
  have hproduct := mul_le_mul hcast hpower (zpow_pos (by norm_num) e).le (Nat.cast_nonneg limit)
  linarith

theorem exponent_lt {n bound : ℕ} {e : ℤ} {limit : ℚ} (hpos : 0 < n) (hlimit : limit ≤ 10 ^ bound)
    (h : (n : ℚ) * 10 ^ e < limit) : e < bound := by
  by_contra hhigh
  have hone : (1 : ℚ) ≤ n := by exact_mod_cast hpos
  have hpower : (10 : ℚ) ^ bound ≤ 10 ^ e := by
    rw [← zpow_natCast]
    exact zpow_le_zpow_right₀ (by norm_num) (by omega)
  have hproduct := mul_le_mul hone hpower (by positivity) (Nat.cast_nonneg n)
  rw [one_mul] at hproduct
  exact absurd ((hlimit.trans hproduct).trans_lt h) (lt_irrefl limit)

/-- A numeral of few digits is far from every midpoint or is one, but for two numerals. -/
theorem far_of_few {n : ℕ} {e : ℤ} (hpos : 0 < n) (hn : n ≤ 2 ^ 24) {q : ℚ} (hq : n * 10 ^ e = q)
    (hleast : 2 ^ (-150 : ℤ) ≤ q) (hgreatest : q < 2 ^ 128)
    (hregular : ¬(e = -32 ∧ (n = 14077062 ∨ n = 7038531))) :
    ∀ k < single.infinity, (2 * q = single.doubleMidpoint k ∧ -10 ≤ e ∧ e ≤ 10)
      ∨ FarBelow (2 * q) (single.doubleMidpoint k) ∨ FarBelow (single.doubleMidpoint k) (2 * q) := by
  intro k hk
  subst hq
  have hlow : -52 ≤ e := le_exponent hn (by norm_num) hleast
  have hhigh := exponent_lt hpos (by norm_num : (2 : ℚ) ^ 128 ≤ 10 ^ 39) hgreatest
  obtain ⟨s, i, hspos, hs, -, hmidpoint⟩ := exists_doubleMidpoint_eq k
  rw [hmidpoint, mul_comm 2, mul_comm 2, farBelow_mul_iff two_pos, farBelow_mul_iff two_pos]
  rcases far_or_eq hpos hn hspos hs hlow (by omega) i with hfar | ⟨heq, hexponent⟩ | hexception
  · exact .inr hfar
  · exact .inl ⟨by rw [heq], hexponent⟩
  · exact absurd hexception hregular

/-! ## Many digits -/

/-- A shortest numeral with more digits than significands have is far from every midpoint, since
one of two such numerals next to each other is near the magnitude. -/
theorem far_of_many (tie : Tie) {m : ℕ} (hm : m + 1 < single.infinity) {d : Decimal}
    (hd : shortest .single tie (m + 1) = d) (hmany : 2 ^ 24 < d.coefficient) :
    ∀ k < single.infinity, FarBelow (2 * d.worth) (single.doubleMidpoint k)
      ∨ FarBelow (single.doubleMidpoint k) (2 * d.worth) := by
  have hread : single.nearest d.worth = m + 1 := by
    rw [← toMagnitude_eq single_proper, ← hd, toMagnitude_shortest single_proper tie hm]
  obtain ⟨j₀, s₀, hsplit₀, -, hs₀, hj₀⟩ := single.decode_spec m
  obtain ⟨j, s, hsplit, -, hs, hj⟩ := single.decode_spec (m + 1)
  have hbelow := single.worth_succ hsplit₀ hs₀ hj₀
  have habove := single.worth_succ hsplit hs hj
  have hworth₀ := single.worth_of_parts hs₀.le hj₀
  have hworth := single.worth_of_parts hs.le hj
  rw [← hsplit₀] at hworth₀
  rw [← hsplit] at hworth
  have hhalf := two_mul_le_of_nearest single_proper d.worth_nonneg hread hm hsplit hs hj
  have hweight : single.fractionWeight = 2 ^ 23 := by decide +kernel
  rw [hweight] at hsplit₀ hs₀ hj₀ hsplit hs hj
  have hunits : (2 : ℚ) ^ (single.leastExponent + j₀ : ℤ) ≤ 2 ^ (single.leastExponent + j : ℤ) :=
    zpow_le_zpow_right₀ one_le_two (by omega)
  have hunits' : (2 : ℚ) ^ (single.leastExponent + j : ℤ)
      ≤ 2 * 2 ^ (single.leastExponent + j₀ : ℤ) := by
    rw [← zpow_one_add₀ two_ne_zero]
    exact zpow_le_zpow_right₀ one_le_two (by omega)
  have hunit : (0 : ℚ) < 2 ^ (single.leastExponent + j₀ : ℤ) := zpow_pos two_pos _
  generalize (2 : ℚ) ^ (single.leastExponent + j₀ : ℤ) = unit₀ at *
  generalize (2 : ℚ) ^ (single.leastExponent + j : ℤ) = unit at *
  have hend₀ : (s₀ : ℚ) + 1 ≤ 2 ^ 24 := by exact_mod_cast (by omega : s₀ + 1 ≤ 2 ^ 24)
  have hend : (s : ℚ) + 1 ≤ 2 ^ 24 := by exact_mod_cast (by omega : s + 1 ≤ 2 ^ 24)
  have hcoefficient : (2 : ℚ) ^ 24 + 1 ≤ d.coefficient := by exact_mod_cast hmany
  have hstep : (0 : ℚ) < 10 ^ d.exponent := zpow_pos (by norm_num) _
  have hdigits := mul_le_mul_of_nonneg_right hcoefficient hstep.le
  rw [← worth] at hdigits
  have hsize₀ := mul_le_mul_of_nonneg_right hend₀ hunit.le
  have hsize := mul_le_mul_of_nonneg_right hend (hunit.le.trans hunits)
  have hfine : (10 : ℚ) ^ d.exponent ≤ unit₀ := by linarith
  have hnear := two_mul_dist_le single_proper (by decide) tie hm hd (by linarith) (by linarith)
  obtain ⟨hdown, hup⟩ := abs_le.mp (le_div_iff₀' two_pos |>.mpr hnear)
  have hmono := single.worth_strictMono.monotone
  have hnext : FarBelow (2 * d.worth) (single.doubleMidpoint (m + 1)) := by
    rw [FarBelow, doubleMidpoint]
    linarith
  have hprevious : FarBelow (single.doubleMidpoint m) (2 * d.worth) := by
    rw [FarBelow, doubleMidpoint]
    rcases le_total (single.value (m + 1)).worth d.worth with hle | hge <;> linarith
  intro k hk
  rcases Nat.lt_or_ge m k with hlt | hge
  · left
    exact hnext.mono le_rfl (add_le_add (hmono hlt) (hmono (Nat.succ_le_succ hlt)))
  · right
    exact hprevious.mono (add_le_add (hmono hge) (hmono (Nat.succ_le_succ hge))) le_rfl

/-! ## Every float -/

/-- The two numerals that come near to a midpoint are on the right side of it all the same. -/
theorem divide_near_midpoint : ∀ n ∈ [14077062, 7038531],
    let r := double.divide (double.ofNat n) (power 32)
    r < double.infinity
      ∧ single.ofRatio (double.value r) = single.ofRatio (Decimal.ratio ⟨n, -32⟩) := by
  decide +kernel

/-- The numeral that is written for a float comes out as the float. -/
theorem scale?_shortest (tie : Tie) {m : ℕ} (hpos : 0 < m) (hm : m < single.infinity) {d : Decimal}
    (hd : shortest .single tie m = d) {n : ℕ} {e : ℤ} (hn : n < 2 ^ 53)
    (hworth : n * 10 ^ e = d.worth)
    (hwritten : n = d.coefficient ∧ e = d.exponent ∨ 0 ≤ d.exponent ∧ e = -1) :
    ∃ r, scale? (double.ofNat n) e = some r ∧ r < double.infinity
      ∧ single.nearest (double.value r).worth = m := by
  have hread : single.nearest d.worth = m := by
    rw [← toMagnitude_eq single_proper, ← hd, toMagnitude_shortest single_proper tie hm]
  have hleast : 2 ^ (-150 : ℤ) ≤ d.worth := by
    by_contra hless
    have hzero := single.nearest_of_small d.worth_nonneg (not_le.mp hless)
    omega
  have hgreatest : d.worth < 2 ^ 128 := by
    by_contra hmore
    have hinfinite := single.nearest_of_large single_proper.bias (not_lt.mp hmore)
    omega
  have hpositive : 0 < d.coefficient := hd ▸ coefficient_shortest_pos single_proper tie hpos hm
  by_cases hexception : d.exponent = -32 ∧ (d.coefficient = 14077062 ∨ d.coefficient = 7038531)
  · obtain ⟨hexponent, hcoefficient⟩ := hexception
    obtain ⟨rfl, rfl⟩ : n = d.coefficient ∧ e = -(32 : ℕ) := by omega
    have hmem : d.coefficient ∈ [14077062, 7038531] := by
      simp only [List.mem_cons, List.not_mem_nil, or_false]
      exact hcoefficient
    obtain ⟨hfinite, hsame⟩ := divide_near_midpoint _ hmem
    refine ⟨_, scale?_of_neg _ (by decide) (by decide), hfinite, ?_⟩
    rw [← single.ofRatio_eq (double.den_value_pos _), hsame, single.ofRatio_eq (den_ratio_pos _),
      worth_ratio, ← hread, worth, worth, hexponent]
  · have hmidpoints : ∀ k < single.infinity,
        (2 * d.worth = single.doubleMidpoint k ∧ -22 ≤ e ∧ e ≤ 22)
          ∨ FarBelow (2 * d.worth) (single.doubleMidpoint k)
          ∨ FarBelow (single.doubleMidpoint k) (2 * d.worth) := by
      intro k hk
      rcases Nat.lt_or_ge (2 ^ 24) d.coefficient with hmany | hfew
      · obtain ⟨p, rfl⟩ := Nat.exists_eq_succ_of_ne_zero hpos.ne'
        exact .inr (far_of_many tie hm hd hmany k hk)
      · refine (far_of_few hpositive hfew rfl hleast hgreatest hexception k hk).imp_left ?_
        rintro ⟨heq, hlow, hhigh⟩
        exact ⟨heq, by omega, by omega⟩
    rw [← hread]
    rw [← hworth] at hleast hgreatest
    have hnpos : 0 < n := by
      apply Nat.pos_of_ne_zero
      rintro rfl
      rw [Nat.cast_zero, zero_mul] at hleast
      exact absurd (zpow_pos two_pos _) (not_lt.mpr hleast)
    have hlow : -100 ≤ e := le_exponent hn.le (by norm_num) hleast
    have hhigh := exponent_lt hnpos (by norm_num : (2 : ℚ) ^ 128 ≤ 10 ^ 39) hgreatest
    rw [hworth] at hleast hgreatest
    exact scale?_of_far hworth hn hleast hgreatest (by omega) (by omega) hmidpoints

end ValueStream.Json
