import ValueStream.Proofs.Binary.Error
import ValueStream.Proofs.Decimal.Fewest

/-!
How near shortest numerals are.

No more digits are needed than are always enough (`digits_shortest_le`). A
numeral one step up or down has no more digits than the shortest one, and so it
is no nearer if it is read as the magnitude, too. Where a step is not greater
than the distances to the magnitudes on both sides, this leaves at most half a
step between the magnitude and its shortest numeral (`two_mul_dist_le`). And
where all magnitudes are more than two steps apart, no shortest numeral has
smaller steps (`le_exponent_shortest`).
-/

namespace ValueStream.Decimal

open Binary Format

variable {f : Format} {m : ℕ}

/-- A numeral that is read as the magnitude and has no more digits is no nearer. -/
theorem dist_shortest_le (hf : f.Proper) (hsize : f.bias ≤ 30000) (tie : Tie) (hpos : 0 < m)
    (hm : m < f.infinity) {n : ℕ} (hn : n ≤ 10 ^ (shortest f tie m).digits)
    (hread : f.nearest (n * 10 ^ (shortest f tie m).exponent) = m) :
    |(shortest f tie m).worth - (f.value m).worth|
      ≤ |(n : ℚ) * 10 ^ (shortest f tie m).exponent - (f.value m).worth| := by
  generalize (shortest f tie m).exponent = e at hread ⊢
  have hstrip : (Decimal.mk n e).strip.digits ≤ (shortest f tie m).digits :=
    digits_strip_le (digits_pos _) hn
  have hworth : (Decimal.mk n e).strip.worth = n * 10 ^ e := worth_strip _
  have hmagnitude : (Decimal.mk n e).strip.toMagnitude f = m := by
    rw [toMagnitude_eq hf, hworth, hread]
  rcases shortest_spec hf hsize tie hpos hm hmagnitude with hfewer | ⟨-, hnear⟩
  · omega
  · rw [hworth] at hnear
    exact hnear

/-- A shortest numeral has no more digits than are always enough. -/
theorem digits_shortest_le (hf : f.Proper) (hsize : f.bias ≤ 30000) (tie : Tie) (hpos : 0 < m)
    (hm : m < f.infinity) : (shortest f tie m).digits ≤ enoughDigits f := by
  obtain ⟨hlower, hupper⟩ := floorLog10_spec hf hsize hpos hm
  have henough : 2 ≤ enoughDigits f := Nat.le_add_left _ _
  obtain ⟨q, hq, hread, hside⟩ := nearest_enoughDigits hf hm hlower
  obtain ⟨d, hd, -⟩ := exists_neighbour hf tie hm hq hread hside
  obtain ⟨hmagnitude, hform⟩ := neighbour_spec hd
  have hcoefficient : d.coefficient ≤ 10 ^ enoughDigits f := by
    have hbound := (coefficient_bounds hlower hupper (enoughDigits f - 1)).2
    rw [Nat.sub_add_cancel (by omega)] at hbound
    rcases hform with rfl | rfl
    · exact (Nat.le_succ _).trans hbound
    · exact hbound
  have hstrip := digits_strip_le (by omega : 0 < enoughDigits f) hcoefficient
  have hmagnitude' : d.strip.toMagnitude f = m := by
    rw [toMagnitude_eq hf, worth_strip, ← toMagnitude_eq hf, hmagnitude]
  rcases shortest_spec hf hsize tie hpos hm hmagnitude' with hfewer | ⟨hsame, -⟩ <;> omega

/-- If the magnitudes on both sides are at least a step away, the shortest numeral is at most half
a step away. -/
theorem two_mul_dist_le (hf : f.Proper) (hsize : f.bias ≤ 30000) (tie : Tie)
    (hm : m + 1 < f.infinity) {d : Decimal} (hd : shortest f tie (m + 1) = d)
    (hbelow : (f.value m).worth + 10 ^ d.exponent ≤ (f.value (m + 1)).worth)
    (habove : (f.value (m + 1)).worth + 10 ^ d.exponent ≤ (f.value (m + 2)).worth) :
    2 * |d.worth - (f.value (m + 1)).worth| ≤ 10 ^ d.exponent := by
  have hread : f.nearest d.worth = m + 1 := by
    rw [← toMagnitude_eq hf, ← hd, toMagnitude_shortest hf tie hm]
  have hstep : (0 : ℚ) < 10 ^ d.exponent := zpow_pos (by norm_num) _
  have hself := f.nearest_value hm
  have hnonneg := (f.value (m + 1)).worth_nonneg
  have hdigits : d.coefficient < 10 ^ d.digits := (digits_le_iff d.digits_pos).mp (le_refl _)
  have hnear := fun {n : ℕ} (hn : n ≤ 10 ^ d.digits)
      (hq : f.nearest (n * 10 ^ d.exponent) = m + 1) =>
    hd ▸ dist_shortest_le (n := n) hf hsize tie (Nat.succ_pos m) hm (hd.symm ▸ hn) (hd.symm ▸ hq)
  by_contra hfar
  rw [not_le] at hfar
  rcases lt_or_ge d.worth (f.value (m + 1)).worth with hlt | hge
  · -- one step up is nearer
    rw [abs_of_neg (by linarith)] at hfar
    have hnext : ((d.coefficient + 1 : ℕ) : ℚ) * 10 ^ d.exponent = d.worth + 10 ^ d.exponent := by
      rw [worth, Nat.cast_add, Nat.cast_one, add_mul, one_mul]
    have hread' : f.nearest ((d.coefficient + 1 : ℕ) * 10 ^ d.exponent) = m + 1 := by
      rw [hnext]
      rcases le_or_gt (d.worth + 10 ^ d.exponent) (f.value (m + 1)).worth with hle | hgt
      · exact f.nearest_of_between hf d.worth_nonneg hm hread (.inl ⟨by linarith, hle⟩)
      · apply Nat.le_antisymm
        · apply nearest_le_of_lt hf (by linarith)
          rw [doubleMidpoint]
          linarith
        · exact hself.ge.trans (f.nearest_mono hf hnonneg hgt.le)
    have hnearer := hnear hdigits hread'
    rw [hnext, abs_of_neg (by linarith), le_abs] at hnearer
    rcases hnearer with h | h <;> linarith
  · -- one step down is nearer
    rw [abs_of_nonneg (by linarith)] at hfar
    have hpositive : d.coefficient ≠ 0 := by
      intro hzero
      have hbefore := (f.value m).worth_nonneg
      rw [worth_of_zero hzero] at hge
      linarith
    obtain ⟨n, hn⟩ := Nat.exists_eq_succ_of_ne_zero hpositive
    have hprevious : (n : ℚ) * 10 ^ d.exponent = d.worth - 10 ^ d.exponent := by
      rw [worth, hn, Nat.cast_succ, add_mul, one_mul, add_sub_cancel_right]
    have hquotient : (0 : ℚ) ≤ n * 10 ^ d.exponent := mul_nonneg (Nat.cast_nonneg n) hstep.le
    have hread' : f.nearest (n * 10 ^ d.exponent) = m + 1 := by
      rcases le_or_gt (f.value (m + 1)).worth (n * 10 ^ d.exponent) with hle | hgt
      · exact f.nearest_of_between hf d.worth_nonneg hm hread (.inr ⟨hle, by linarith⟩)
      · apply Nat.le_antisymm
        · exact (f.nearest_mono hf hquotient hgt.le).trans hself.le
        · apply lt_nearest_of_lt hf hquotient (by omega)
          rw [doubleMidpoint]
          linarith
    have hnearer := hnear (by omega) hread'
    rw [hprevious, abs_of_nonneg (by linarith), le_abs] at hnearer
    rcases hnearer with h | h <;> linarith

/-- Where magnitudes are more than two steps apart, what is within a step of one is read as it. -/
theorem nearest_of_near (hf : f.Proper) (hm : m < f.infinity) {step q : ℚ} (hq : 0 ≤ q)
    (hstep : 2 * step < 2 ^ f.leastExponent) (hnear : |q - (f.value m).worth| < step) :
    f.nearest q = m := by
  obtain ⟨hless, hmore⟩ := abs_lt.mp hnear
  apply f.nearest_of_close hf hq hm
  · have hafter := worth_add_least_le (f := f) m
    linarith
  · intro n hn
    have hbefore := worth_add_least_le (f := f) n
    have hle : (f.value (n + 1)).worth ≤ (f.value m).worth := f.worth_strictMono.monotone hn
    linarith

/-- If a number is read as the magnitude, then so is one of the multiples of a small step on both
sides of it. -/
theorem nearest_of_multiple (hf : f.Proper) (hm : m < f.infinity) {step q : ℚ} (hpos : 0 < step)
    (hstep : 2 * step < 2 ^ f.leastExponent) (hq : 0 ≤ q) (hread : f.nearest q = m) {n : ℕ}
    (hlower : n * step ≤ q) (hupper : q < (n + 1 : ℕ) * step) :
    f.nearest (n * step) = m ∨ f.nearest ((n + 1 : ℕ) * step) = m := by
  have hnonneg : (0 : ℚ) ≤ n * step := mul_nonneg (Nat.cast_nonneg n) hpos.le
  have hnext : ((n + 1 : ℕ) : ℚ) * step = n * step + step := by
    rw [Nat.cast_add, Nat.cast_one, add_mul, one_mul]
  rcases le_or_gt (f.value m).worth q with habove | hbelow
  · left
    rcases le_or_gt (f.value m).worth (n * step) with hbetween | hless
    · exact f.nearest_of_between hf hq hm hread (.inr ⟨hbetween, hlower⟩)
    · apply nearest_of_near hf hm hnonneg hstep
      rw [abs_lt]
      constructor <;> linarith
  · right
    rcases le_or_gt ((n + 1 : ℕ) * step) (f.value m).worth with hbetween | hmore
    · exact f.nearest_of_between hf hq hm hread (.inl ⟨hupper.le, hbetween⟩)
    · apply nearest_of_near hf hm (hnext ▸ by linarith) hstep
      rw [abs_lt]
      constructor <;> linarith

/-- What is less than such a step is read as zero. -/
theorem nearest_eq_zero (hf : f.Proper) {step q : ℚ} (hq : 0 ≤ q)
    (hstep : 2 * step < 2 ^ f.leastExponent) (h : q < step) : f.nearest q = 0 := by
  have hfirst := worth_add_least_le (f := f) 0
  have hnonneg := (f.value 0).worth_nonneg
  apply Nat.eq_zero_of_le_zero
  apply nearest_le_of_lt hf hq
  rw [doubleMidpoint]
  linarith

/-- Without its last digits a numeral is the greatest multiple of a power of ten below it. -/
theorem cut_bounds {d : Decimal} {e : ℤ} {j : ℕ} (hj : e - d.exponent = j) :
    ((d.coefficient / 10 ^ j : ℕ) : ℚ) * 10 ^ e ≤ d.worth
      ∧ d.worth < ((d.coefficient / 10 ^ j + 1 : ℕ) : ℚ) * 10 ^ e := by
  have hstep : (0 : ℚ) < 10 ^ e := zpow_pos (by norm_num) e
  have hten : (0 : ℚ) < 10 ^ j := pow_pos (by norm_num) j
  have hworth : d.worth * 10 ^ j = d.coefficient * 10 ^ e := by
    rw [worth, mul_assoc, ← zpow_natCast, ← zpow_add₀ (by norm_num), ← hj, add_sub_cancel]
  have hfloor : ((d.coefficient / 10 ^ j : ℕ) : ℚ) * 10 ^ j ≤ d.coefficient := by
    exact_mod_cast Nat.div_mul_le_self d.coefficient (10 ^ j)
  have hceil : (d.coefficient : ℚ) < ((d.coefficient / 10 ^ j + 1 : ℕ) : ℚ) * 10 ^ j := by
    have hnext := Nat.lt_mul_div_succ d.coefficient (Nat.pow_pos (by decide) : 0 < 10 ^ j)
    rw [mul_comm] at hnext
    exact_mod_cast hnext
  constructor
  · apply le_of_mul_le_mul_right _ hten
    rw [hworth, mul_right_comm]
    exact mul_le_mul_of_nonneg_right hfloor hstep.le
  · apply lt_of_mul_lt_mul_right _ hten.le
    rw [hworth, mul_right_comm]
    exact mul_lt_mul_of_pos_right hceil hstep

/-- Shortest numerals have no places beyond those by which all magnitudes can be told apart: a
multiple of the last such place is read as the magnitude, too, and has fewer digits. -/
theorem le_exponent_shortest (hf : f.Proper) (hsize : f.bias ≤ 30000) (tie : Tie) (hpos : 0 < m)
    (hm : m < f.infinity) {e : ℤ} (he : 2 * (10 : ℚ) ^ e < 2 ^ f.leastExponent) :
    e ≤ (shortest f tie m).exponent := by
  generalize hd : shortest f tie m = d
  by_contra hless
  have hread : f.nearest d.worth = m := by
    rw [← toMagnitude_eq hf, ← hd, toMagnitude_shortest hf tie hm]
  obtain ⟨j, hj⟩ : ∃ j : ℕ, e - d.exponent = j := ⟨_, (Int.toNat_of_nonneg (by omega)).symm⟩
  have hdigits : d.coefficient < 10 ^ d.digits := (digits_le_iff d.digits_pos).mp (le_refl _)
  obtain ⟨hlower, hupper⟩ := cut_bounds hj
  -- the numeral is not below the first multiple
  have hmany : j < d.digits := by
    by_contra hfew
    have hzero : d.coefficient / 10 ^ j = 0 :=
      Nat.div_eq_of_lt (hdigits.trans_le (Nat.pow_le_pow_right (by decide) (by omega)))
    rw [hzero, Nat.zero_add, Nat.cast_one, one_mul] at hupper
    have hnone := nearest_eq_zero hf d.worth_nonneg he hupper
    omega
  have hcount : d.coefficient / 10 ^ j + 1 ≤ 10 ^ (d.digits - j) := by
    apply Nat.succ_le_of_lt
    rw [Nat.div_lt_iff_lt_mul (Nat.pow_pos (by decide)), ← Nat.pow_add,
      Nat.sub_add_cancel hmany.le]
    exact hdigits
  -- a multiple that is read as the magnitude has fewer digits
  have hfewer : ∀ n : ℕ, n ≤ 10 ^ (d.digits - j) → f.nearest ((n : ℚ) * 10 ^ e) ≠ m := by
    intro n hn heq
    have hstrip : (Decimal.mk n e).strip.digits ≤ d.digits - j := digits_strip_le (by omega) hn
    have hmagnitude : (Decimal.mk n e).strip.toMagnitude f = m := by
      rw [toMagnitude_eq hf, worth_strip]
      exact heq
    have hbest := shortest_spec hf hsize tie hpos hm hmagnitude
    rw [hd] at hbest
    omega
  have hstep : (0 : ℚ) < 10 ^ e := zpow_pos (by norm_num) e
  rcases nearest_of_multiple hf hm hstep he d.worth_nonneg hread hlower hupper with h | h
  · exact hfewer _ (by omega) h
  · exact hfewer _ hcount h

end ValueStream.Decimal
