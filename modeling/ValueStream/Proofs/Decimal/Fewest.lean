import ValueStream.Proofs.Decimal.Shortest
import ValueStream.Proofs.Decimal.Size

/-!
Shortest numerals are shortest.

For each count of digits the search looks at the two numerals around the
magnitude. If any numeral that is not between them is read as the magnitude, so
is one of the two, and the one that is taken is no farther away
(`exists_neighbour`). A numeral with no more digits is never between them
(`outside_of_digits`), so the search does not go on past the count of digits of
any numeral that is read as the magnitude, and it ends within the digits that
are enough (`nearest_enoughDigits`). What comes out has the fewest digits,
and is as near as any with as many (`shortest_spec`).
-/

namespace ValueStream.Decimal

open Binary

/-! ## Counting digits -/

/-- The digits of the coefficient. -/
def digits (d : Decimal) : ℕ := (Text.natural d.coefficient).length

theorem digits_pos (d : Decimal) : 0 < d.digits := Nat.length_toDigits_pos

theorem digits_le_iff {d : Decimal} {n : ℕ} (hn : 0 < n) :
    d.digits ≤ n ↔ d.coefficient < 10 ^ n :=
  Nat.length_toDigits_le_iff (by decide) hn

/-- A power of ten has one digit when its zeros are gone. -/
theorem digits_strip_le {d : Decimal} {n : ℕ} (hn : 0 < n) (h : d.coefficient ≤ 10 ^ n) :
    d.strip.digits ≤ n := by
  induction d using strip.induct with
  | case1 d hzero ih =>
    rw [strip, dif_pos hzero]
    exact ih ((Nat.div_le_self _ _).trans h)
  | case2 d hzero =>
    rw [strip, dif_neg hzero, digits_le_iff hn]
    refine lt_of_le_of_ne h (fun hpower => hzero ⟨?_, ?_⟩)
    · rw [hpower]
      exact (Nat.pow_pos (by decide)).ne'
    · rw [hpower]
      exact Nat.mod_eq_zero_of_dvd (dvd_pow_self 10 hn.ne')

/-! ## How far the neighbours are -/

section Neighbours

variable (f : Format) (m : ℕ) (e : ℤ)

theorem scaled_worth : ((f.value m).scale 10 (-e)).worth * 10 ^ e = (f.value m).worth := by
  rw [Ratio.worth_scale (by decide), Nat.cast_ofNat, mul_assoc, ← zpow_add₀ (by norm_num),
    neg_add_cancel, zpow_zero, mul_one]

theorem worth_upper : (upper f m e).worth = (lower f m e).worth + 10 ^ e := by
  rw [worth, worth, upper, lower]
  push_cast
  ring

theorem lower_le : (lower f m e).worth ≤ (f.value m).worth := by
  have hnonneg : 0 ≤ ((f.value m).scale 10 (-e)).worth := Ratio.worth_nonneg _
  rw [← scaled_worth f m e, worth, lower, Ratio.floor_eq]
  exact mul_le_mul_of_nonneg_right (Nat.floor_le hnonneg) (zpow_pos (by norm_num) _).le

theorem lt_upper : (f.value m).worth < (upper f m e).worth := by
  rw [← scaled_worth f m e, worth, upper, Ratio.floor_eq, Nat.cast_add, Nat.cast_one]
  exact mul_lt_mul_of_pos_right (Nat.lt_floor_add_one _) (zpow_pos (by norm_num) _)

/-- The upper neighbour is taken only if half of the way to it is passed, the lower one only if no
more than half is. -/
theorem takesUpper_spec (tie : Tie) {r : Ratio} (hden : 0 < r.den) :
    (tie.takesUpper r = true → 1 / 2 ≤ r.worth - r.floor)
      ∧ (tie.takesUpper r = false → r.worth - r.floor ≤ 1 / 2) := by
  have hlt := Ratio.compareHalf_eq_lt_iff hden
  have heq := Ratio.compareHalf_eq_eq_iff hden
  rw [Tie.takesUpper]
  cases hhalf : r.compareHalf with
  | lt => exact ⟨fun h => absurd h Bool.false_ne_true, fun _ => (hlt.mp hhalf).le⟩
  | eq => exact ⟨fun _ => (heq.mp hhalf).ge, fun _ => (heq.mp hhalf).le⟩
  | gt =>
    rw [hhalf] at hlt
    have hmore : ¬ r.worth - r.floor < 1 / 2 := fun h => absurd (hlt.mpr h) (by decide)
    exact ⟨fun _ => not_lt.mp hmore, fun h => absurd h.symm Bool.false_ne_true⟩

/-- Of the two neighbours the farther one is never taken before the nearer one. -/
theorem takesUpper_nearer (tie : Tie) :
    (tie.takesUpper ((f.value m).scale 10 (-e)) = true →
        (upper f m e).worth - (f.value m).worth ≤ (f.value m).worth - (lower f m e).worth)
      ∧ (tie.takesUpper ((f.value m).scale 10 (-e)) = false →
        (f.value m).worth - (lower f m e).worth ≤ (upper f m e).worth - (f.value m).worth) := by
  have hden : 0 < ((f.value m).scale 10 (-e)).den :=
    Ratio.den_scale_pos (f.den_value_pos m) (by decide) _
  have hpower : (0 : ℚ) < 10 ^ e := zpow_pos (by norm_num) _
  have hrest : (f.value m).worth - (lower f m e).worth
      = (((f.value m).scale 10 (-e)).worth - ((f.value m).scale 10 (-e)).floor) * 10 ^ e := by
    rw [sub_mul, scaled_worth]
    rfl
  obtain ⟨hupper, hlower⟩ := takesUpper_spec tie hden
  rw [worth_upper]
  constructor
  · intro htaken
    have hhalf := mul_le_mul_of_nonneg_right (hupper htaken) hpower.le
    linarith
  · intro htaken
    have hhalf := mul_le_mul_of_nonneg_right (hlower htaken) hpower.le
    linarith

theorem dist_lower :
    |(lower f m e).worth - (f.value m).worth| = (f.value m).worth - (lower f m e).worth := by
  rw [abs_of_nonpos (sub_nonpos.mpr (lower_le f m e)), neg_sub]

theorem dist_upper :
    |(upper f m e).worth - (f.value m).worth| = (upper f m e).worth - (f.value m).worth :=
  abs_of_nonneg (sub_nonneg.mpr (lt_upper f m e).le)

variable {f m e}

/-- What is read as the magnitude is not nearer than the neighbour on its side, and that one is
read as the magnitude, too. -/
theorem readsBack_of_outside (hf : f.Proper) (hm : m < f.infinity) {q : ℚ} (hq : 0 ≤ q)
    (hread : f.nearest q = m) (hside : q ≤ (lower f m e).worth ∨ (upper f m e).worth ≤ q) :
    readsBack f m (lower f m e) = true
        ∧ (f.value m).worth - (lower f m e).worth ≤ |q - (f.value m).worth|
      ∨ readsBack f m (upper f m e) = true
        ∧ (upper f m e).worth - (f.value m).worth ≤ |q - (f.value m).worth| := by
  have hbelow := lower_le f m e
  have habove := (lt_upper f m e).le
  simp only [readsBack, beq_iff_eq, toMagnitude_eq hf]
  rcases hside with h | h
  · refine Or.inl ⟨f.nearest_of_between hf hq hm hread (Or.inl ⟨h, hbelow⟩), ?_⟩
    rw [abs_of_nonpos (by linarith)]
    linarith
  · refine Or.inr ⟨f.nearest_of_between hf hq hm hread (Or.inr ⟨habove, h⟩), ?_⟩
    rw [abs_of_nonneg (by linarith)]
    linarith

/-- If a numeral that is not between the neighbours is read as the magnitude, one of them is taken,
and it is as near as the numeral. -/
theorem exists_neighbour (hf : f.Proper) (tie : Tie) (hm : m < f.infinity) {q : ℚ} (hq : 0 ≤ q)
    (hread : f.nearest q = m) (hside : q ≤ (lower f m e).worth ∨ (upper f m e).worth ≤ q) :
    ∃ d, neighbour? f tie m e = some d
      ∧ |d.worth - (f.value m).worth| ≤ |q - (f.value m).worth| := by
  have houtside := readsBack_of_outside hf hm hq hread hside
  obtain ⟨hupper, hlower⟩ := takesUpper_nearer f m e tie
  rw [neighbour?_eq]
  cases hl : readsBack f m (lower f m e) with
  | false =>
    have hside := houtside.resolve_left (fun h => absurd (hl.symm.trans h.1) Bool.false_ne_true)
    rw [hside.1]
    exact ⟨_, rfl, (dist_upper f m e).trans_le hside.2⟩
  | true =>
    cases hu : readsBack f m (upper f m e) with
    | false =>
      have hside := houtside.resolve_right (fun h => absurd (hu.symm.trans h.1) Bool.false_ne_true)
      exact ⟨_, rfl, (dist_lower f m e).trans_le hside.2⟩
    | true =>
      refine ⟨_, rfl, ?_⟩
      cases htie : tie.takesUpper ((f.value m).scale 10 (-e)) with
      | true =>
        rw [if_pos rfl, dist_upper]
        exact houtside.elim (fun h => (hupper htie).trans h.2) (fun h => h.2)
      | false =>
        rw [if_neg Bool.false_ne_true, dist_lower]
        exact houtside.elim (fun h => h.2) (fun h => (hlower htie).trans h.2)

end Neighbours

/-! ## The search -/

section Search

variable {f : Format} {m : ℕ} {first : ℤ}

/-- The multiples below the magnitude have one digit for each place, and so have those above it
unless they are a power of ten. -/
theorem coefficient_bounds (hlower : 10 ^ first ≤ (f.value m).worth)
    (hupper : (f.value m).worth < 10 ^ (first + 1)) (places : ℕ) :
    10 ^ places ≤ (lower f m (first - places)).coefficient
      ∧ (upper f m (first - places)).coefficient ≤ 10 ^ (places + 1) := by
  have hpower : (0 : ℚ) < 10 ^ (first - places) := zpow_pos (by norm_num) _
  have hscale : ∀ n : ℕ, (10 : ℚ) ^ (first - places + n) = (10 ^ n : ℕ) * 10 ^ (first - places) := by
    intro n
    rw [zpow_add₀ (by norm_num), zpow_natCast, mul_comm]
    push_cast
    rfl
  constructor
  · -- the power of ten would otherwise be below the multiple after it
    have hlt := lt_upper f m (first - places)
    have hfirst : first = first - places + places := by omega
    rw [hfirst, hscale] at hlower
    have hcoefficient := lt_of_mul_lt_mul_right (hlower.trans_lt hlt) hpower.le
    exact Nat.le_of_lt_succ (by exact_mod_cast hcoefficient)
  · have hle := lower_le f m (first - places)
    have hfirst : first + 1 = first - places + ((places + 1 : ℕ) : ℤ) := by omega
    rw [hfirst, hscale] at hupper
    have hcoefficient := lt_of_mul_lt_mul_right (hle.trans_lt hupper) hpower.le
    exact Nat.succ_le_of_lt (by exact_mod_cast hcoefficient)

/-- A numeral with no more digits than there are places is not between the multiples. -/
theorem outside_of_digits (hlower : 10 ^ first ≤ (f.value m).worth)
    (hupper : (f.value m).worth < 10 ^ (first + 1)) {d : Decimal} {places : ℕ}
    (hd : d.digits ≤ places + 1) :
    d.worth ≤ (lower f m (first - places)).worth ∨ (upper f m (first - places)).worth ≤ d.worth := by
  have hpower : (0 : ℚ) < 10 ^ (first - places) := zpow_pos (by norm_num) _
  rcases le_or_gt (first - places) d.exponent with hcoarse | hfine
  · -- the numeral is a multiple itself
    obtain ⟨n, hn⟩ := Int.eq_ofNat_of_zero_le (sub_nonneg.mpr hcoarse)
    have hexponent : d.exponent = first - places + n := by omega
    have hmultiple : d.worth = (d.coefficient * 10 ^ n : ℕ) * 10 ^ (first - places) := by
      rw [worth, hexponent, zpow_add₀ (by norm_num), zpow_natCast]
      push_cast
      ring
    rw [hmultiple]
    rcases Nat.lt_or_ge (lower f m (first - places)).coefficient (d.coefficient * 10 ^ n) with h | h
    · exact Or.inr (mul_le_mul_of_nonneg_right (by exact_mod_cast h) hpower.le)
    · exact Or.inl (mul_le_mul_of_nonneg_right (by exact_mod_cast h) hpower.le)
  · -- the numeral is less than the power of ten that the magnitude begins with
    have hcoefficient : (d.coefficient : ℚ) ≤ 10 ^ (places + 1) := by
      exact_mod_cast ((digits_le_iff (Nat.succ_pos _)).mp hd).le
    have hbound : (10 ^ places : ℕ) ≤ (lower f m (first - places)).coefficient :=
      (coefficient_bounds hlower hupper places).1
    left
    calc d.worth ≤ 10 ^ (places + 1) * 10 ^ d.exponent :=
          mul_le_mul_of_nonneg_right hcoefficient (zpow_pos (by norm_num) _).le
      _ = 10 ^ (((places + 1 : ℕ) : ℤ) + d.exponent) := by
          rw [zpow_add₀ (by norm_num), zpow_natCast]
      _ ≤ 10 ^ (places + (first - places)) := zpow_le_zpow_right₀ (by norm_num) (by omega)
      _ = (10 ^ places : ℕ) * 10 ^ (first - places) := by
          rw [zpow_add₀ (by norm_num), zpow_natCast]
          push_cast
          rfl
      _ ≤ (lower f m (first - places)).worth :=
          mul_le_mul_of_nonneg_right (by exact_mod_cast hbound) hpower.le

/-- With enough digits a multiple next to the magnitude is read as the magnitude. -/
theorem nearest_enoughDigits (hf : f.Proper) (hm : m < f.infinity)
    (hlower : 10 ^ first ≤ (f.value m).worth) :
    ∃ q : ℚ, 0 ≤ q ∧ f.nearest q = m
      ∧ (q ≤ (lower f m (first - (enoughDigits f - 1 : ℕ))).worth
        ∨ (upper f m (first - (enoughDigits f - 1 : ℕ))).worth ≤ q) := by
  generalize hplaces : enoughDigits f - 1 = places
  have hpower : (0 : ℚ) < 10 ^ (first - places) := zpow_pos (by norm_num) _
  have hfine : 10 ^ (first - places) * (2 * f.fractionWeight) < (f.value m).worth := by
    have hdigits : (2 * f.fractionWeight : ℚ) < 10 ^ places := by
      have hlt := two_pow_lt_enoughDigits f
      rw [hplaces, Nat.pow_succ'] at hlt
      exact_mod_cast hlt
    calc (10 : ℚ) ^ (first - places) * (2 * f.fractionWeight)
        < 10 ^ (first - places) * 10 ^ places := mul_lt_mul_of_pos_left hdigits hpower
      _ = 10 ^ (first - places + places) := by rw [zpow_add₀ (by norm_num), zpow_natCast]
      _ = 10 ^ first := by rw [sub_add_cancel]
      _ ≤ (f.value m).worth := hlower
  have hnonneg : 0 ≤ (lower f m (first - places)).worth := worth_nonneg _
  have hnext : (upper f m (first - places)).worth
      = ((lower f m (first - places)).coefficient + 1) * 10 ^ (first - places) := by
    rw [worth_upper, add_mul, one_mul]
    rfl
  rcases f.nearest_of_step hf hm hpower hfine (lower_le f m _) (hnext ▸ lt_upper f m _) with h | h
  · exact ⟨_, hnonneg, h, Or.inl (le_refl _)⟩
  · exact ⟨_, hnext ▸ worth_nonneg _, h, Or.inr hnext.le⟩

end Search

/-- A search stops at the first place where there is something to be found. -/
theorem findSome?_range {α : Type} {g : ℕ → Option α} {n i : ℕ} (hi : i < n)
    (hg : (g i).isSome = true) :
    ∃ j ≤ i, ∃ a, g j = some a ∧ (List.range n).findSome? g = some a := by
  have hfound : ((List.range n).findSome? g).isSome = true :=
    List.findSome?_isSome_iff.mpr ⟨i, List.mem_range.mpr hi, hg⟩
  obtain ⟨a, ha⟩ := Option.isSome_iff_exists.mp hfound
  obtain ⟨front, j, back, hrange, hj, hnone⟩ := List.findSome?_eq_some_iff.mp ha
  refine ⟨j, ?_, a, hj, ha⟩
  have hsorted : (front ++ j :: back).Pairwise (· < ·) := hrange ▸ List.pairwise_lt_range
  have hmem : i ∈ front ++ j :: back := hrange ▸ List.mem_range.mpr hi
  rcases List.mem_append.mp hmem with hbefore | hafter
  · rw [hnone i hbefore] at hg
    exact absurd hg Bool.false_ne_true
  · rcases List.mem_cons.mp hafter with heq | hback
    · exact heq.ge
    · exact (List.rel_of_pairwise_cons (List.pairwise_append.mp hsorted).2.1 hback).le

/-- The search begins at the place of the first digit. -/
theorem floorLog10_spec {f : Format} (hf : f.Proper) (hsize : f.bias ≤ 30000) {m : ℕ} (hpos : 0 < m)
    (hm : m < f.infinity) :
    10 ^ (f.value m).floorLog10 ≤ (f.value m).worth
      ∧ (f.value m).worth < 10 ^ ((f.value m).floorLog10 + 1) := by
  have hleast : f.leastExponent = 1 - (f.bias : ℤ) - f.fractionBits := rfl
  have hrange := hf.range
  have hone : (2 : ℚ) ^ f.leastExponent ≤ (f.value m).worth := by
    have hworth := f.worth_of_parts (j := 0) (s := 1) (by have := f.fractionWeight_pos; omega)
      (Or.inr rfl)
    rw [Nat.zero_mul, Nat.zero_add, Nat.cast_one, one_mul, Nat.cast_zero, add_zero] at hworth
    rw [← hworth]
    exact f.worth_strictMono.monotone hpos
  have hworth : 0 < (f.value m).worth := (zpow_pos two_pos _).trans_le hone
  have hnum : 0 < (f.value m).num := by
    apply Nat.pos_of_ne_zero
    intro hzero
    exact hworth.ne' ((Ratio.worth_eq_zero_iff (f.den_value_pos m)).mpr hzero)
  have hlogleast : f.leastExponent ≤ Int.log 2 (f.value m).worth :=
    (Int.zpow_le_iff_le_log one_lt_two hworth).mp (by exact_mod_cast hone)
  have hloggreatest : Int.log 2 (f.value m).worth < f.bias + 1 := by
    apply (Int.lt_zpow_iff_log_lt one_lt_two hworth).mp
    exact_mod_cast f.worth_lt_of_finite hf.bias hm
  rw [Ratio.floorLog10_eq hnum (f.den_value_pos m) (by omega) (by omega)]
  exact ⟨Int.zpow_log_le_self (by decide) hworth, Int.lt_zpow_succ_log_self (by decide) _⟩

/-- No numeral that is read as the magnitude has fewer digits, and none that has as many is
nearer. -/
theorem shortest_spec {f : Format} (hf : f.Proper) (hsize : f.bias ≤ 30000) (tie : Tie) {m : ℕ}
    (hpos : 0 < m) (hm : m < f.infinity) {d : Decimal} (hd : d.toMagnitude f = m) :
    (shortest f tie m).digits < d.digits
      ∨ (shortest f tie m).digits = d.digits
        ∧ |(shortest f tie m).worth - (f.value m).worth| ≤ |d.worth - (f.value m).worth| := by
  obtain ⟨hlower, hupper⟩ := floorLog10_spec hf hsize hpos hm
  rw [toMagnitude_eq hf] at hd
  rw [shortest]
  generalize (f.value m).floorLog10 = first at hlower hupper
  have hdigits := d.digits_pos
  have henough : 2 ≤ enoughDigits f := Nat.le_add_left _ _
  -- the search gets as far as the digits of the numeral only if there are not too many of them
  obtain ⟨q, places, hq, hread, hside, hplaces, hbound, hnumeral⟩ :
      ∃ (q : ℚ) (places : ℕ), 0 ≤ q ∧ f.nearest q = m
        ∧ (q ≤ (lower f m (first - places)).worth ∨ (upper f m (first - places)).worth ≤ q)
        ∧ places < enoughDigits f ∧ places + 1 ≤ d.digits
        ∧ (places + 1 = d.digits → q = d.worth) := by
    rcases Nat.lt_or_ge (enoughDigits f) d.digits with hmany | hfew
    · obtain ⟨q, hq, hread, hside⟩ := nearest_enoughDigits hf hm hlower
      exact ⟨q, enoughDigits f - 1, hq, hread, hside, by omega, by omega, fun h => by omega⟩
    · exact ⟨d.worth, d.digits - 1, d.worth_nonneg, hd,
        outside_of_digits hlower hupper (by omega), by omega, by omega, fun _ => rfl⟩
  obtain ⟨x, hx, hnear⟩ := exists_neighbour hf tie hm hq hread hside
  obtain ⟨stop, hstop, y, hy, hfound⟩ := findSome?_range (n := enoughDigits f)
    (g := fun places : ℕ => neighbour? f tie m (first - places)) hplaces
    (Option.isSome_iff_exists.mpr ⟨x, hx⟩)
  rw [hfound, Option.getD_some, worth_strip]
  have hcoefficient : y.coefficient ≤ 10 ^ (stop + 1) := by
    have hbound := (coefficient_bounds hlower hupper stop).2
    rcases (neighbour_spec hy).2 with rfl | rfl
    · exact (Nat.le_succ _).trans hbound
    · exact hbound
  have hcount := digits_strip_le (Nat.succ_pos stop) hcoefficient
  rcases Nat.lt_or_ge y.strip.digits d.digits with hless | hmore
  · exact Or.inl hless
  · -- the numeral is what the search stopped for
    have hsame : stop = places := by omega
    subst hsame
    rw [hnumeral (by omega)] at hnear
    exact Or.inr ⟨by omega, Option.some.inj (hx.symm.trans hy) ▸ hnear⟩

end ValueStream.Decimal
