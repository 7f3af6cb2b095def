import Mathlib.Tactic.Linarith
import Mathlib.Tactic.LinearCombination
import ValueStream.Proofs.Binary.Ratio

/-!
Short decimal numerals lie apart from short binary fractions.

A whole number up to `2 ^ 24` times a power of ten and a whole number below
`2 ^ 25` times a power of two are the same or far from each other. For small
powers of ten both are whole numbers of some unit (`far_or_eq_of_scaled`). For
others the quotient of the whole numbers is a fraction near the quotient of the
powers. Two neighbouring fractions around that quotient leave no room for a
third one in between (`Bracket.Holds.far_or_eq`), and both are far enough from
it for every power of ten that matters but one (`far_or_eq`).
-/

namespace ValueStream.Decimal

open Binary

/-- Smaller by more than three parts in `2 ^ 53`. -/
def FarBelow (p q : ℚ) : Prop := (2 ^ 53 + 3) * p < 2 ^ 53 * q

/-- Whole numbers of some unit that are not the same are far from each other if they are small. -/
theorem farBelow_of_lt {a b : ℕ} (ha : a < 2 ^ 51) (h : a < b) : FarBelow a b := by
  have hcast : (a : ℚ) < 2 ^ 51 := by exact_mod_cast ha
  have hnext : (a : ℚ) + 1 ≤ b := by exact_mod_cast h
  rw [FarBelow]
  linarith

theorem farBelow_mul_iff {p q r : ℚ} (hr : 0 < r) : FarBelow (p * r) (q * r) ↔ FarBelow p q := by
  rw [FarBelow, FarBelow, ← mul_assoc, ← mul_assoc, mul_lt_mul_iff_left₀ hr]

theorem FarBelow.mono {p p' q q' : ℚ} (hp : p' ≤ p) (hq : q ≤ q') (h : FarBelow p q) :
    FarBelow p' q' := by
  rw [FarBelow] at h ⊢
  linarith

/-- Whole numbers of two units, one a power of two times the other. -/
theorem far_or_eq_of_scaled {a b : ℕ} (ha : a < 2 ^ 51) (hb : b < 2 ^ 51) (i j : ℤ) :
    FarBelow (a * 2 ^ i) (b * 2 ^ j) ∨ FarBelow (b * 2 ^ j) (a * 2 ^ i)
      ∨ (a : ℚ) * 2 ^ i = b * 2 ^ j := by
  wlog hij : i ≤ j generalizing a b i j
  · rcases this hb ha j i (by omega) with h | h | h
    · exact .inr (.inl h)
    · exact .inl h
    · exact .inr (.inr h.symm)
  obtain ⟨d, hd⟩ := Int.eq_ofNat_of_zero_le (sub_nonneg.mpr hij)
  have hunit : (0 : ℚ) < 2 ^ i := zpow_pos two_pos i
  have hscaled : (b : ℚ) * 2 ^ j = (b * 2 ^ d : ℕ) * 2 ^ i := by
    rw [(by omega : j = d + i), zpow_add₀ two_ne_zero, zpow_natCast]
    push_cast
    ring
  rw [hscaled]
  rcases Nat.lt_trichotomy a (b * 2 ^ d) with hlt | heq | hgt
  · exact .inl ((farBelow_mul_iff hunit).mpr (farBelow_of_lt ha hlt))
  · exact .inr (.inr (by rw [heq]))
  · exact .inr (.inl ((farBelow_mul_iff hunit).mpr (farBelow_of_lt (hgt.trans ha) hgt)))

/-! ## Fractions around a ratio -/

/-- Two fractions `a / b` and `c / d`. -/
structure Bracket where
  a : ℕ
  b : ℕ
  c : ℕ
  d : ℕ

namespace Bracket

/-- Between two fractions a third one is found by adding their numerators and their denominators;
put it in the place of one of them as long as it is in the box, such that the ratio stays between
the two. -/
def narrow (num den : ℕ) : (fuel : ℕ) → (a b c d : ℕ) → Bracket
  | 0, a, b, c, d => ⟨a, b, c, d⟩
  | fuel + 1, a, b, c, d =>
    bif Nat.ble (a + c) (2 ^ 24) && Nat.blt (b + d) (2 ^ 25) then
      bif Nat.blt ((a + c) * den) (num * (b + d)) then narrow num den fuel (a + c) (b + d) c d
      else narrow num den fuel a b (a + c) (b + d)
    else ⟨a, b, c, d⟩

/-- The ratio is between two neighbours with no fraction of the box in between, and far below the
upper one. -/
structure Holds (x : Bracket) (r : Ratio) : Prop where
  adjacent : x.b * x.c = x.a * x.d + 1
  box : 2 ^ 24 < x.a + x.c ∨ 2 ^ 25 ≤ x.b + x.d
  corner : x.a ≤ 2 ^ 24 ∧ 0 < x.b
  lower : x.a * r.den < r.num * x.b
  upper : (2 ^ 53 + 3) * (r.num * x.d) < 2 ^ 53 * (x.c * r.den)

/-- The ratio is far above the lower one, too. -/
def Clear (x : Bracket) (r : Ratio) : Prop := (2 ^ 53 + 3) * (x.a * r.den) < 2 ^ 53 * (r.num * x.b)

instance (x : Bracket) (r : Ratio) : Decidable (x.Holds r) :=
  decidable_of_iff (x.b * x.c = x.a * x.d + 1 ∧ (2 ^ 24 < x.a + x.c ∨ 2 ^ 25 ≤ x.b + x.d)
      ∧ (x.a ≤ 2 ^ 24 ∧ 0 < x.b) ∧ x.a * r.den < r.num * x.b
      ∧ (2 ^ 53 + 3) * (r.num * x.d) < 2 ^ 53 * (x.c * r.den))
    ⟨fun ⟨h₁, h₂, h₃, h₄, h₅⟩ => ⟨h₁, h₂, h₃, h₄, h₅⟩, fun ⟨h₁, h₂, h₃, h₄, h₅⟩ => ⟨h₁, h₂, h₃, h₄, h₅⟩⟩

instance (x : Bracket) (r : Ratio) : Decidable (x.Clear r) := Nat.decLt _ _

variable {x : Bracket} {r : Ratio}

/-- A fraction of the box is no nearer than the neighbours. -/
theorem Holds.outside (h : x.Holds r) {n d : ℕ} (hn : n ≤ 2 ^ 24) (hd : d < 2 ^ 25) :
    n * x.b ≤ x.a * d ∨ x.c * d ≤ n * x.d := by
  by_contra hbetween
  rw [not_or, not_le, not_le] at hbetween
  obtain ⟨hlower, hupper⟩ := hbetween
  have hadjacent : (x.b * x.c : ℤ) = x.a * x.d + 1 := by exact_mod_cast h.adjacent
  have hlower' : (x.a * d : ℤ) + 1 ≤ n * x.b := by exact_mod_cast hlower
  have hupper' : (n * x.d : ℤ) + 1 ≤ x.c * d := by exact_mod_cast hupper
  -- a fraction in between is a sum of as many of one and of the other
  have hnum : (n : ℤ) = x.c * (n * x.b - x.a * d) + x.a * (x.c * d - n * x.d) := by
    linear_combination -n * hadjacent
  have hden : (d : ℤ) = x.d * (n * x.b - x.a * d) + x.b * (x.c * d - n * x.d) := by
    linear_combination -d * hadjacent
  have hbox := h.box
  have hnum' : (x.a + x.c : ℤ) ≤ n := by nlinarith
  have hden' : (x.b + x.d : ℤ) ≤ d := by nlinarith
  omega

/-- A fraction of the box is far from the ratio, unless it is the lower neighbour. -/
theorem Holds.far_or_eq (h : x.Holds r) {n d : ℕ} (hn : n ≤ 2 ^ 24) (hpos : 0 < d)
    (hd : d < 2 ^ 25) :
    FarBelow (n * r.den) (r.num * d) ∨ FarBelow (r.num * d) (n * r.den) ∨ n * x.b = x.a * d := by
  have houtside := h.outside hn hd
  obtain ⟨-, -, ⟨ha, hb⟩, hlower, hupper⟩ := h
  rcases houtside with hle | hle
  · rcases hle.lt_or_eq with hlt | heq
    · left
      -- small fractions that differ are far from each other
      have hproduct : x.a * d ≤ 2 ^ 24 * 2 ^ 25 := Nat.mul_le_mul ha hd.le
      have hfar : (2 ^ 53 + 3) * (n * x.b) ≤ 2 ^ 53 * (x.a * d) := by omega
      have hscaled := Nat.mul_le_mul_right r.den hfar
      have hlower' := Nat.mul_lt_mul_of_pos_right hlower hpos
      have hnat : (2 ^ 53 + 3) * (n * r.den) < 2 ^ 53 * (r.num * d) := by
        apply Nat.lt_of_mul_lt_mul_right (a := x.b)
        nlinarith only [hscaled, hlower']
      rw [FarBelow]
      exact_mod_cast hnat
    · exact .inr (.inr heq)
  · right
    left
    have hscaled := Nat.mul_le_mul_right r.den hle
    have hupper' := Nat.mul_lt_mul_of_pos_right hupper hpos
    have hnat : (2 ^ 53 + 3) * (r.num * d) < 2 ^ 53 * (n * r.den) := by
      apply Nat.lt_of_mul_lt_mul_right (a := x.d)
      nlinarith only [hscaled, hupper']
    rw [FarBelow]
    exact_mod_cast hnat

theorem Holds.far (h : x.Holds r) (hclear : x.Clear r) {n d : ℕ} (hn : n ≤ 2 ^ 24) (hpos : 0 < d)
    (hd : d < 2 ^ 25) : FarBelow (n * r.den) (r.num * d) ∨ FarBelow (r.num * d) (n * r.den) := by
  rcases h.far_or_eq hn hpos hd with hfar | hfar | heq
  · exact .inl hfar
  · exact .inr hfar
  · left
    have hclear' : (2 ^ 53 + 3) * (x.a * r.den) < 2 ^ 53 * (r.num * x.b) := hclear
    have hscaled := Nat.mul_lt_mul_of_pos_right hclear' hpos
    have hnat : (2 ^ 53 + 3) * (n * r.den) < 2 ^ 53 * (r.num * d) := by
      apply Nat.lt_of_mul_lt_mul_right (a := x.b)
      calc (2 ^ 53 + 3) * (n * r.den) * x.b = (2 ^ 53 + 3) * (x.a * r.den) * d := by
            linear_combination (2 ^ 53 + 3) * r.den * heq
        _ < 2 ^ 53 * (r.num * x.b) * d := hscaled
        _ = 2 ^ 53 * (r.num * d) * x.b := by ring
    rw [FarBelow]
    exact_mod_cast hnat

/-- A fraction that is the lower neighbour has its numerator, if its denominator is not twice as
great. -/
theorem Holds.eq_of_mul_eq (h : x.Holds r) {n d : ℕ} (heq : n * x.b = x.a * d) (hpos : 0 < d)
    (hd : d < 2 * x.b) : n = x.a := by
  have hcoprime : Nat.Coprime x.b x.a := by
    have hproduct : Nat.gcd x.b x.a ∣ x.a * x.d + 1 :=
      h.adjacent ▸ Nat.dvd_mul_right_of_dvd (Nat.gcd_dvd_left _ _) x.c
    exact Nat.dvd_one.mp ((Nat.dvd_add_right
      (Nat.dvd_mul_right_of_dvd (Nat.gcd_dvd_right _ _) x.d)).mp hproduct)
  obtain ⟨t, rfl⟩ : x.b ∣ d := hcoprime.dvd_of_dvd_mul_left (heq ▸ Nat.dvd_mul_left x.b n)
  have hone : t = 1 := by nlinarith
  rw [hone, Nat.mul_one] at heq
  exact Nat.eq_of_mul_eq_mul_right h.corner.2 heq

end Bracket

/-! ## Powers of two and ten -/

/-- The ratio of a power of two to a power of ten. -/
def powers (k i : ℤ) : Ratio := ((Ratio.ofNat 1).scale 2 i).scale 10 (-k)

/-- The exponent of the greatest power of two that is not greater than the power of ten. -/
def binary (k : ℤ) : ℤ := ((Ratio.ofNat 1).scale 10 k).floorLog2

def bracket (k i : ℤ) : Bracket := Bracket.narrow (powers k i).num (powers k i).den 1500 0 1 1 1

theorem worth_powers (k i : ℤ) : (powers k i).worth = 2 ^ i / 10 ^ k := by
  rw [powers, Ratio.worth_scale (by decide), Ratio.worth_scale two_pos, Ratio.worth_ofNat,
    Nat.cast_one, one_mul, zpow_neg, div_eq_mul_inv, Nat.cast_ofNat, Nat.cast_ofNat]

theorem den_powers_pos (k i : ℤ) : 0 < (powers k i).den :=
  Ratio.den_scale_pos (Ratio.den_scale_pos Nat.one_pos two_pos i) (by decide) (-k)

/-- What is far from the ratio of the powers as a ratio, is far as a product. -/
theorem farBelow_powers_iff (n d : ℕ) (k i : ℤ) :
    (FarBelow (n * (powers k i).den) ((powers k i).num * d) ↔ FarBelow (n * 10 ^ k) (d * 2 ^ i))
      ∧ (FarBelow ((powers k i).num * d) (n * (powers k i).den)
        ↔ FarBelow (d * 2 ^ i) (n * 10 ^ k)) := by
  have hden : (0 : ℚ) < (powers k i).den := by exact_mod_cast den_powers_pos k i
  have hten : (0 : ℚ) < 10 ^ k := zpow_pos (by norm_num) k
  have hworth := worth_powers k i
  rw [Ratio.worth, div_eq_div_iff hden.ne' hten.ne'] at hworth
  have hleft : (n : ℚ) * 10 ^ k * (powers k i).den = n * (powers k i).den * 10 ^ k := by ring
  have hright : (d : ℚ) * 2 ^ i * (powers k i).den = (powers k i).num * d * 10 ^ k := by
    linear_combination -d * hworth
  rw [← farBelow_mul_iff hten, ← farBelow_mul_iff hden (p := n * 10 ^ k), hleft, hright,
    ← farBelow_mul_iff hten (q := n * (powers k i).den), ← farBelow_mul_iff hden (q := n * 10 ^ k),
    hleft, hright]
  exact ⟨Iff.rfl, Iff.rfl⟩

/-- A power of ten that is far from the powers of two on both sides, with neighbours for the two
ratios that fractions of the box come near to. -/
def Placed (k : ℤ) : Prop :=
  let upper := powers k (binary k)
  let lower := powers k (binary k - 1)
  ((2 ^ 53 + 3) * upper.num < 2 ^ 53 * upper.den
      ∧ (2 ^ 53 + 3) * upper.den < 2 ^ 53 * (2 * upper.num))
    ∧ ((bracket k (binary k)).Holds upper ∧ (bracket k (binary k - 1)).Holds lower)
    ∧ (k = -32 ∨ (bracket k (binary k)).Clear upper ∧ (bracket k (binary k - 1)).Clear lower)

instance (k : ℤ) : Decidable (Placed k) := inferInstanceAs (Decidable (_ ∧ _))

theorem placed_of_range : ∀ e ∈ List.range 91, 10 < ((e : ℤ) - 52).natAbs → Placed ((e : ℤ) - 52) := by
  decide +kernel

theorem exists_mul_two_pow {n limit : ℕ} (hpos : 0 < n) (h : n ≤ limit) :
    ∃ a, n * 2 ^ a ≤ limit ∧ limit < 2 * (n * 2 ^ a) := by
  induction hk : limit - n using Nat.strong_induction_on generalizing n with
  | _ k ih =>
    by_cases hdouble : n * 2 ≤ limit
    · obtain ⟨a, hle, hlt⟩ := ih (limit - n * 2) (by omega) (by omega) hdouble rfl
      rw [Nat.mul_assoc, ← Nat.pow_succ'] at hle hlt
      exact ⟨a + 1, hle, hlt⟩
    · exact ⟨0, by omega, by omega⟩

/-- Next to the power of ten the ratio of the powers has neighbours that keep the fractions away. -/
theorem Placed.far_of_near {k : ℤ} (hk : Placed k) {n d : ℕ} (hn : n ≤ 2 ^ 24) (hpos : 0 < d)
    (hd : d < 2 ^ 25) {i : ℤ} (hi : i = binary k ∨ i = binary k - 1) :
    FarBelow (n * 10 ^ k) (d * 2 ^ i) ∨ FarBelow (d * 2 ^ i) (n * 10 ^ k)
      ∨ k = -32 ∧ (n = 14077062 ∨ n = 7038531) := by
  obtain ⟨-, ⟨hupper, hlower⟩, hclear⟩ := hk
  rw [← (farBelow_powers_iff n d k i).1, ← (farBelow_powers_iff n d k i).2]
  rcases hclear with rfl | ⟨hclear, hclear'⟩
  · have hvalues : ((bracket (-32) (binary (-32))).a = 14077062
          ∧ (bracket (-32) (binary (-32))).b = 22841339)
        ∧ (bracket (-32) (binary (-32) - 1)).a = 7038531
          ∧ (bracket (-32) (binary (-32) - 1)).b = 22841339 := by decide +kernel
    obtain ⟨⟨ha, hb⟩, ha', hb'⟩ := hvalues
    rcases hi with rfl | rfl
    · rcases hupper.far_or_eq hn hpos hd with h | h | heq
      · exact .inl h
      · exact .inr (.inl h)
      · exact .inr (.inr ⟨rfl, .inl (ha ▸ hupper.eq_of_mul_eq heq hpos (by rw [hb]; omega))⟩)
    · rcases hlower.far_or_eq hn hpos hd with h | h | heq
      · exact .inl h
      · exact .inr (.inl h)
      · exact .inr (.inr ⟨rfl, .inr (ha' ▸ hlower.eq_of_mul_eq heq hpos (by rw [hb']; omega))⟩)
  · rw [← or_assoc]
    left
    rcases hi with rfl | rfl
    · exact hupper.far hclear hn hpos hd
    · exact hlower.far hclear' hn hpos hd

/-- A power of two above the next one of the power of ten is too great. -/
theorem Placed.far_of_gt {k : ℤ} (hk : Placed k) {n d : ℕ} (hn : n ≤ 2 ^ 24) (hd : 2 ^ 24 ≤ d)
    {i : ℤ} (hi : binary k < i) : FarBelow (n * 10 ^ k) (d * 2 ^ i) := by
  have hten : (0 : ℚ) < 10 ^ k := zpow_pos (by norm_num) k
  have hn' : (n : ℚ) ≤ 2 ^ 24 := by exact_mod_cast hn
  have hd' : (2 ^ 24 : ℚ) ≤ d := by exact_mod_cast hd
  have hfar : FarBelow (10 ^ k) (2 * 2 ^ binary k) := by
    have hproduct := (farBelow_powers_iff 1 2 k (binary k)).1
    rw [Nat.cast_one, one_mul, one_mul, Nat.cast_ofNat] at hproduct
    apply hproduct.mp
    rw [FarBelow, mul_comm (Ratio.num _ : ℚ)]
    exact_mod_cast hk.1.2
  have hpower : (2 : ℚ) * 2 ^ binary k ≤ 2 ^ i := by
    rw [← zpow_one_add₀ two_ne_zero]
    exact zpow_le_zpow_right₀ one_le_two (by omega)
  have hscaled := (farBelow_mul_iff (by positivity : (0 : ℚ) < 2 ^ 24)).mpr hfar
  refine hscaled.mono ?_ ?_
  · rw [mul_comm]
    exact mul_le_mul_of_nonneg_left hn' hten.le
  · rw [mul_comm _ ((2 : ℚ) ^ 24)]
    exact mul_le_mul hd' hpower (by positivity) (by positivity)

/-- A power of two below the one before that of the power of ten is too small. -/
theorem Placed.far_of_lt {k : ℤ} (hk : Placed k) {n d : ℕ} (hn : 2 ^ 23 ≤ n) (hd : d < 2 ^ 25)
    {i : ℤ} (hi : i < binary k - 1) : FarBelow (d * 2 ^ i) (n * 10 ^ k) := by
  have hten : (0 : ℚ) < 10 ^ k := zpow_pos (by norm_num) k
  have hn' : (2 ^ 23 : ℚ) ≤ n := by exact_mod_cast hn
  have hd' : (d : ℚ) ≤ 2 ^ 25 := by exact_mod_cast hd.le
  have hfar : FarBelow (2 ^ binary k) (10 ^ k) := by
    have hproduct := (farBelow_powers_iff 1 1 k (binary k)).2
    rw [Nat.cast_one, one_mul, one_mul, one_mul, mul_one] at hproduct
    apply hproduct.mp
    rw [FarBelow]
    exact_mod_cast hk.1.1
  have hpower : (4 : ℚ) * 2 ^ i ≤ 2 ^ binary k := by
    rw [show (4 : ℚ) = 2 ^ (2 : ℤ) by norm_num, ← zpow_add₀ two_ne_zero]
    exact zpow_le_zpow_right₀ one_le_two (by omega)
  have hunit : (0 : ℚ) < 2 ^ i := zpow_pos two_pos i
  have hscaled := (farBelow_mul_iff (by positivity : (0 : ℚ) < 2 ^ 23)).mpr hfar
  refine hscaled.mono ?_ ?_
  · have hproduct := mul_le_mul_of_nonneg_right hd' hunit.le
    linarith
  · rw [mul_comm]
    exact mul_le_mul_of_nonneg_right hn' hten.le

theorem far_of_placed {k : ℤ} (hk : Placed k) {n d : ℕ} (hn : 2 ^ 24 < 2 * n) (hn' : n ≤ 2 ^ 24)
    (hd : 2 ^ 25 - 1 < 2 * d) (hd' : d < 2 ^ 25) (i : ℤ) :
    FarBelow (n * 10 ^ k) (d * 2 ^ i) ∨ FarBelow (d * 2 ^ i) (n * 10 ^ k)
      ∨ k = -32 ∧ (n = 14077062 ∨ n = 7038531) := by
  rcases lt_or_ge (binary k) i with hgreat | hle
  · exact .inl (hk.far_of_gt hn' (by omega) hgreat)
  · rcases lt_or_ge i (binary k - 1) with hsmall | hge
    · exact .inr (.inl (hk.far_of_lt (by omega) hd' hsmall))
    · exact hk.far_of_near hn' (by omega) hd' (by omega)

/-- A numeral of few digits is far from a binary fraction of few digits or the same, unless its
exponent is the one for which the lower neighbour is near. If it is the same, its exponent is
small. -/
theorem far_or_eq {n d : ℕ} {k : ℤ} (hn : 0 < n) (hn' : n ≤ 2 ^ 24) (hd : 0 < d) (hd' : d < 2 ^ 25)
    (hlow : -52 ≤ k) (hhigh : k ≤ 38) (j : ℤ) :
    (FarBelow (n * 10 ^ k) (d * 2 ^ j) ∨ FarBelow (d * 2 ^ j) (n * 10 ^ k))
      ∨ ((n : ℚ) * 10 ^ k = d * 2 ^ j ∧ -10 ≤ k ∧ k ≤ 10)
      ∨ k = -32 ∧ (n = 14077062 ∨ n = 7038531) := by
  by_cases hsmall : k.natAbs ≤ 10
  · -- without their factors of two both are small whole numbers
    obtain ⟨t, rfl | rfl⟩ := k.eq_nat_or_neg
    · have hpower : 5 ^ t ≤ 5 ^ 10 := Nat.pow_le_pow_right (by decide) (by omega)
      have hcoefficient : n * 5 ^ t < 2 ^ 51 := (Nat.mul_le_mul hn' hpower).trans_lt (by decide)
      have hfar := far_or_eq_of_scaled hcoefficient (by omega : d < 2 ^ 51) t j
      have hleft : ((n * 5 ^ t : ℕ) : ℚ) * 2 ^ (t : ℤ) = n * 10 ^ (t : ℤ) := by
        rw [show (10 : ℚ) = 2 * 5 by norm_num, zpow_natCast, zpow_natCast, mul_pow]
        push_cast
        ring
      rw [hleft, ← or_assoc] at hfar
      exact hfar.imp_right (fun heq => .inl ⟨heq, by omega, by omega⟩)
    · have hpower : 5 ^ t ≤ 5 ^ 10 := Nat.pow_le_pow_right (by decide) (by omega)
      have hfraction : d * 5 ^ t < 2 ^ 51 := (Nat.mul_le_mul hd'.le hpower).trans_lt (by decide)
      have hfive : (0 : ℚ) < 5 ^ t := by positivity
      have hfar := far_or_eq_of_scaled (by omega : n < 2 ^ 51) hfraction (-t) j
      have hleft : (n : ℚ) * 2 ^ (-t : ℤ) = n * 10 ^ (-t : ℤ) * 5 ^ t := by
        rw [show (10 : ℚ) = 2 * 5 by norm_num, zpow_neg, zpow_neg, zpow_natCast, zpow_natCast,
          mul_pow]
        field_simp
      have hright : ((d * 5 ^ t : ℕ) : ℚ) * 2 ^ j = d * 2 ^ j * 5 ^ t := by
        push_cast
        ring
      rw [hleft, hright, farBelow_mul_iff hfive, farBelow_mul_iff hfive, ← or_assoc] at hfar
      exact hfar.imp_right (fun heq => .inl ⟨mul_right_cancel₀ hfive.ne' heq, by omega, by omega⟩)
  · obtain ⟨a, ha, ha'⟩ := exists_mul_two_pow hn hn'
    obtain ⟨b, hb, hb'⟩ := exists_mul_two_pow hd (Nat.le_sub_one_of_lt hd')
    have hplaced : Placed k := by
      have hrange := placed_of_range (k + 52).toNat (List.mem_range.mpr (by omega))
      rw [show (((k + 52).toNat : ℕ) : ℤ) - 52 = k by omega] at hrange
      exact hrange (by omega)
    have hfar := far_of_placed hplaced ha' ha hb' (by omega) (j + a - b)
    have hunit : (0 : ℚ) < 2 ^ a := by positivity
    have hleft : ((n * 2 ^ a : ℕ) : ℚ) * 10 ^ k = n * 10 ^ k * 2 ^ a := by
      push_cast
      ring
    have hright : ((d * 2 ^ b : ℕ) : ℚ) * 2 ^ (j + a - b : ℤ) = d * 2 ^ j * 2 ^ a := by
      rw [zpow_sub₀ two_ne_zero, zpow_add₀ two_ne_zero, zpow_natCast, zpow_natCast]
      push_cast
      field_simp
    rw [hleft, hright, farBelow_mul_iff hunit, farBelow_mul_iff hunit, ← or_assoc] at hfar
    refine hfar.imp_right (fun ⟨hk, hvalue⟩ => .inr ⟨hk, ?_⟩)
    -- of the two numerators one is odd and the other twice an odd number
    match a with
    | 0 => omega
    | 1 => omega
    | a + 2 =>
      rw [Nat.pow_add, ← Nat.mul_assoc] at hvalue
      omega

end ValueStream.Decimal
