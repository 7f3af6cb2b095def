import ValueStream.Proofs.Decimal.Step
import ValueStream.Proofs.Json.Number
import ValueStream.Proofs.Json.Single

/-!
Numerals that are laid out are JSON numbers.

A layout writes the digits of a numeral in full or with an exponent, and this is
a number that amounts to those digits and their exponent, in full with zeros
filled in behind them (`Layout.written`, `spellsAmount_numeral`). They are few
enough to be gathered whole (`coefficient_written_lt`). So what is written for a
float is scaled to a double that is narrowed to the float
(`scale?_written_single`), and what is written for a double to one that is at
most two magnitudes away (`scale?_written_double`); the greatest two are looked
at one by one, since the next ones are no numbers (`scale?_top`).
-/

namespace ValueStream

open Text

namespace Text

/-- The digits of a number begin with a zero only if it is zero. -/
theorem head_natural {n : ℕ} (hpos : 0 < n) : (natural n).head? ≠ some '0' := by
  unfold natural
  induction n using Nat.strong_induction_on with
  | _ n ih =>
    rw [Nat.toDigits_eq_if (by decide)]
    split
    · next hlt =>
      interval_cases n <;> decide
    · next hle =>
      rw [List.head?_append_of_ne_nil _ Nat.toDigits_ne_nil]
      exact ih _ (Nat.div_lt_self hpos (by decide)) (by omega)

end Text

namespace Decimal.Layout

/-- The digits and the exponent that stand in the text of a numeral. In full, a whole number is
filled with zeros up to the point and one behind it. -/
def written (l : Layout) (d : Decimal) : Decimal :=
  let size := d.exponent + d.digits - 1
  if l.least ≤ size ∧ size ≤ l.greatest ∧ 0 ≤ d.exponent then
    ⟨d.coefficient * 10 ^ (d.exponent.toNat + 1), -1⟩
  else d

theorem worth_written (l : Layout) (d : Decimal) : (l.written d).worth = d.worth := by
  unfold written
  dsimp only
  split
  · next h =>
    rw [worth, worth, zpow_neg_one]
    obtain ⟨n, hn⟩ := Int.eq_ofNat_of_zero_le h.2.2
    rw [hn, Int.toNat_natCast, zpow_natCast]
    push_cast
    rw [pow_succ]
    field_simp
  · rfl

/-- The digits as they are written, or as they are written in full up to the point and one behind
it. -/
theorem written_cases (l : Layout) (d : Decimal) :
    (l.written d).coefficient = d.coefficient ∧ (l.written d).exponent = d.exponent
      ∨ 0 ≤ d.exponent ∧ (l.written d).exponent = -1 := by
  unfold written
  dsimp only
  split
  · next h => exact .inr ⟨h.2.2, rfl⟩
  · exact .inl ⟨rfl, rfl⟩

theorem coefficient_written_lt {l : Layout} {d : Decimal} {k : ℕ} (hd : d.digits ≤ k)
    (hl : l.greatest + 2 ≤ k) : (l.written d).coefficient < 10 ^ k := by
  have hdigits : d.coefficient < 10 ^ d.digits := (digits_le_iff d.digits_pos).mp (le_refl _)
  unfold written
  dsimp only
  split
  · next h =>
    calc d.coefficient * 10 ^ (d.exponent.toNat + 1)
        < 10 ^ d.digits * 10 ^ (d.exponent.toNat + 1) :=
          Nat.mul_lt_mul_of_pos_right hdigits (Nat.pow_pos (by decide))
      _ = 10 ^ (d.digits + (d.exponent.toNat + 1)) := (Nat.pow_add _ _ _).symm
      _ ≤ 10 ^ k := Nat.pow_le_pow_right (by decide) (by omega)
  · exact hdigits.trans_le (Nat.pow_le_pow_right (by decide) hd)

/-- The digits and the exponent that stand in the text of a magnitude. -/
def writtenMagnitude (l : Layout) (f : Binary.Format) (m : ℕ) : Decimal :=
  if m = 0 then ⟨0, -1⟩ else l.written (shortest f l.tie m)

/-- What is written in at most so many places has at most so many digits. -/
theorem coefficient_writtenMagnitude_lt {l : Layout} {f : Binary.Format} (hf : f.Proper)
    (hsize : f.bias ≤ 30000) {k : ℕ} (henough : enoughDigits f ≤ k) (hl : l.greatest + 2 ≤ k)
    {m : ℕ} (hm : m < f.infinity) : (l.writtenMagnitude f m).coefficient < 10 ^ k := by
  unfold writtenMagnitude
  split
  · exact Nat.pow_pos (by decide)
  · next hzero =>
    have hdigits := digits_shortest_le hf hsize l.tie (Nat.pos_of_ne_zero hzero) hm
    exact coefficient_written_lt (hdigits.trans henough) hl

end Decimal.Layout

namespace Json

open Binary Decimal Format

section

variable (negative : Bool) {d : Decimal} (hpos : 0 < d.coefficient)

theorem isWhole_zero : IsWhole ['0'] := ⟨List.cons_ne_nil _ _, fun _ => rfl⟩

include hpos in
/-- The first digits of a number other than zero, with zeros behind them. -/
theorem isWhole_take {n : ℕ} (hn : 0 < n) (zeros : ℕ) :
    IsWhole ((natural d.coefficient).take n ++ List.replicate zeros '0') := by
  obtain ⟨first, others, hsplit⟩ := List.exists_cons_of_ne_nil (natural_ne_nil d.coefficient)
  obtain ⟨n, rfl⟩ := Nat.exists_eq_succ_of_ne_zero hn.ne'
  have hhead := head_natural hpos
  rw [hsplit] at hhead ⊢
  refine ⟨List.cons_ne_nil _ _, fun h => absurd h hhead⟩

theorem isWhole_natural (n : ℕ) : IsWhole (natural n) := by
  refine ⟨natural_ne_nil n, fun hzero => ?_⟩
  rcases Nat.eq_zero_or_pos n with rfl | hn
  · rfl
  · exact absurd hzero (head_natural hn)

/-- Digits with a point among them, and nothing behind them. -/
theorem spellsAmount_inFull {whole fraction : List Char} {n : ℕ} {e : ℤ} (hwhole : IsWhole whole)
    (hfraction : fraction ≠ []) (hdigits : digits? 10 (whole ++ fraction) = some n)
    (he : -(fraction.length : ℤ) = e) :
    SpellsAmount negative (whole ++ '.' :: fraction) n e := by
  have hspells := spellsAmount_point negative hwhole hfraction hdigits .none
  rwa [List.append_nil, Option.getD_none, zero_sub, he] at hspells

/-- Digits in full, below one: zeros stand between the point and the digits. -/
theorem spellsAmount_inFull_of_neg {size : ℤ} (hsize : d.exponent + d.digits - 1 = size)
    (hneg : size < 0) :
    SpellsAmount negative (Layout.inFull (natural d.coefficient) size) d.coefficient
      d.exponent := by
  unfold Layout.inFull
  rw [if_pos hneg]
  generalize hzeros : (-size - 1).toNat = zeros
  have hdigits : digits? 10 (['0'] ++ (List.replicate zeros '0' ++ natural d.coefficient))
      = some d.coefficient :=
    digits?_zeros_append (by decide) (by decide) d.coefficient (zeros + 1)
  have hne : List.replicate zeros '0' ++ natural d.coefficient ≠ [] :=
    List.append_ne_nil_of_right_ne_nil _ (natural_ne_nil _)
  have hlength : (natural d.coefficient).length = d.digits := rfl
  refine spellsAmount_inFull negative isWhole_zero hne hdigits ?_
  rw [List.length_append, List.length_replicate, hlength]
  omega

include hpos in
/-- A whole number in full: zeros stand up to the point, and one behind it. -/
theorem spellsAmount_inFull_of_whole {size : ℤ} (hsize : d.exponent + d.digits - 1 = size)
    (hwhole : 0 ≤ d.exponent) :
    SpellsAmount negative (Layout.inFull (natural d.coefficient) size)
      (d.coefficient * 10 ^ (d.exponent.toNat + 1)) (-1) := by
  have hdigit := d.digits_pos
  have hlength : (natural d.coefficient).length = d.digits := rfl
  have hzeros : size.toNat + 1 - d.digits = d.exponent.toNat := by omega
  unfold Layout.inFull
  rw [if_neg (by omega)]
  dsimp only
  rw [List.drop_of_length_le (by omega), hlength, hzeros]
  have hdigits : digits? 10 (((natural d.coefficient).take (size.toNat + 1)
      ++ List.replicate d.exponent.toNat '0') ++ ['0'])
        = some (d.coefficient * 10 ^ (d.exponent.toNat + 1)) := by
    rw [List.take_of_length_le (by omega), List.append_assoc, ← List.replicate_succ']
    exact digits?_natural_zeros _ _
  exact spellsAmount_inFull negative
    (isWhole_take hpos (Nat.succ_pos size.toNat) d.exponent.toNat) (List.cons_ne_nil '0' [])
    hdigits rfl

include hpos in
/-- Otherwise the point stands among the digits. -/
theorem spellsAmount_inFull_of_fraction {size : ℤ} (hsize : d.exponent + d.digits - 1 = size)
    (hnonneg : 0 ≤ size) (hfraction : d.exponent < 0) :
    SpellsAmount negative (Layout.inFull (natural d.coefficient) size) d.coefficient
      d.exponent := by
  have hlength : (natural d.coefficient).length = d.digits := rfl
  have hne : (natural d.coefficient).drop (size.toNat + 1) ≠ [] := by
    rw [Ne, List.drop_eq_nil_iff]
    omega
  unfold Layout.inFull
  rw [if_neg (by omega)]
  dsimp only
  rw [List.isEmpty_eq_false_iff.mpr hne, if_neg Bool.false_ne_true, hlength,
    Nat.sub_eq_zero_of_le (by omega)]
  have hdigits : digits? 10 (((natural d.coefficient).take (size.toNat + 1)
      ++ List.replicate 0 '0') ++ (natural d.coefficient).drop (size.toNat + 1))
        = some d.coefficient := by
    rw [List.replicate_zero, List.append_nil, List.take_append_drop]
    exact digits?_natural d.coefficient
  refine spellsAmount_inFull negative (isWhole_take hpos (Nat.succ_pos size.toNat) 0) hne
    hdigits ?_
  rw [List.length_drop, hlength]
  omega

include hpos in
/-- Digits with an exponent. -/
theorem spellsAmount_withExponent (plus : Bool) :
    SpellsAmount negative
      (Layout.withExponent plus (natural d.coefficient) (d.exponent + d.digits - 1))
      d.coefficient d.exponent := by
  have hdigits := digits?_natural d.coefficient
  have hexponent := spellsExponent_integer plus (d.exponent + d.digits - 1)
  have hlead := isWhole_take hpos Nat.one_pos 0
  have hlength : (natural d.coefficient).length = d.digits := rfl
  obtain ⟨first, others, hsplit⟩ := List.exists_cons_of_ne_nil (natural_ne_nil d.coefficient)
  unfold Layout.withExponent
  rw [hsplit] at hdigits hlead hlength ⊢
  generalize hsize : d.exponent + d.digits - 1 = size at hexponent ⊢
  dsimp only
  rw [List.take_succ_cons, List.take_zero] at hlead ⊢
  rw [List.replicate_zero, List.append_nil] at hlead
  rw [List.drop_succ_cons, List.drop_zero]
  cases others with
  | nil =>
    rw [List.length_singleton] at hlength
    have hplaces : size = d.exponent := by omega
    rw [hplaces] at hexponent ⊢
    exact spellsAmount_exponent negative hlead hdigits hexponent
  | cons second others =>
    have hspells := spellsAmount_point negative hlead (List.cons_ne_nil second others) hdigits
      hexponent
    rw [List.length_cons] at hlength
    have hplaces : size - ((second :: others).length : ℤ) = d.exponent := by omega
    rw [Option.getD_some, hplaces] at hspells
    rw [List.isEmpty_cons, if_neg Bool.false_ne_true, List.append_assoc]
    exact hspells

include hpos in
/-- A numeral amounts to the digits and the exponent that are written. -/
theorem spellsAmount_numeral (l : Layout) :
    SpellsAmount negative (l.numeral d) (l.written d).coefficient (l.written d).exponent := by
  have hlength : (natural d.coefficient).length = d.digits := rfl
  unfold Layout.written Layout.numeral
  dsimp only
  rw [hlength]
  generalize hsize : d.exponent + d.digits - 1 = size
  by_cases hfull : l.least ≤ size ∧ size ≤ l.greatest
  · rw [if_pos hfull]
    by_cases hwhole : 0 ≤ d.exponent
    · rw [if_pos ⟨hfull.1, hfull.2, hwhole⟩]
      exact spellsAmount_inFull_of_whole negative hpos hsize hwhole
    · rw [if_neg (fun h => hwhole h.2.2)]
      by_cases hneg : size < 0
      · exact spellsAmount_inFull_of_neg negative hsize hneg
      · exact spellsAmount_inFull_of_fraction negative hpos hsize (by omega) (by omega)
  · have hnone : ¬(l.least ≤ size ∧ size ≤ l.greatest ∧ 0 ≤ d.exponent) :=
      fun h => hfull ⟨h.1, h.2.1⟩
    rw [if_neg hnone, if_neg hfull, ← hsize]
    exact spellsAmount_withExponent negative hpos l.plus

end

/-! ## Doubles -/

theorem multiply_top : ∀ tie ∈ [Tie.up, Tie.even],
    ∀ m ∈ [double.infinity - 2, double.infinity - 1], (shortest double tie m).exponent = 292
      ∧ double.multiply (double.ofNat (shortest double tie m).coefficient) (power 292)
        = double.infinity - 1 := by
  decide +kernel

/-- The greatest two doubles come out as the greatest. -/
theorem scale?_top (tie : Tie) {m : ℕ} (hm : m < double.infinity)
    (htop : double.infinity ≤ m + 2) :
    (shortest .double tie m).exponent = 292
      ∧ scale? (double.ofNat (shortest .double tie m).coefficient) 292
        = some (double.infinity - 1) := by
  have htie : tie ∈ [Tie.up, Tie.even] := by cases tie <;> decide
  have hmem : m ∈ [double.infinity - 2, double.infinity - 1] := by
    simp only [List.mem_cons, List.not_mem_nil, or_false]
    omega
  obtain ⟨hexponent, hproduct⟩ := multiply_top tie htie m hmem
  refine ⟨hexponent, ?_⟩
  have hfinite : double.infinity - 1 ≠ double.infinity := by decide
  rw [scale?, if_pos (by decide), if_pos (by decide)]
  dsimp only
  rw [show (292 : ℤ).toNat = 292 from rfl, hproduct, if_neg hfinite]

theorem le_exponent_shortest_double (tie : Tie) {m : ℕ} (hpos : 0 < m) (hm : m < double.infinity) :
    -324 ≤ (shortest .double tie m).exponent := by
  apply le_exponent_shortest double_proper (by decide) tie hpos hm
  have hpowers : (2 : ℚ) * 2 ^ 1074 < 10 ^ 324 := by
    exact_mod_cast (by decide +kernel : 2 * 2 ^ 1074 < 10 ^ 324)
  rw [show double.leastExponent = -1074 by decide, zpow_neg, zpow_neg, zpow_ofNat, zpow_ofNat,
    ← div_eq_mul_inv, ← one_div, div_lt_div_iff₀ (by positivity) (by positivity), one_mul]
  exact hpowers

/-- The numeral that is written for a double comes out two magnitudes off at most, and as it is if
neither its digits nor its power are rounded. -/
theorem scale?_shortest_double (tie : Tie) {m : ℕ} (hpos : 0 < m) (hm : m < double.infinity)
    {d : Decimal} (hd : shortest .double tie m = d) {n : ℕ} {e : ℤ} (hn : n < 2 ^ 64)
    (hworth : n * 10 ^ e = d.worth)
    (hwritten : n = d.coefficient ∧ e = d.exponent ∨ 0 ≤ d.exponent ∧ e = -1) :
    ∃ r, scale? (double.ofNat n) e = some r ∧ r < double.infinity ∧ r ≤ m + 2 ∧ m ≤ r + 2
      ∧ (n < 2 ^ 53 → -22 ≤ e → e ≤ 22 → r = m) := by
  have hread : double.nearest d.worth = m := by
    rw [← toMagnitude_eq double_proper, ← hd, toMagnitude_shortest double_proper tie hm]
  have hcoefficient : 0 < d.coefficient := hd ▸ coefficient_shortest_pos double_proper tie hpos hm
  have hworthpos : 0 < d.worth :=
    mul_pos (Nat.cast_pos.mpr hcoefficient) (zpow_pos (by norm_num) d.exponent)
  have hnpos : 0 < n := by
    apply Nat.pos_of_ne_zero
    rintro rfl
    rw [Nat.cast_zero, zero_mul] at hworth
    exact hworthpos.ne hworth
  have hlow : -324 ≤ d.exponent := hd ▸ le_exponent_shortest_double tie hpos hm
  rcases Nat.lt_or_ge (m + 2) double.infinity with hbelow | htop
  · have hlimit : d.worth < 2 ^ (double.bias + 1) := by
      by_contra hlarge
      rw [double.nearest_of_large double_proper.bias (not_lt.mp hlarge)] at hread
      omega
    have hpowers : (2 : ℚ) ^ (double.bias + 1) ≤ 10 ^ 309 := by
      exact_mod_cast (by decide +kernel : 2 ^ (double.bias + 1) ≤ 10 ^ 309)
    rw [← hworth] at hread hlimit
    have hhigh := exponent_lt hnpos hpowers hlimit
    obtain ⟨r, hr, hmore, hless, hsame⟩ :=
      scale?_near hnpos hn (by omega) (by omega) hread hbelow
    exact ⟨r, hr, hmore.trans_lt hbelow, hmore, hless, hsame⟩
  · obtain ⟨hexponent, hscale⟩ := scale?_top tie hm htop
    rw [hd] at hexponent hscale
    rcases hwritten with ⟨rfl, rfl⟩ | ⟨-, rfl⟩
    · rw [hexponent]
      exact ⟨_, hscale, by decide, by omega, by omega, fun _ _ h => absurd h (by decide)⟩
    · -- in full, numbers are not as large as that
      have hsmall : (n : ℚ) < 2 ^ 64 := by exact_mod_cast hn
      have hpowers : (2 : ℚ) ^ 64 ≤ 10 ^ 20 := by norm_num
      have hworth' : d.worth < 2 ^ 64 := by
        rw [← hworth, zpow_neg_one]
        linarith [(Nat.cast_nonneg n : (0 : ℚ) ≤ n)]
      have hmost := exponent_lt hcoefficient hpowers hworth'
      omega

/-! ## Magnitudes as they are written -/

theorem scale?_zero : scale? (double.ofNat 0) (-1) = some 0 := by
  have hquotient : double.divide (double.ofNat 0) (power 1) = 0 := by decide +kernel
  have hscale := scale?_of_neg (double.ofNat 0) (le_refl 1) (by decide)
  rw [hquotient] at hscale
  exact hscale

section

variable {l : Layout} {m : ℕ}

/-- A float comes out as a double that is narrowed to the float. -/
theorem scale?_written_single (hl : l.greatest ≤ 12) (hm : m < single.infinity) :
    ∃ r, scale? (double.ofNat (l.writtenMagnitude .single m).coefficient)
        (l.writtenMagnitude .single m).exponent = some r
      ∧ r < double.infinity ∧ single.nearest (double.value r).worth = m := by
  have hfew := Layout.coefficient_writtenMagnitude_lt (k := 14) single_proper (by decide)
    (by decide) (by omega : l.greatest + 2 ≤ (14 : ℕ)) hm
  have hlimit := hfew.trans (by decide : 10 ^ 14 < 2 ^ 53)
  unfold Layout.writtenMagnitude at hlimit ⊢
  by_cases hzero : m = 0
  · rw [if_pos hzero, hzero]
    exact ⟨0, scale?_zero, by decide, by decide +kernel⟩
  · rw [if_neg hzero] at hlimit ⊢
    exact scale?_shortest l.tie (Nat.pos_of_ne_zero hzero) hm rfl hlimit (l.worth_written _)
      (l.written_cases _)

/-- A double comes out two magnitudes off at most, and as it is if neither its digits nor its power
are rounded. -/
theorem scale?_written_double (hl : l.greatest ≤ 15) (hm : m < double.infinity) :
    ∃ r, scale? (double.ofNat (l.writtenMagnitude .double m).coefficient)
        (l.writtenMagnitude .double m).exponent = some r
      ∧ r < double.infinity ∧ r ≤ m + 2 ∧ m ≤ r + 2
      ∧ ((l.writtenMagnitude .double m).coefficient < 2 ^ 53 →
        -22 ≤ (l.writtenMagnitude .double m).exponent →
        (l.writtenMagnitude .double m).exponent ≤ 22 → r = m) := by
  have hfew := Layout.coefficient_writtenMagnitude_lt (k := 17) double_proper (by decide)
    (by decide) (by omega : l.greatest + 2 ≤ (17 : ℕ)) hm
  have hlimit := hfew.trans (by decide : 10 ^ 17 < 2 ^ 64)
  unfold Layout.writtenMagnitude at hlimit ⊢
  by_cases hzero : m = 0
  · rw [if_pos hzero, hzero]
    exact ⟨0, scale?_zero, by decide, by decide, by decide, fun _ _ _ => rfl⟩
  · rw [if_neg hzero] at hlimit ⊢
    exact scale?_shortest_double l.tie (Nat.pos_of_ne_zero hzero) hm rfl hlimit
      (l.worth_written _) (l.written_cases _)

end

end Json

end ValueStream
