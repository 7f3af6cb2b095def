import ValueStream.Decimal.Shortest
import ValueStream.Proofs.Decimal.Numeral

/-!
Shortest numerals are read back.

Whatever count of digits the search for a short numeral stops at, it has tried
the numeral it stops with; where it stops with none, every digit of the
magnitude is written. Either way what is read is the magnitude
(`toMagnitude_shortest`).
-/

namespace ValueStream.Decimal

open Binary

/-- The exact numeral is worth what the magnitude is. -/
theorem worth_exact (f : Format) (m : ℕ) : (exact f m).worth = (f.value m).worth := by
  rw [f.worth_value, exact]
  dsimp only
  split
  · next hnonneg =>
    obtain ⟨n, hn⟩ := Int.eq_ofNat_of_zero_le hnonneg
    rw [worth, hn, Int.toNat_natCast, zpow_zero, mul_one, zpow_natCast, Nat.pow_eq]
    push_cast
    rfl
  · next hneg =>
    obtain ⟨n, hn⟩ : ∃ n : ℕ, (f.decode m).2 = -(n : ℤ) := ⟨(-(f.decode m).2).toNat, by omega⟩
    have hten : (10 : ℚ) ^ n = 2 ^ n * 5 ^ n := by rw [← mul_pow]; norm_num
    rw [worth, hn, neg_neg, Int.toNat_natCast, zpow_neg, zpow_neg, zpow_natCast, zpow_natCast,
      Nat.pow_eq, hten]
    push_cast
    field_simp

/-! ## The numerals around a magnitude -/

section Neighbours

variable (f : Format) (m : ℕ) (e : ℤ)

/-- The greatest multiple of a power of ten that is not above the magnitude. -/
def lower : Decimal := ⟨((f.value m).scale 10 (-e)).floor, e⟩

/-- The multiple that follows. -/
def upper : Decimal := ⟨((f.value m).scale 10 (-e)).floor + 1, e⟩

theorem neighbour?_eq (tie : Tie) :
    neighbour? f tie m e
      = match readsBack f m (lower f m e), readsBack f m (upper f m e) with
        | true, true =>
          some (if tie.takesUpper ((f.value m).scale 10 (-e)) then upper f m e else lower f m e)
        | true, false => some (lower f m e)
        | false, true => some (upper f m e)
        | false, false => none := rfl

variable {f m e}

/-- What is found is one of the two, and is read as the magnitude. -/
theorem neighbour_spec {tie : Tie} {d : Decimal} (h : neighbour? f tie m e = some d) :
    d.toMagnitude f = m ∧ (d = lower f m e ∨ d = upper f m e) := by
  rw [neighbour?_eq] at h
  split at h
  · next hlower hupper =>
    rw [← Option.some.inj h]
    split
    · exact ⟨beq_iff_eq.mp hupper, Or.inr rfl⟩
    · exact ⟨beq_iff_eq.mp hlower, Or.inl rfl⟩
  · next hlower _ =>
    rw [← Option.some.inj h]
    exact ⟨beq_iff_eq.mp hlower, Or.inl rfl⟩
  · next _ hupper =>
    rw [← Option.some.inj h]
    exact ⟨beq_iff_eq.mp hupper, Or.inr rfl⟩
  · exact absurd h (Option.some_ne_none d).symm

end Neighbours

/-- The shortest numeral of a finite magnitude is read as the magnitude. -/
theorem toMagnitude_shortest {f : Format} (hf : f.Proper) (tie : Tie) {m : ℕ} (hm : m < f.infinity) :
    (shortest f tie m).toMagnitude f = m := by
  rw [toMagnitude_eq hf, shortest, worth_strip, ← toMagnitude_eq hf]
  generalize hsearch : (List.range (enoughDigits f)).findSome? _ = found
  cases found with
  | none => rw [Option.getD_none, toMagnitude_eq hf, worth_exact, f.nearest_value hm]
  | some d =>
    obtain ⟨places, -, hfound⟩ := List.exists_of_findSome?_eq_some hsearch
    exact (neighbour_spec hfound).1

theorem coefficient_shortest_pos {f : Format} (hf : f.Proper) (tie : Tie) {m : ℕ} (hpos : 0 < m)
    (hm : m < f.infinity) : 0 < (shortest f tie m).coefficient := by
  have hread := toMagnitude_shortest hf tie hm
  apply Nat.pos_of_ne_zero
  intro hzero
  rw [toMagnitude_eq hf, worth_of_zero hzero, Format.nearest, if_pos rfl] at hread
  omega

end ValueStream.Decimal
