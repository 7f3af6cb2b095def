import ValueStream.Decimal.Layout
import ValueStream.Proofs.Decimal.Shortest

/-!
Numerals are read as they are laid out.

A reader takes the digits up to a point, those behind it, and the exponent
(`ofText?_point`, `ofText?_plain`). A numeral in full with digits behind the
point, or with an exponent, comes back as the coefficient and the exponent that
it was made of; in full with zeros filled in it comes back with those zeros in
its coefficient. What it is worth is the same in every case
(`ofText?_numeral`).
-/

namespace ValueStream.Decimal

open Text

theorem isDigit_eq (c : Char) : isDigit c = c.isDigit := rfl

/-! ## Reading -/

theorem not_isDigit_of_exponent {c : Char} {cs : List Char} {e : ℤ}
    (h : exponent? (c :: cs) = some e) : isDigit c = false ∧ c ≠ '.' := by
  rw [exponent?] at h
  split at h
  · next hletter => rcases hletter with rfl | rfl <;> decide
  · exact absurd h (Option.some_ne_none e).symm

/-- Digits are taken up to the first character that is none. -/
theorem span_digits {ds rest : List Char} (hds : ∀ c ∈ ds, c.isDigit = true)
    (hrest : ∀ c ∈ rest.head?, isDigit c = false) : (ds ++ rest).span isDigit = (ds, rest) := by
  have hall : ∀ c ∈ ds, isDigit c = true := fun c hc => (isDigit_eq c).trans (hds c hc)
  rw [List.span_eq_takeWhile_dropWhile, List.takeWhile_append_of_pos hall,
    List.dropWhile_append_of_pos hall]
  cases rest with
  | nil => rw [List.takeWhile_nil, List.dropWhile_nil, List.append_nil]
  | cons c rest =>
    have hc : ¬ isDigit c = true := by
      rw [hrest c rfl]
      exact Bool.false_ne_true
    rw [List.takeWhile_cons_of_neg hc, List.dropWhile_cons_of_neg hc, List.append_nil]

/-- Digits with a point among them are read as a coefficient with as many places. -/
theorem ofText?_point (whole fraction rest : List Char) {n : ℕ} {e : ℤ}
    (hwhole : ∀ c ∈ whole, c.isDigit = true) (hfraction : ∀ c ∈ fraction, c.isDigit = true)
    (hdigits : digits? 10 (whole ++ fraction) = some n) (hrest : exponent? rest = some e) :
    ofText? (whole ++ '.' :: (fraction ++ rest)) = some ⟨n, e - fraction.length⟩ := by
  have hpoint : (whole ++ '.' :: (fraction ++ rest)).span isDigit
      = (whole, '.' :: (fraction ++ rest)) := by
    apply span_digits hwhole
    intro c hc
    obtain rfl : '.' = c := Option.some.inj hc
    rfl
  have hend : (fraction ++ rest).span isDigit = (fraction, rest) := by
    apply span_digits hfraction
    intro c hc
    cases rest with
    | nil => exact absurd hc (by simp)
    | cons d rest =>
      obtain rfl : d = c := Option.some.inj hc
      exact (not_isDigit_of_exponent hrest).1
  rw [ofText?, hpoint]
  dsimp only
  rw [fractionOf, hend]
  dsimp only
  rw [hdigits, hrest]

/-- Digits without a point are read as a coefficient. -/
theorem ofText?_plain {whole rest : List Char} {n : ℕ} {e : ℤ}
    (hwhole : ∀ c ∈ whole, c.isDigit = true) (hdigits : digits? 10 whole = some n)
    (hrest : exponent? rest = some e) : ofText? (whole ++ rest) = some ⟨n, e⟩ := by
  have hend : (whole ++ rest).span isDigit = (whole, rest) := by
    apply span_digits hwhole
    intro c hc
    cases rest with
    | nil => exact absurd hc (by simp)
    | cons d rest =>
      obtain rfl : d = c := Option.some.inj hc
      exact (not_isDigit_of_exponent hrest).1
  have hnone : fractionOf rest = ([], rest) := by
    unfold fractionOf
    split
    · next cs => exact absurd rfl (not_isDigit_of_exponent hrest).2
    · rfl
  rw [ofText?, hend]
  dsimp only
  rw [hnone]
  dsimp only
  rw [List.append_nil, hdigits, hrest]
  simp

namespace Layout

/-! ## What is laid out -/

theorem isDigit_of_zeros {k : ℕ} {c : Char} (h : c ∈ List.replicate k '0') : c.isDigit = true := by
  rw [List.eq_of_mem_replicate h]
  rfl

/-- Below one, zeros stand between the point and the digits. -/
theorem ofText?_inFull_of_neg (d : Decimal) {size : ℤ}
    (hsize : d.exponent + (natural d.coefficient).length - 1 = size) (hneg : size < 0) :
    ofText? (inFull (natural d.coefficient) size) = some d := by
  unfold inFull
  rw [if_pos hneg]
  generalize hzeros : (-size - 1).toNat = zeros
  have hdigits : digits? 10 (['0'] ++ (List.replicate zeros '0' ++ natural d.coefficient))
      = some d.coefficient :=
    digits?_zeros_append (by decide) (by decide) d.coefficient (zeros + 1)
  have hfraction : ∀ c ∈ List.replicate zeros '0' ++ natural d.coefficient, c.isDigit = true := by
    intro c hc
    rcases List.mem_append.mp hc with hc | hc
    · exact isDigit_of_zeros hc
    · exact isDigit_natural hc
  have hread := ofText?_point ['0'] _ [] (List.forall_mem_singleton.mpr rfl) hfraction hdigits rfl
  have hplaces : (0 : ℤ) - (List.replicate zeros '0' ++ natural d.coefficient).length
      = d.exponent := by
    rw [List.length_append, List.length_replicate]
    omega
  rw [List.append_nil, hplaces] at hread
  exact hread

/-- A whole number has zeros up to the point, and one behind it. -/
theorem ofText?_inFull_of_whole (d : Decimal) {size : ℤ} (hnonneg : ¬ size < 0)
    (hfew : (natural d.coefficient).length ≤ size.toNat + 1) :
    ofText? (inFull (natural d.coefficient) size)
      = some ⟨d.coefficient * 10 ^ (size.toNat + 1 - (natural d.coefficient).length + 1), -1⟩ := by
  unfold inFull
  rw [if_neg hnonneg]
  dsimp only
  generalize size.toNat + 1 = count at hfew ⊢
  generalize hzeros : count - (natural d.coefficient).length = zeros
  have hdigits : digits? 10 ((natural d.coefficient ++ List.replicate zeros '0') ++ ['0'])
      = some (d.coefficient * 10 ^ (zeros + 1)) := by
    rw [List.append_assoc, ← List.replicate_succ']
    exact digits?_natural_zeros _ _
  have hwhole : ∀ c ∈ natural d.coefficient ++ List.replicate zeros '0', c.isDigit = true := by
    intro c hc
    rcases List.mem_append.mp hc with hc | hc
    · exact isDigit_natural hc
    · exact isDigit_of_zeros hc
  rw [List.take_of_length_le hfew, List.drop_of_length_le hfew]
  exact ofText?_point _ ['0'] [] hwhole (List.forall_mem_singleton.mpr rfl) hdigits rfl

/-- Otherwise the point stands among the digits. -/
theorem ofText?_inFull_of_fraction (d : Decimal) {size : ℤ}
    (hsize : d.exponent + (natural d.coefficient).length - 1 = size) (hnonneg : ¬ size < 0)
    (hmany : ¬ (natural d.coefficient).length ≤ size.toNat + 1) :
    ofText? (inFull (natural d.coefficient) size) = some d := by
  unfold inFull
  rw [if_neg hnonneg]
  dsimp only
  generalize hcount : size.toNat + 1 = count at hmany ⊢
  have hfraction : ((natural d.coefficient).drop count).isEmpty = false := by
    rw [List.isEmpty_eq_false_iff, Ne, List.drop_eq_nil_iff]
    exact hmany
  have hfill : count - (natural d.coefficient).length = 0 := by omega
  have hdigits : digits? 10 ((natural d.coefficient).take count
      ++ (natural d.coefficient).drop count) = some d.coefficient := by
    rw [List.take_append_drop]
    exact digits?_natural d.coefficient
  have hread := ofText?_point _ _ [] (fun c hc => isDigit_natural (List.mem_of_mem_take hc))
    (fun c hc => isDigit_natural (List.mem_of_mem_drop hc)) hdigits rfl
  have hplaces : (0 : ℤ) - ((natural d.coefficient).drop count).length = d.exponent := by
    rw [List.length_drop]
    omega
  rw [List.append_nil, hplaces] at hread
  rw [hfraction, if_neg Bool.false_ne_true, hfill, List.replicate_zero, List.append_nil]
  exact hread

/-- Digits in full are read as what they are worth. -/
theorem ofText?_inFull (d : Decimal) :
    ∃ d', ofText? (inFull (natural d.coefficient)
      (d.exponent + (natural d.coefficient).length - 1)) = some d' ∧ d'.worth = d.worth := by
  generalize hsize : d.exponent + (natural d.coefficient).length - 1 = size
  by_cases hneg : size < 0
  · exact ⟨d, ofText?_inFull_of_neg d hsize hneg, rfl⟩
  · by_cases hfew : (natural d.coefficient).length ≤ size.toNat + 1
    · refine ⟨_, ofText?_inFull_of_whole d hneg hfew, ?_⟩
      have hexponent : d.exponent
          = ((size.toNat + 1 - (natural d.coefficient).length : ℕ) : ℤ) := by omega
      rw [worth, worth, hexponent, zpow_natCast, zpow_neg_one]
      push_cast
      rw [pow_succ]
      field_simp
    · exact ⟨d, ofText?_inFull_of_fraction d hsize hneg hfew, rfl⟩

theorem exponent?_size (plus : Bool) (size : ℤ) :
    exponent? ('e' :: ((if plus ∧ 0 ≤ size then ['+'] else []) ++ integer size)) = some size := by
  rw [exponent?, if_pos (Or.inl rfl)]
  split
  · next hplus =>
    obtain ⟨n, rfl⟩ := Int.eq_ofNat_of_zero_le hplus.2
    rw [integer, if_neg (by omega), Int.natAbs_natCast, List.singleton_append, integer?,
      digits?_natural]
    rfl
  · exact integer?_integer size

/-- Digits with an exponent are read as the coefficient and the exponent they were made of. -/
theorem ofText?_withExponent (plus : Bool) (d : Decimal) :
    ofText? (withExponent plus (natural d.coefficient)
      (d.exponent + (natural d.coefficient).length - 1)) = some d := by
  have hcoefficient := digits?_natural d.coefficient
  have hdigits : ∀ c ∈ natural d.coefficient, c.isDigit = true := fun c hc => isDigit_natural hc
  have hexponent := exponent?_size plus (d.exponent + (natural d.coefficient).length - 1)
  obtain ⟨first, others, hsplit⟩ := List.exists_cons_of_ne_nil (natural_ne_nil d.coefficient)
  unfold withExponent
  rw [hsplit] at hcoefficient hdigits hexponent ⊢
  dsimp only
  rw [List.take_succ_cons, List.take_zero, List.drop_succ_cons, List.drop_zero]
  cases others with
  | nil =>
    rw [List.isEmpty_nil, if_pos rfl, List.append_nil, ofText?_plain hdigits hcoefficient hexponent]
    simp
  | cons second others =>
    rw [List.isEmpty_cons, if_neg Bool.false_ne_true]
    have hread := ofText?_point [first] (second :: others) _
      (fun c hc => hdigits c (List.mem_cons.mpr (Or.inl (List.mem_singleton.mp hc))))
      (fun c hc => hdigits c (List.mem_cons_of_mem _ hc)) hcoefficient hexponent
    have hplaces : d.exponent + (first :: second :: others).length - 1 - (second :: others).length
        = d.exponent := by
      simp only [List.length_cons]
      omega
    rw [hplaces] at hread
    exact hread

/-- However a numeral is laid out, it is read as one that is worth the same. -/
theorem ofText?_numeral (l : Layout) (d : Decimal) :
    ∃ d', ofText? (l.numeral d) = some d' ∧ d'.worth = d.worth := by
  unfold numeral
  dsimp only
  split
  · exact ofText?_inFull d
  · exact ⟨d, ofText?_withExponent l.plus d, rfl⟩

/-! ## Characters -/

theorem mem_inFull {n : ℕ} {size : ℤ} {c : Char} (h : c ∈ inFull (natural n) size) :
    c.isDigit = true ∨ c = '.' := by
  unfold inFull at h
  split at h
  · rcases List.mem_cons.mp h with rfl | h
    · exact Or.inl rfl
    · rcases List.mem_cons.mp h with rfl | h
      · exact Or.inr rfl
      · rcases List.mem_append.mp h with h | h
        · exact Or.inl (isDigit_of_zeros h)
        · exact Or.inl (isDigit_natural h)
  · dsimp only at h
    rcases List.mem_append.mp h with h | h
    · rcases List.mem_append.mp h with h | h
      · exact Or.inl (isDigit_natural (List.mem_of_mem_take h))
      · exact Or.inl (isDigit_of_zeros h)
    · rcases List.mem_cons.mp h with rfl | h
      · exact Or.inr rfl
      · left
        split at h
        · rw [List.mem_singleton.mp h]
          rfl
        · exact isDigit_natural (List.mem_of_mem_drop h)

theorem mem_withExponent {plus : Bool} {n : ℕ} {size : ℤ} {c : Char}
    (h : c ∈ withExponent plus (natural n) size) :
    c.isDigit = true ∨ c = '.' ∨ c = 'e' ∨ c = '-' ∨ (plus = true ∧ c = '+') := by
  unfold withExponent at h
  rcases List.mem_append.mp h with h | h
  · rcases List.mem_append.mp h with h | h
    · exact Or.inl (isDigit_natural (List.mem_of_mem_take h))
    · split at h
      · exact absurd h List.not_mem_nil
      · rcases List.mem_cons.mp h with rfl | h
        · exact Or.inr (Or.inl rfl)
        · exact Or.inl (isDigit_natural (List.mem_of_mem_drop h))
  · rcases List.mem_cons.mp h with rfl | h
    · exact Or.inr (Or.inr (Or.inl rfl))
    · rcases List.mem_append.mp h with h | h
      · split at h
        · next hplus =>
          exact Or.inr (Or.inr (Or.inr (Or.inr ⟨hplus.1, List.mem_singleton.mp h⟩)))
        · exact absurd h List.not_mem_nil
      · rcases mem_integer h with h | rfl
        · exact Or.inl h
        · exact Or.inr (Or.inr (Or.inr (Or.inl rfl)))

/-- A numeral is of digits, points, the letter e and signs. -/
theorem mem_numeral {l : Layout} {d : Decimal} {c : Char} (h : c ∈ l.numeral d) :
    c.isDigit = true ∨ c = '.' ∨ c = 'e' ∨ c = '-' ∨ (l.plus = true ∧ c = '+') := by
  unfold numeral at h
  dsimp only at h
  split at h
  · rcases mem_inFull h with h | h
    · exact Or.inl h
    · exact Or.inr (Or.inl h)
  · exact mem_withExponent h

/-- A numeral begins with a digit. -/
theorem exists_numeral_eq (l : Layout) (d : Decimal) :
    ∃ c cs, l.numeral d = c :: cs ∧ c.isDigit = true := by
  obtain ⟨first, others, hsplit⟩ := List.exists_cons_of_ne_nil (natural_ne_nil d.coefficient)
  have hfirst : first.isDigit = true := isDigit_natural (hsplit ▸ List.mem_cons_self)
  unfold numeral
  dsimp only
  rw [hsplit]
  split
  · unfold inFull
    split
    · exact ⟨'0', _, rfl, rfl⟩
    · exact ⟨first, _, rfl, hfirst⟩
  · exact ⟨first, _, rfl, hfirst⟩

end Layout

end ValueStream.Decimal
