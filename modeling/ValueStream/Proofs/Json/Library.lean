import ValueStream.Proofs.Json.Conversion
import ValueStream.Proofs.Json.Document
import ValueStream.Value.Json

/-!
What is asked of a JSON library, and that the standard one does it.

A library is lawful (`Library.Lawful`) if it reads arrays and objects of scalars
as they are written (`Scalar`, `Member`), takes nothing but brackets for an array
without elements, reads whole numbers of 64 bits as what they are, and scales
the digits of every other number by a power of ten, both of them doubles
(`Scaled`). It writes large floating numbers with an exponent. Nothing is asked
about texts of any other form. The standard library is lawful
(`standard_lawful`): its reader is followed through the elements and members one
by one, and its conversion is `Scaled` step by step (`scale?_eq_some_iff`).
-/

namespace ValueStream.Json

open Binary

/-! ## Scaling -/

/-- What a magnitude comes to times a power of ten. The power is rounded to a double, and so is
the product or the quotient; beyond the least power of ten, two quotients are. -/
inductive Scaled : ℕ → ℤ → ℕ → Prop where
  | zero {e : ℤ} : Scaled 0 e 0
  | product {m k r : ℕ} (power : k ≤ 308)
      (rounded : Format.double.nearest ((Format.double.value m).worth
        * (Format.double.value (Format.double.nearest (10 ^ k))).worth) = r)
      (finite : r ≠ Format.double.infinity) : Scaled m k r
  | quotient {m k r : ℕ} (below : 1 ≤ k) (power : k ≤ 308)
      (rounded : Format.double.nearest ((Format.double.value m).worth
        / (Format.double.value (Format.double.nearest (10 ^ k))).worth) = r) : Scaled m (-(k : ℤ)) r
  | far {m k r s : ℕ} (below : 1 ≤ k)
      (rounded : Format.double.nearest ((Format.double.value m).worth
        / (Format.double.value (Format.double.nearest (10 ^ 308))).worth) = s)
      (rest : Scaled s (-(k : ℤ)) r) : Scaled m (-((k + 308 : ℕ) : ℤ)) r

theorem power_eq (k : ℕ) : power k = Format.double.nearest (10 ^ k) := by
  rw [power, Format.ofNat_eq]
  norm_cast

theorem divide_power (m : ℕ) {k : ℕ} (hk : k ≤ 308) :
    Format.double.divide m (power k) = Format.double.nearest ((Format.double.value m).worth
      / (Format.double.value (Format.double.nearest (10 ^ k))).worth) := by
  rw [Format.divide_eq _ _ (worth_power_pos hk), power_eq]

theorem multiply_power (m k : ℕ) :
    Format.double.multiply m (power k) = Format.double.nearest ((Format.double.value m).worth
      * (Format.double.value (Format.double.nearest (10 ^ k))).worth) := by
  rw [Format.multiply_eq, power_eq]

theorem worth_value_zero : (Format.double.value 0).worth = 0 := by
  have hnum : (Format.double.value 0).num = 0 := by decide +kernel
  rw [Ratio.worth, hnum, Nat.cast_zero, zero_div]

theorem nearest_zero : Format.double.nearest 0 = 0 := if_pos rfl

theorem scale?_zero_left (e : ℤ) : scale? 0 e = some 0 := by
  have hzero : 0 ≠ Format.double.infinity := by decide
  unfold scale?
  split
  · split
    · rw [multiply_power, worth_value_zero, zero_mul, nearest_zero]
      exact if_neg hzero
    · rw [if_pos rfl]
  · split
    · next hpower => rw [divide_power 0 hpower, worth_value_zero, zero_div, nearest_zero]
    · rw [if_pos rfl]

/-- The conversion does what scaling asks, one product or quotient at a time. -/
theorem scale?_eq_some_iff {m r : ℕ} {e : ℤ} : scale? m e = some r ↔ Scaled m e r := by
  constructor
  · intro h
    fun_induction scale? m e with
    | case1 => cases h
    | case2 m e hsign hpower product hfinite =>
      obtain ⟨k, rfl⟩ := Int.eq_ofNat_of_zero_le hsign
      rw [← Option.some.inj h]
      exact .product hpower (multiply_power m k).symm hfinite
    | case3 =>
      cases h
      exact .zero
    | case4 => cases h
    | case5 m e hsign hpower =>
      obtain ⟨k, rfl⟩ : ∃ k : ℕ, e = -(k : ℤ) := ⟨(-e).toNat, by omega⟩
      rw [neg_neg, Int.toNat_natCast] at hpower h
      cases h
      exact .quotient (by omega) hpower (divide_power m hpower).symm
    | case6 =>
      cases h
      exact .zero
    | case7 m e hsign hpower hm ih =>
      obtain ⟨k, rfl⟩ : ∃ k : ℕ, e = -((k + 308 : ℕ) : ℤ) := by
        rw [greatestPower] at hpower
        exact ⟨(-e).toNat - 308, by omega⟩
      have hplaces : -((k + 308 : ℕ) : ℤ) + (greatestPower : ℤ) = -(k : ℤ) := by
        rw [greatestPower]
        omega
      have hrest := ih h
      rw [greatestPower] at hpower
      rw [hplaces, greatestPower, divide_power m (le_refl 308)] at hrest
      exact .far (by omega) rfl hrest
  · intro h
    induction h with
    | zero => exact scale?_zero_left _
    | product hpower hrounded hfinite =>
      rw [scale?, if_pos (Int.natCast_nonneg _), if_pos (by rw [Int.toNat_natCast]; exact hpower)]
      dsimp only
      rw [Int.toNat_natCast, multiply_power, hrounded, if_neg hfinite]
    | quotient hbelow hpower hrounded =>
      rw [scale?_of_neg _ hbelow hpower, divide_power _ hpower, hrounded]
    | @far m k r s hbelow hrounded _ ih =>
      by_cases hm : m = 0
      · subst hm
        rw [worth_value_zero, zero_div, nearest_zero] at hrounded
        subst hrounded
        rw [scale?_zero_left] at ih ⊢
        exact ih
      · have hplaces : -((k + 308 : ℕ) : ℤ) + (greatestPower : ℤ) = -(k : ℤ) := by
          rw [greatestPower]
          omega
        rw [scale?, if_neg (by omega), if_neg (by rw [greatestPower]; omega), if_neg hm, hplaces,
          greatestPower, divide_power m (le_refl 308), hrounded]
        exact ih

/-! ## Lawful libraries -/

namespace Library

/-- What values and schemas need of a library to come back as they were written. -/
structure Lawful (lib : Library) : Prop where
  /-- Numbers in full have few places before the point. -/
  single_places : lib.single.greatest ≤ 12
  double_places : lib.double.greatest ≤ 15
  /-- An array of scalars is read as it is written. -/
  array {elements : List Document} {texts : List (List Char)} :
    List.Forall₂ Scalar elements texts →
      lib.document? ('[' :: ([','].intercalate texts ++ [']'])) = some (.array elements)
  /-- An object of scalars is read as it is written. -/
  object {members : List (List Char × Document)} {texts : List (List Char)} :
    List.Forall₂ Member members texts →
      lib.document? ('\x7b' :: ([','].intercalate texts ++ ['\x7d']))
        = some (.object (members.map (fun m => (some m.1, m.2))))
  /-- Brackets with blanks between and around them are an array without elements, and no other
  text is. -/
  empty (cs : List Char) : lib.document? cs = some (.array []) ↔ IsEmptyArray cs
  /-- Whole numbers of at most 64 bits are read as they are. -/
  natural {x : Number} {n : ℕ} : x.IsInteger n → x.negative = false → n < 2 ^ 64 →
    lib.worth? x = some (.natural n)
  negative {x : Number} {n : ℕ} : x.IsInteger n → x.negative = true → 0 < n → n ≤ 2 ^ 63 →
    lib.worth? x = some (.negative n)
  /-- The digits of other numbers are rounded to a double and scaled. -/
  scaled {x : Number} {n r : ℕ} {e : ℤ} : x.Amounts n e → n < 2 ^ 64 →
    Scaled (Format.double.nearest n) e r →
      lib.worth? x = some (.floating (Format.double.signed x.negative r))

/-- The standard library is lawful. -/
theorem standard_lawful : standard.Lawful where
  single_places := by decide
  double_places := by decide
  array := ofChars?_array
  object := ofChars?_object
  empty _ := ofChars?_eq_empty_iff
  natural hx hpositive hn := by
    show Number.worth? _ = _
    rw [worth?_of_integer hx hn, hpositive]
    rfl
  negative hx hnegative hpos hn := by
    have hsize : UInt64.size = 2 ^ 64 := rfl
    show Number.worth? _ = _
    rw [worth?_of_integer hx (by omega), hnegative, wholeWorth, Bool.not_true,
      if_neg Bool.false_ne_true, if_neg (by omega)]
  scaled hx hn hscaled := by
    show Number.worth? _ = _
    rw [worth?_of_amounts hx hn, Json.floating?, Format.ofNat_eq, scale?_eq_some_iff.mpr hscaled]
    rfl

end Library

end ValueStream.Json
