import Mathlib.Data.Nat.Digits.Defs
import Mathlib.Data.Nat.Digits.Lemmas

/-!
Which digits a word has.

Digits in a base make a number, of which a word keeps the lowest 32 bits. It has
no more digits than went in (`length_digits_ofNat_le`). It has just those digits
where the topmost is not zero and the number fits, and whether it fits depends on
the topmost digit only, where there are as many as a word can have
(`digits_ofNat_iff`).
-/

namespace ValueStream

variable {b : Nat} {low : List Nat} {top : Nat}

theorem ofDigits_concat :
    Nat.ofDigits b (low ++ [top]) = Nat.ofDigits b low + b ^ low.length * top := by
  rw [Nat.ofDigits_append, Nat.ofDigits_singleton]

/-- A word keeps no more digits than there are. -/
theorem length_digits_ofNat_le (hb : 1 < b) {ds : List Nat} (h : ∀ d ∈ ds, d < b) :
    (Nat.digits b (UInt32.ofNat (Nat.ofDigits b ds)).toNat).length ≤ ds.length := by
  rw [Nat.digits_length_le_iff hb, UInt32.toNat_ofNat']
  exact Nat.lt_of_le_of_lt (Nat.mod_le _ _) (Nat.ofDigits_lt_base_pow_length hb h)

/-- Where `most` is the greatest digit that fits above `limit` others, it decides whether a
number of that many digits is a word; shorter ones always are. -/
theorem ofDigits_lt_iff (hb : 1 < b) {limit most : Nat} (hword : b ^ limit * (most + 1) = 2 ^ 32)
    (hlow : ∀ d ∈ low, d < b) (htop : top < b) (hlength : low.length ≤ limit) :
    Nat.ofDigits b (low ++ [top]) < 2 ^ 32 ↔ (low.length = limit → top ≤ most) := by
  have hrest : Nat.ofDigits b low < b ^ low.length := Nat.ofDigits_lt_base_pow_length hb hlow
  rw [ofDigits_concat, ← hword]
  constructor
  · intro hlt hlimit
    rw [hlimit] at hlt
    by_contra hmost
    have hmul : b ^ limit * (most + 1) ≤ b ^ limit * top :=
      Nat.mul_le_mul_left _ (Nat.lt_of_not_le hmost)
    omega
  · intro hmost
    calc Nat.ofDigits b low + b ^ low.length * top
        < b ^ low.length * (top + 1) := by rw [Nat.mul_succ]; omega
      _ ≤ b ^ limit * (most + 1) := by
          rcases Nat.lt_or_eq_of_le hlength with hshort | hlimit
          · calc b ^ low.length * (top + 1)
                ≤ b ^ low.length * b := Nat.mul_le_mul_left _ htop
              _ = b ^ (low.length + 1) := (Nat.pow_succ ..).symm
              _ ≤ b ^ limit := Nat.pow_le_pow_right (Nat.lt_of_succ_lt hb) hshort
              _ ≤ b ^ limit * (most + 1) := Nat.le_mul_of_pos_right _ (Nat.succ_pos most)
          · rw [hlimit]
            exact Nat.mul_le_mul_left _ (Nat.succ_le_succ (hmost hlimit))

/-- The digits of the word are those it was made of just where the topmost is not zero and
nothing was lost. -/
theorem digits_ofNat_iff (hb : 1 < b) {limit most : Nat} (hword : b ^ limit * (most + 1) = 2 ^ 32)
    (hlow : ∀ d ∈ low, d < b) (htop : top < b) (hlength : low.length ≤ limit) :
    Nat.digits b (UInt32.ofNat (Nat.ofDigits b (low ++ [top]))).toNat = low ++ [top]
      ↔ top ≠ 0 ∧ (low.length = limit → top ≤ most) := by
  have hdigits : ∀ d ∈ low ++ [top], d < b := by
    intro d hd
    rcases List.mem_append.mp hd with hd | hd
    · exact hlow d hd
    · rw [List.mem_singleton.mp hd]
      exact htop
  rw [← ofDigits_lt_iff hb hword hlow htop hlength]
  constructor
  · intro h
    have hvalue := congrArg (Nat.ofDigits b) h
    rw [Nat.ofDigits_digits] at hvalue
    have hne : (UInt32.ofNat (Nat.ofDigits b (low ++ [top]))).toNat ≠ 0 := by
      intro hzero
      rw [hzero, Nat.digits_zero] at h
      exact List.append_ne_nil_of_right_ne_nil low (List.cons_ne_nil top []) h.symm
    have hlast := Nat.getLast_digit_ne_zero b hne
    simp only [h, List.getLast_append_singleton] at hlast
    refine ⟨hlast, ?_⟩
    rw [← hvalue]
    exact UInt32.toNat_lt _
  · rintro ⟨hne, hlt⟩
    rw [UInt32.toNat_ofNat', Nat.mod_eq_of_lt hlt]
    apply Nat.digits_ofDigits b hb _ hdigits
    intro _
    rw [List.getLast_append_singleton]
    exact hne

end ValueStream
