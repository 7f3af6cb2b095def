import Mathlib.Data.List.Forall2
import ValueStream.Proofs.Text.Numeral

/-!
What texts are numerals, and of what numbers.

A numeral is digits with the sum of their products with the powers of the base
(`Denotes`), a natural number may have a plus sign before it (`Unsigned`), an
integer a sign of either kind (`Signed`). The readers take these texts and no
others, for these numbers and no others (`digits?_eq_some_iff`,
`natural?_eq_some_iff`, `integer?_eq_some_iff`): the digits are read from the
left, each after a product with the base, and none of the signs is a digit.
-/

namespace ValueStream.Text

/-! ## Digits -/

/-- A character is the digit of a number below the base; letters of either case. -/
def IsDigit (base : ℕ) (c : Char) (d : ℕ) : Prop :=
  d < base ∧ ("0123456789abcdef".toList[d]? = some c ∨ "0123456789ABCDEF".toList[d]? = some c)

/-- One or more digits, the most significant first, and the number that they come to. -/
def Denotes (base : ℕ) (cs : List Char) (n : ℕ) : Prop :=
  cs ≠ [] ∧ ∃ ds, List.Forall₂ (IsDigit base) cs ds ∧ n = Nat.ofDigits base ds.reverse

/-- A character of a range is known from its place in it. -/
theorem eq_ofNat_of_range {lo c hi : Char} (h : lo ≤ c ∧ c ≤ hi) {start d : ℕ}
    (hd : c.toNat - lo.toNat + start = d) :
    c = Char.ofNat (lo.toNat + (d - start)) ∧ start ≤ d ∧ d ≤ hi.toNat - lo.toNat + start := by
  have hlo : lo.toNat ≤ c.toNat := UInt32.le_iff_toNat_le.mp h.1
  have hhi : c.toNat ≤ hi.toNat := UInt32.le_iff_toNat_le.mp h.2
  refine ⟨?_, by omega, by omega⟩
  rw [show lo.toNat + (d - start) = c.toNat by omega, Char.ofNat_toNat]

theorem digitValue?_eq_some_iff {base : ℕ} (h16 : base ≤ 16) {c : Char} {d : ℕ} :
    digitValue? base c = some d ↔ IsDigit base c d := by
  constructor
  · intro h
    simp only [digitValue?, Option.ite_none_right_eq_some, Option.some.injEq] at h
    obtain ⟨hbase, hd⟩ := h
    rw [hd] at hbase
    refine ⟨hbase, ?_⟩
    split at hd
    · next hrange =>
      obtain ⟨rfl, -, hhi⟩ := eq_ofNat_of_range hrange ((Nat.add_zero _).trans hd)
      have hnine : d ≤ 9 := hhi
      left
      interval_cases d <;> rfl
    · split at hd
      · next hrange =>
        obtain ⟨rfl, hlo, hhi⟩ := eq_ofNat_of_range hrange hd
        have hfifteen : d ≤ 15 := hhi
        left
        interval_cases d <;> rfl
      · split at hd
        · next hrange =>
          obtain ⟨rfl, hlo, hhi⟩ := eq_ofNat_of_range hrange hd
          have hfifteen : d ≤ 15 := hhi
          right
          interval_cases d <;> rfl
        · omega
  · rintro ⟨hd, hc⟩
    have hlt : d < 16 := Nat.lt_of_lt_of_le hd h16
    rcases hc with hc | hc <;> interval_cases d <;> cases hc <;> exact if_pos hd

/-- The most significant of some digits moves up the number that it stands behind. -/
theorem ofDigits_reverse_cons (base n d : ℕ) (ds : List ℕ) :
    n * base ^ (ds.length + 1) + Nat.ofDigits base (d :: ds).reverse
      = (n * base + d) * base ^ ds.length + Nat.ofDigits base ds.reverse := by
  rw [List.reverse_cons, Nat.ofDigits_append, Nat.ofDigits_singleton, List.length_reverse]
  ring

/-- Digits read on top of a number come to the number moved up and what they denote. -/
theorem appendDigits?_eq_some_iff {base : ℕ} (h16 : base ≤ 16) {n m : ℕ} {cs : List Char} :
    appendDigits? base n cs = some m
      ↔ ∃ ds, List.Forall₂ (IsDigit base) cs ds
        ∧ m = n * base ^ ds.length + Nat.ofDigits base ds.reverse := by
  induction cs generalizing n with
  | nil =>
    rw [appendDigits?, Option.some.injEq]
    constructor
    · rintro rfl
      exact ⟨[], .nil, by simp⟩
    · rintro ⟨ds, hds, rfl⟩
      cases hds
      simp
  | cons c cs ih =>
    rw [appendDigits?, Option.bind_eq_some_iff]
    constructor
    · rintro ⟨d, hd, h⟩
      obtain ⟨ds, hds, rfl⟩ := ih.mp h
      exact ⟨d :: ds, .cons ((digitValue?_eq_some_iff h16).mp hd) hds,
        (ofDigits_reverse_cons base n d ds).symm⟩
    · rintro ⟨_, hall, rfl⟩
      obtain ⟨d, ds, hd, hds, rfl⟩ := List.forall₂_cons_left_iff.mp hall
      exact ⟨d, (digitValue?_eq_some_iff h16).mpr hd,
        ih.mpr ⟨ds, hds, ofDigits_reverse_cons base n d ds⟩⟩

theorem digits?_eq_some_iff {base : ℕ} (h16 : base ≤ 16) {cs : List Char} {n : ℕ} :
    digits? base cs = some n ↔ Denotes base cs n := by
  unfold digits? Denotes
  rw [Option.ite_none_left_eq_some, appendDigits?_eq_some_iff h16]
  simp

/-! ## Signs -/

/-- Digits, maybe behind a plus sign. -/
inductive Unsigned (base : ℕ) : List Char → ℕ → Prop where
  | digits {cs n} : Denotes base cs n → Unsigned base cs n
  | plus {cs n} : Denotes base cs n → Unsigned base ('+' :: cs) n

/-- Decimal digits, maybe behind a sign. -/
inductive Signed : List Char → ℤ → Prop where
  | unsigned {cs n} : Unsigned 10 cs n → Signed cs n
  | minus {cs n} : Denotes 10 cs n → Signed ('-' :: cs) (-(n : ℤ))

theorem IsDigit.not_sign {base d : ℕ} {c : Char} (h : IsDigit base c d) : c ≠ '+' ∧ c ≠ '-' := by
  obtain ⟨-, h⟩ := h
  rcases h with h | h
  all_goals
    have hmem := List.mem_of_getElem? h
    constructor
    all_goals
      rintro rfl
      exact absurd hmem (by decide)

theorem IsDigit.isDigit {c : Char} {d : ℕ} (h : IsDigit 10 c d) : c.isDigit = true := by
  obtain ⟨hd, hc⟩ := h
  interval_cases d <;> rcases hc with hc | hc <;> cases hc <;> rfl

/-- Digits do not begin with a sign. -/
theorem Denotes.not_sign {base n : ℕ} {c : Char} {cs : List Char} (h : Denotes base (c :: cs) n) :
    c ≠ '+' ∧ c ≠ '-' := by
  obtain ⟨-, _, hall, -⟩ := h
  obtain ⟨d, ds, hd, -, -⟩ := List.forall₂_cons_left_iff.mp hall
  exact hd.not_sign

theorem natural?_eq_some_iff {base : ℕ} (h16 : base ≤ 16) {cs : List Char} {n : ℕ} :
    natural? base cs = some n ↔ Unsigned base cs n := by
  unfold natural?
  split
  · rw [digits?_eq_some_iff h16]
    constructor
    · exact .plus
    · rintro (h | h)
      · exact absurd rfl h.not_sign.1
      · exact h
  · next hplus =>
    rw [digits?_eq_some_iff h16]
    constructor
    · exact .digits
    · rintro (h | h)
      · exact h
      · exact absurd rfl (hplus _)

/-- A sign put before digits that are read is put before the number that they denote. -/
theorem map_digits?_eq_some_iff {cs : List Char} {sign : ℤ → ℤ} {i : ℤ} :
    ((digits? 10 cs).bind (fun n => some (n : ℤ))).map sign = some i
      ↔ ∃ n : ℕ, Denotes 10 cs n ∧ sign n = i := by
  simp [Option.bind_eq_some_iff, digits?_eq_some_iff (show 10 ≤ 16 by decide)]

theorem integer?_eq_some_iff {cs : List Char} {i : ℤ} : integer? cs = some i ↔ Signed cs i := by
  unfold integer?
  split
  · apply map_digits?_eq_some_iff.trans
    constructor
    · rintro ⟨n, h, rfl⟩
      exact .minus h
    · rintro (h | h)
      · cases h with
        | digits h => exact absurd rfl h.not_sign.2
      · exact ⟨_, h, rfl⟩
  · apply map_digits?_eq_some_iff.trans
    constructor
    · rintro ⟨n, h, rfl⟩
      exact .unsigned (.plus h)
    · rintro (h | h)
      · rcases h with h | h
        · exact absurd rfl h.not_sign.1
        · exact ⟨_, h, rfl⟩
  · next hminus hplus =>
    apply map_digits?_eq_some_iff.trans
    constructor
    · rintro ⟨n, h, rfl⟩
      exact .unsigned (.digits h)
    · rintro (h | h)
      · rcases h with h | h
        · exact ⟨_, h, rfl⟩
        · exact absurd rfl (hplus _)
      · exact absurd rfl (hminus _)

end ValueStream.Text
