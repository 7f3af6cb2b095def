import Mathlib.Data.Nat.Digits.Defs
import Mathlib.Tactic.IntervalCases
import ValueStream.Text.Numeral

/-!
Whole numbers are read as they are printed.

Digits are read from the left, so reading two parts is reading the second on
top of what the first came to (`appendDigits?_append`). The digits of a number
come to the number, zeros before them change nothing (`digits?_zeros_append`),
and zeros behind them multiply (`appendDigits?_zeros`).
-/

namespace ValueStream.Text

theorem digitValue?_digitChar {base d : ℕ} (hd : d < base) (hbase : base ≤ 16) :
    digitValue? base (Nat.digitChar d) = some d := by
  have h16 : d < 16 := Nat.lt_of_lt_of_le hd hbase
  interval_cases d <;> exact if_pos hd

theorem appendDigits?_append (base n : ℕ) (xs ys : List Char) :
    appendDigits? base n (xs ++ ys)
      = (appendDigits? base n xs).bind (fun m => appendDigits? base m ys) := by
  induction xs generalizing n with
  | nil => rfl
  | cons x xs ih =>
    rw [List.cons_append, appendDigits?, appendDigits?, Option.bind_assoc]
    congr 1
    funext d
    exact ih _

/-- Zeros behind a number multiply it by the base. -/
theorem appendDigits?_zeros {base : ℕ} (hbase : 1 < base) (h16 : base ≤ 16) (n k : ℕ) :
    appendDigits? base n (List.replicate k '0') = some (n * base ^ k) := by
  induction k generalizing n with
  | zero => rw [Nat.pow_zero, Nat.mul_one]; rfl
  | succ k ih =>
    have hzero : digitValue? base '0' = some 0 :=
      digitValue?_digitChar (Nat.zero_lt_of_lt hbase) h16
    rw [List.replicate_succ, appendDigits?, hzero, Option.bind_some, ih, Nat.add_zero,
      Nat.pow_succ', Nat.mul_assoc]

theorem appendDigits?_toDigits {base : ℕ} (hbase : 1 < base) (h16 : base ≤ 16) (n : ℕ) :
    appendDigits? base 0 (Nat.toDigits base n) = some n := by
  induction n using Nat.strong_induction_on with
  | _ n ih =>
    rw [Nat.toDigits_eq_if hbase]
    split
    · next hlt =>
      rw [appendDigits?, digitValue?_digitChar hlt h16, Option.bind_some, appendDigits?,
        Nat.zero_mul, Nat.zero_add]
    · next hle =>
      -- all but the last digit are those of the quotient
      have hquotient : n / base < n := Nat.div_lt_self (by omega) hbase
      rw [appendDigits?_append, ih _ hquotient, Option.bind_some, appendDigits?,
        digitValue?_digitChar (Nat.mod_lt n (by omega)) h16, Option.bind_some, appendDigits?,
        Nat.div_add_mod']

/-- The digits of a number come to the number, whatever zeros stand before them. -/
theorem digits?_zeros_append {base : ℕ} (hbase : 1 < base) (h16 : base ≤ 16) (n k : ℕ) :
    digits? base (List.replicate k '0' ++ Nat.toDigits base n) = some n := by
  have hnonempty : (List.replicate k '0' ++ Nat.toDigits base n).isEmpty = false :=
    List.isEmpty_eq_false_iff.mpr (List.append_ne_nil_of_right_ne_nil _ Nat.toDigits_ne_nil)
  rw [digits?, hnonempty, if_neg Bool.false_ne_true, appendDigits?_append,
    appendDigits?_zeros hbase h16, Nat.zero_mul, Option.bind_some,
    appendDigits?_toDigits hbase h16]

theorem digits?_natural (n : ℕ) : digits? 10 (natural n) = some n :=
  digits?_zeros_append (by decide) (by decide) n 0

/-- Zeros behind the digits of a number multiply it. -/
theorem digits?_natural_zeros (n k : ℕ) :
    digits? 10 (natural n ++ List.replicate k '0') = some (n * 10 ^ k) := by
  have hnonempty : (natural n ++ List.replicate k '0').isEmpty = false :=
    List.isEmpty_eq_false_iff.mpr (List.append_ne_nil_of_left_ne_nil Nat.toDigits_ne_nil _)
  rw [digits?, hnonempty, if_neg Bool.false_ne_true, appendDigits?_append, natural,
    appendDigits?_toDigits (by decide) (by decide), Option.bind_some,
    appendDigits?_zeros (by decide) (by decide)]

/-! ## Characters -/

/-- The digits of a number are digits of the base. -/
theorem exists_digitChar {base n : ℕ} (hbase : 1 < base) {c : Char} (h : c ∈ Nat.toDigits base n) :
    ∃ d < base, c = Nat.digitChar d := by
  induction n using Nat.strong_induction_on with
  | _ n ih =>
    rw [Nat.toDigits_eq_if hbase] at h
    split at h
    · next hlt => exact ⟨n, hlt, List.mem_singleton.mp h⟩
    · next hle =>
      rcases List.mem_append.mp h with h | h
      · exact ih (n / base) (Nat.div_lt_self (by omega) hbase) h
      · exact ⟨n % base, Nat.mod_lt n (by omega), List.mem_singleton.mp h⟩

theorem natural_ne_nil (n : ℕ) : natural n ≠ [] := Nat.toDigits_ne_nil

theorem isDigit_natural {n : ℕ} {c : Char} (h : c ∈ natural n) : c.isDigit = true :=
  Nat.isDigit_of_mem_toDigits (by decide) (by decide) h

theorem notMem_toDigits {c : Char} (h : c.isDigit = false) (n : ℕ) : c ∉ Nat.toDigits 10 n := by
  intro hc
  exact absurd ((isDigit_natural hc).symm.trans h) (by decide)

theorem mem_integer {i : ℤ} {c : Char} (h : c ∈ integer i) : c.isDigit = true ∨ c = '-' := by
  unfold integer at h
  split at h
  · rcases List.mem_cons.mp h with rfl | h
    · exact Or.inr rfl
    · exact Or.inl (isDigit_natural h)
  · exact Or.inl (isDigit_natural h)

/-- What begins with a digit begins with no sign. -/
theorem natural?_zeros_append {base : ℕ} (hbase : 1 < base) (h16 : base ≤ 16) (n k : ℕ) :
    natural? base (List.replicate k '0' ++ Nat.toDigits base n) = some n := by
  have hplus : '+' ∉ List.replicate k '0' ++ Nat.toDigits base n := by
    intro hmem
    rcases List.mem_append.mp hmem with hmem | hmem
    · exact absurd (List.eq_of_mem_replicate hmem) (by decide)
    · obtain ⟨d, hd, hchar⟩ := exists_digitChar hbase hmem
      have hlt : d < 16 := Nat.lt_of_lt_of_le hd h16
      interval_cases d <;> exact absurd hchar (by decide)
  unfold natural?
  split
  · next cs hsign => exact absurd (hsign ▸ List.mem_cons_self) hplus
  · exact digits?_zeros_append hbase h16 n k

theorem natural?_natural (n : ℕ) : natural? 10 (natural n) = some n :=
  natural?_zeros_append (by decide) (by decide) n 0

/-- Digits are those of one number only, since they are read back. -/
theorem toDigits_injective : Function.Injective (Nat.toDigits 10) := by
  intro m n h
  have hread := congrArg (natural? 10) h
  exact Option.some.inj ((natural?_natural m).symm.trans (hread.trans (natural?_natural n)))

theorem integer?_natural (n : ℕ) : integer? (natural n) = some (n : ℤ) := by
  unfold integer?
  split
  · next cs hsign =>
    have hminus : ('-' : Char).isDigit = true := isDigit_natural (hsign ▸ List.mem_cons_self)
    exact absurd hminus (by decide)
  · next cs hsign =>
    have hplus : ('+' : Char).isDigit = true := isDigit_natural (hsign ▸ List.mem_cons_self)
    exact absurd hplus (by decide)
  · rw [digits?_natural]
    rfl

theorem integer?_integer (i : ℤ) : integer? (integer i) = some i := by
  unfold integer
  split
  · next hneg =>
    rw [integer?, digits?_natural]
    show some (-(i.natAbs : ℤ)) = some i
    congr 1
    omega
  · next hpos =>
    rw [integer?_natural]
    congr 1
    omega

end ValueStream.Text
