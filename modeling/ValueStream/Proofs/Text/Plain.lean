import ValueStream.Proofs.Text.Numeral
import ValueStream.Proofs.Text.Parts

/-!
Text that nothing around it can be taken for.

The characters from the minus sign to the letter z are plain: no blank is among
them, nor the comma, the number sign or a line break. So plain fields that are
joined at commas are split there again (`split_join`), and blanks around them
are trimmed away without touching them (`trim_append`).
-/

namespace ValueStream.Text

/-- A character from the minus sign to the letter z. -/
def IsPlain (c : Char) : Prop := 45 ≤ c.toNat ∧ c.toNat ≤ 122

instance : DecidablePred IsPlain := fun c =>
  inferInstanceAs (Decidable (45 ≤ c.toNat ∧ c.toNat ≤ 122))

theorem isPlain_of_all {cs : List Char} (h : cs.all (fun c => decide (IsPlain c)) = true) {c : Char}
    (hc : c ∈ cs) : IsPlain c := of_decide_eq_true (List.all_eq_true.mp h c hc)

theorem IsPlain.not_blank {c : Char} (h : IsPlain c) : isBlank c = false := by
  obtain ⟨hlo, hhi⟩ := h
  simp only [isBlank, blankRanges, List.any_cons, List.any_nil, Bool.or_false, Bool.or_eq_false_iff,
    Bool.and_eq_false_iff, decide_eq_false_iff_not]
  omega

theorem IsPlain.ne_of_lt {c d : Char} (h : IsPlain c) (hd : d.toNat < 45) : c ≠ d := by
  rintro rfl
  exact absurd h.1 (Nat.not_le.mpr hd)

/-! ## Plain numerals -/

theorem isPlain_of_isDigit {c : Char} (h : c.isDigit = true) : IsPlain c := by
  obtain ⟨hlo, hhi⟩ := Char.isDigit_iff_toNat.mp h
  have hzero : 45 ≤ '0'.toNat := by decide
  have hnine : '9'.toNat ≤ 122 := by decide
  exact ⟨hzero.trans hlo, hhi.trans hnine⟩

theorem isPlain_toDigits {base n : ℕ} (hbase : 1 < base) (h16 : base ≤ 16) {c : Char}
    (h : c ∈ Nat.toDigits base n) : IsPlain c := by
  obtain ⟨d, hd, rfl⟩ := exists_digitChar hbase h
  have hlt : d < 16 := Nat.lt_of_lt_of_le hd h16
  interval_cases d <;> decide

theorem isPlain_natural {n : ℕ} {c : Char} (h : c ∈ natural n) : IsPlain c :=
  isPlain_of_isDigit (isDigit_natural h)

theorem isPlain_integer {i : ℤ} {c : Char} (h : c ∈ integer i) : IsPlain c := by
  rcases mem_integer h with h | rfl
  · exact isPlain_of_isDigit h
  · decide

/-- A number can be told from what follows it, if that begins with no digit. -/
theorem toDigits_append_inj {c : Char} (hc : c.isDigit = false) {m n : ℕ} {as bs : List Char}
    (h : Nat.toDigits 10 m ++ c :: as = Nat.toDigits 10 n ++ c :: bs) : m = n ∧ as = bs := by
  obtain ⟨hdigits, hrest⟩ := append_separator_inj (notMem_toDigits hc m) (notMem_toDigits hc n) h
  exact ⟨toDigits_injective hdigits, hrest⟩

theorem integer_ne_nil (i : ℤ) : integer i ≠ [] := by
  unfold integer
  split
  · exact List.cons_ne_nil _ _
  · exact natural_ne_nil _

/-! ## Trimming -/

theorem trim_of_not_blank {cs : List Char} (h : ∀ c ∈ cs, isBlank c = false) : trim cs = cs := by
  have htrim : trim (cs ++ []) = cs :=
    trim_append h (fun b hb => absurd hb List.not_mem_nil)
  rwa [List.append_nil] at htrim

theorem trim_of_plain {cs : List Char} (h : ∀ c ∈ cs, IsPlain c) : trim cs = cs :=
  trim_of_not_blank (fun c hc => (h c hc).not_blank)

/-! ## Fields -/

/-- What stands in joined fields is in a field, or it is the separator. -/
theorem mem_join {separator c : Char} {fields : List (List Char)} (h : c ∈ join separator fields) :
    c = separator ∨ ∃ field ∈ fields, c ∈ field := by
  induction fields with
  | nil => exact absurd h List.not_mem_nil
  | cons field fields ih =>
    cases fields with
    | nil => exact Or.inr ⟨field, List.mem_cons_self, h⟩
    | cons next fields =>
      rw [join, List.mem_append, List.mem_cons] at h
      · rcases h with h | h | h
        · exact Or.inr ⟨field, List.mem_cons_self, h⟩
        · exact Or.inl h
        · rcases ih h with h | ⟨g, hg, hc⟩
          · exact Or.inl h
          · exact Or.inr ⟨g, List.mem_cons_of_mem _ hg, hc⟩
      · exact List.cons_ne_nil _ _

/-- Joined fields begin as the first of them does. -/
theorem head?_join {separator : Char} {field : List Char} (hne : field ≠ [])
    (fields : List (List Char)) : (join separator (field :: fields)).head? = field.head? := by
  cases fields with
  | nil => rfl
  | cons next fields =>
    obtain ⟨c, cs, rfl⟩ := List.exists_cons_of_ne_nil hne
    rw [join]
    · rfl
    · exact List.cons_ne_nil _ _

end ValueStream.Text
