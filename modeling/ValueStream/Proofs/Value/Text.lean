import ValueStream.Proofs.Decimal.Layout
import ValueStream.Proofs.Text.Plain
import ValueStream.Value.Text

/-!
Values are read back from their text.

A floating pattern has one of three texts: its digits in base sixteen if it is
not a number, the name of infinity, or a sign and the shortest numeral of its
magnitude. Each is taken by the reader for what it is, so every pattern comes
back (`floating?_floatingText`), and with it every value of every kind
(`ofChars_chars`). All of the text is plain (`isPlain_chars`).
-/

namespace ValueStream.Value

open Binary Decimal

variable {f : Format}

/-! ## Floating patterns -/

/-- A pattern is its sign and its magnitude. -/
theorem signed_magnitude {p : ℕ} (hp : p < 2 * f.signWeight) :
    f.signed (f.isNegative p) (f.magnitude p) = p := by
  unfold Format.signed Format.isNegative Format.magnitude
  by_cases h : f.signWeight ≤ p
  · rw [decide_eq_true h, if_pos rfl, Nat.mod_eq_sub_mod h, Nat.mod_eq_of_lt (by omega)]
    omega
  · rw [decide_eq_false h, if_neg Bool.false_ne_true, Nat.mod_eq_of_lt (by omega)]

/-- The text of a finite magnitude, without a sign. -/
def magnitudeText (l : Layout) (f : Format) (m : ℕ) : List Char :=
  if m = 0 then ['0', '.', '0'] else l.numeral (shortest f l.tie m)

theorem finite_eq (l : Layout) (f : Format) (p : ℕ) :
    l.finite f p
      = if f.isNegative p then '-' :: magnitudeText l f (f.magnitude p)
        else magnitudeText l f (f.magnitude p) := rfl

/-- The text of a magnitude is read as the magnitude. -/
theorem magnitude?_magnitudeText (hf : f.Proper) (l : Layout) {m : ℕ} (hm : m < f.infinity) :
    magnitude? f (magnitudeText l f m) = some m := by
  unfold magnitudeText
  split
  · next hzero =>
    rw [hzero]
    rfl
  · obtain ⟨d, hread, hworth⟩ := Layout.ofText?_numeral l (shortest f l.tie m)
    have hd : d.toMagnitude f = m := by
      rw [toMagnitude_eq hf, hworth, ← toMagnitude_eq hf, toMagnitude_shortest hf l.tie hm]
    rw [magnitude?, hread]
    dsimp only
    rw [hd]

theorem mem_magnitudeText {l : Layout} {m : ℕ} {c : Char} (h : c ∈ magnitudeText l f m) :
    c.isDigit = true ∨ c = '.' ∨ c = 'e' ∨ c = '-' ∨ (l.plus = true ∧ c = '+') := by
  unfold magnitudeText at h
  split at h
  · simp only [List.mem_cons, List.not_mem_nil, or_false] at h
    rcases h with rfl | rfl | rfl
    · exact Or.inl rfl
    · exact Or.inr (Or.inl rfl)
    · exact Or.inl rfl
  · exact Layout.mem_numeral h

theorem exists_magnitudeText_eq (l : Layout) (f : Format) (m : ℕ) :
    ∃ c cs, magnitudeText l f m = c :: cs ∧ c.isDigit = true := by
  unfold magnitudeText
  split
  · exact ⟨'0', _, rfl, rfl⟩
  · exact Layout.exists_numeral_eq l _

/-- Text that begins with a digit and has no `x` is a magnitude. -/
theorem floating?_of_unsigned {c : Char} {cs : List Char} (hc : c.isDigit = true)
    (hx : 'x' ∉ c :: cs) : floating? f (c :: cs) = magnitude? f (c :: cs) := by
  unfold floating?
  split
  · next tail heq =>
    rw [heq] at hx
    exact absurd (List.mem_cons_of_mem _ List.mem_cons_self) hx
  · next tail heq =>
    rw [(List.cons.inj heq).1] at hc
    exact absurd hc (by decide)
  · next tail heq =>
    rw [(List.cons.inj heq).1] at hc
    exact absurd hc (by decide)
  · rfl

/-- A finite pattern is read back from its sign and its digits, however these are laid out. -/
theorem floating?_finite (hf : f.Proper) (l : Layout) {p : ℕ} (hp : p < 2 * f.signWeight)
    (hfinite : f.isFinite p = true) : floating? f (l.finite f p) = some p := by
  have hsigned := signed_magnitude hp
  have hread := magnitude?_magnitudeText hf l (of_decide_eq_true hfinite)
  rw [finite_eq]
  split
  · next hneg =>
    rw [hneg] at hsigned
    rw [floating?, hread, Option.map_some, hsigned]
  · next hpos =>
    rw [Bool.not_eq_true] at hpos
    rw [hpos] at hsigned
    obtain ⟨c, cs, htext, hc⟩ := exists_magnitudeText_eq l f (f.magnitude p)
    have hx : 'x' ∉ magnitudeText l f (f.magnitude p) := by
      intro hmem
      rcases mem_magnitudeText hmem with h | h | h | h | ⟨-, h⟩ <;> exact absurd h (by decide)
    rw [htext] at hx hread ⊢
    rw [floating?_of_unsigned hc hx, hread]
    exact congrArg some hsigned

/-- A pattern is read back from its text. -/
theorem floating?_floatingText (hf : f.Proper) {p : ℕ} (hp : p < 2 * f.signWeight) :
    floating? f (floatingText f p) = some p := by
  have hsigned := signed_magnitude hp
  unfold floatingText
  split
  · -- not a number: the pattern itself in base sixteen
    rw [floating?, Text.padLeft, Text.natural?_zeros_append (by decide) (by decide), Option.filter,
      if_pos (decide_eq_true hp)]
  · next hnumber =>
    split
    · next hinfinite =>
      have hinfinity : f.magnitude p = f.infinity := beq_iff_eq.mp hinfinite
      have hname : magnitude? f ['i', 'n', 'f'] = some f.infinity := rfl
      rw [hinfinity] at hsigned
      split
      · next hneg =>
        rw [hneg] at hsigned
        rw [floating?, hname, Option.map_some, hsigned]
      · next hpos =>
        rw [Bool.not_eq_true] at hpos
        rw [hpos] at hsigned
        show magnitude? f ['i', 'n', 'f'] = some p
        rw [hname]
        exact congrArg some hsigned
    · next hinfinite =>
      apply floating?_finite hf textLayout hp
      simp only [Format.isNaN, decide_eq_true_eq] at hnumber
      simp only [Format.isInfinite, beq_iff_eq] at hinfinite
      exact decide_eq_true (by omega)

theorem isPlain_floatingText {p : ℕ} {c : Char} (h : c ∈ floatingText f p) : Text.IsPlain c := by
  unfold floatingText at h
  split at h
  · rcases List.mem_cons.mp h with rfl | h
    · decide
    · rcases List.mem_cons.mp h with rfl | h
      · decide
      · rcases List.mem_append.mp h with h | h
        · rw [List.eq_of_mem_replicate h]
          decide
        · exact Text.isPlain_toDigits (by decide) (by decide) h
  · split at h
    · split at h
      · exact Text.isPlain_of_all (by decide) h
      · exact Text.isPlain_of_all (by decide) h
    · have htext : ∀ {c : Char}, c ∈ magnitudeText textLayout f (f.magnitude p) → Text.IsPlain c := by
        intro c hc
        rcases mem_magnitudeText hc with hc | rfl | rfl | rfl | ⟨hplus, -⟩
        · exact Text.isPlain_of_isDigit hc
        · decide
        · decide
        · decide
        · exact absurd hplus (by decide)
      rw [finite_eq] at h
      split at h
      · rcases List.mem_cons.mp h with rfl | h
        · decide
        · exact htext h
      · exact htext h

/-- There is no blank in a sign and digits, however these are laid out. -/
theorem isBlank_finite {l : Layout} {p : ℕ} {c : Char} (h : c ∈ l.finite f p) :
    Text.isBlank c = false := by
  have htext : ∀ {c : Char}, c ∈ magnitudeText l f (f.magnitude p) → Text.isBlank c = false := by
    intro c hc
    rcases mem_magnitudeText hc with hc | rfl | rfl | rfl | ⟨-, rfl⟩
    · exact (Text.isPlain_of_isDigit hc).not_blank
    all_goals decide
  rw [finite_eq] at h
  split at h
  · rcases List.mem_cons.mp h with rfl | h
    · decide
    · exact htext h
  · exact htext h

theorem floatingText_ne_nil (f : Format) (p : ℕ) : floatingText f p ≠ [] := by
  unfold floatingText
  split
  · exact List.cons_ne_nil _ _
  · split
    · split <;> exact List.cons_ne_nil _ _
    · rw [finite_eq]
      split
      · exact List.cons_ne_nil _ _
      · obtain ⟨c, cs, htext, -⟩ := exists_magnitudeText_eq textLayout f (f.magnitude p)
        rw [htext]
        exact List.cons_ne_nil _ _

/-! ## Values -/

/-- A whole number within bounds is read back from its text. -/
theorem within?_integer {lo hi i : ℤ} (hlo : lo ≤ i) (hhi : i ≤ hi) :
    within? lo hi (Text.integer i) = some i := by
  rw [within?, Text.integer?_integer, Option.filter, if_pos (decide_eq_true ⟨hlo, hhi⟩)]

/-- What is read as a value of a kind has the kind. -/
theorem kind_of_ofTrimmed? {kind : Kind} {cs : List Char} {v : Value}
    (h : ofTrimmed? kind cs = some v) : v.kind = kind := by
  cases kind with
  | bool =>
    unfold ofTrimmed? at h
    dsimp only at h
    split at h
    · cases h
      rfl
    · split at h
      · cases h
        rfl
      · cases h
  | _ =>
    obtain ⟨a, -, rfl⟩ := Option.map_eq_some_iff.mp h
    rfl

theorem ofTrimmed?_chars (v : Value) : ofTrimmed? v.kind v.chars = some v := by
  cases v with
  | int v =>
    rw [kind, chars, ofTrimmed?, Text.natural?_natural, Option.filter,
      if_pos (decide_eq_true v.toNat_lt), Option.map_some, UInt32.ofNat_toNat]
  | sint v =>
    have hlo := v.le_toInt
    have hhi := v.toInt_lt
    rw [kind, chars, ofTrimmed?, within?_integer (by omega) (by omega), Option.map_some,
      Int32.ofInt_toInt]
  | float v =>
    rw [kind, chars, ofTrimmed?, floating?_floatingText Format.single_proper v.bits.toNat_lt,
      Option.map_some, UInt32.ofNat_toNat]
  | double v =>
    rw [kind, chars, ofTrimmed?, floating?_floatingText Format.double_proper v.bits.toNat_lt,
      Option.map_some, UInt64.ofNat_toNat]
  | long v =>
    have hlo := v.le_toInt
    have hhi := v.toInt_lt
    rw [kind, chars, ofTrimmed?, within?_integer (by omega) (by omega), Option.map_some,
      Int64.ofInt_toInt]
  | bool v => cases v <;> rfl
  | byte v =>
    have hlo := v.le_toInt
    have hhi := v.toInt_lt
    rw [kind, chars, ofTrimmed?, within?_integer (by omega) (by omega), Option.map_some,
      Int8.ofInt_toInt]

theorem isPlain_chars {v : Value} {c : Char} (h : c ∈ v.chars) : Text.IsPlain c := by
  cases v with
  | int v => exact Text.isPlain_natural h
  | sint v => exact Text.isPlain_integer h
  | float v => exact isPlain_floatingText h
  | double v => exact isPlain_floatingText h
  | long v => exact Text.isPlain_integer h
  | bool v => cases v <;> exact Text.isPlain_of_all (by decide) h
  | byte v => exact Text.isPlain_integer h

theorem chars_ne_nil (v : Value) : v.chars ≠ [] := by
  cases v with
  | int v => exact Text.natural_ne_nil _
  | sint v => exact Text.integer_ne_nil _
  | float v => exact floatingText_ne_nil _ _
  | double v => exact floatingText_ne_nil _ _
  | long v => exact Text.integer_ne_nil _
  | bool v => cases v <;> exact List.cons_ne_nil _ _
  | byte v => exact Text.integer_ne_nil _

/-- Every value is read back from its text. -/
theorem ofChars_chars (v : Value) : ofChars v.kind v.chars = .ok v := by
  rw [ofChars, Text.trim_of_plain (fun c hc => isPlain_chars hc), ofTrimmed?_chars]

end ValueStream.Value
