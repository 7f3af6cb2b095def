import Mathlib.Data.List.DropRight
import ValueStream.Text.Fields

/-!
What is left of a text by trimming, and what it is cut into by splitting.

Trimming leaves the part of a text that has only blanks around it and neither
begins nor ends with one (`isTrimmed_iff`). Splitting gives the fields that make
the text when they are joined, none of which has the separator in it
(`isSplit_iff`). There is one such part, and one such list of fields, for every text.
-/

namespace ValueStream.Text

/-! ## Trimming -/

/-- What is left of a text without the blanks around it. -/
structure IsTrimmed (trimmed cs : List Char) : Prop where
  around : ∃ before after, cs = before ++ trimmed ++ after
    ∧ (∀ c ∈ before, isBlank c = true) ∧ ∀ c ∈ after, isBlank c = true
  head : ∀ c ∈ trimmed.head?, isBlank c = false
  last : ∀ c ∈ trimmed.getLast?, isBlank c = false

theorem trim_eq_rdropWhile (cs : List Char) :
    trim cs = (cs.dropWhile isBlank).rdropWhile isBlank := rfl

theorem isTrimmed_trim (cs : List Char) : IsTrimmed (trim cs) cs where
  around := by
    refine ⟨cs.takeWhile isBlank, (cs.dropWhile isBlank).rtakeWhile isBlank, ?_,
      fun c hc => List.mem_takeWhile_imp hc, fun c hc => List.mem_rtakeWhile_imp hc⟩
    rw [trim_eq_rdropWhile, List.append_assoc, List.rdropWhile_append_rtakeWhile,
      List.takeWhile_append_dropWhile]
  head := by
    intro c hc
    obtain ⟨after, hprefix⟩ := List.rdropWhile_prefix isBlank (cs.dropWhile isBlank)
    obtain ⟨rest, hrest⟩ := List.head?_eq_some_iff.mp hc
    have hfront : (cs.dropWhile isBlank).head? = some c := by
      rw [← hprefix, ← trim_eq_rdropWhile, hrest]
      rfl
    have hblank := List.head?_dropWhile_not isBlank cs
    rw [hfront] at hblank
    simpa using hblank
  last := by
    intro c hc
    obtain ⟨hne, rfl⟩ := List.mem_getLast?_eq_getLast hc
    exact Bool.eq_false_iff.mpr (List.rdropWhile_last_not isBlank _ hne)

/-- The text between the blanks is what trimming gives. -/
theorem isTrimmed_iff {t cs : List Char} : IsTrimmed t cs ↔ trim cs = t := by
  constructor
  · rintro ⟨⟨before, after, rfl, hbefore, hafter⟩, hhead, hlast⟩
    have hfront : (before ++ t ++ after).dropWhile isBlank = (t ++ after).dropWhile isBlank := by
      rw [List.append_assoc, List.dropWhile_append_of_pos hbefore]
    cases t with
    | nil =>
      rw [trim_eq_rdropWhile, hfront, List.nil_append, List.dropWhile_eq_nil_iff.mpr hafter]
      rfl
    | cons c cs =>
      have hc : ¬isBlank c = true := Bool.eq_false_iff.mp (hhead c rfl)
      have hself : (c :: cs).rdropWhile isBlank = c :: cs := by
        rw [List.rdropWhile_eq_self_iff]
        intro hne
        exact Bool.eq_false_iff.mp (hlast _ (List.getLast?_eq_some_getLast hne))
      rw [trim_eq_rdropWhile, hfront, List.cons_append, List.dropWhile_cons_of_neg hc,
        ← List.cons_append, List.rdropWhile, List.reverse_append, List.dropWhile_append_of_pos]
      · exact hself
      · exact fun b hb => hafter b (List.mem_reverse.mp hb)
  · rintro rfl
    exact isTrimmed_trim cs

/-- Blanks behind a text change nothing about what is left of it. -/
theorem trim_append_blanks (cs : List Char) {bs : List Char} (hbs : ∀ b ∈ bs, isBlank b = true) :
    trim (cs ++ bs) = trim cs := by
  obtain ⟨⟨before, after, hcs, hbefore, hafter⟩, hhead, hlast⟩ := isTrimmed_trim cs
  rw [← isTrimmed_iff]
  refine ⟨⟨before, after ++ bs, ?_, hbefore, ?_⟩, hhead, hlast⟩
  · rw [← List.append_assoc, ← hcs]
  · intro c hc
    rcases List.mem_append.mp hc with hc | hc
    · exact hafter c hc
    · exact hbs c hc

/-- Text without blanks is what is left when blanks behind it are trimmed away. -/
theorem trim_append {cs bs : List Char} (hcs : ∀ c ∈ cs, isBlank c = false)
    (hbs : ∀ b ∈ bs, isBlank b = true) : trim (cs ++ bs) = cs := by
  rw [trim_append_blanks cs hbs, ← isTrimmed_iff]
  constructor
  · exact ⟨[], [], (List.append_nil cs).symm, List.forall_mem_nil _, List.forall_mem_nil _⟩
  · exact fun c hc => hcs c (List.mem_of_mem_head? hc)
  · exact fun c hc => hcs c (List.mem_of_getLast? hc)

/-! ## Fields -/

theorem split_of_not_mem {separator : Char} {cs : List Char} (h : separator ∉ cs) :
    split separator cs = [cs] := by
  induction cs with
  | nil => rfl
  | cons c cs ih =>
    have hc : c ≠ separator := (List.ne_of_not_mem_cons h).symm
    rw [split, if_neg hc, ih (List.not_mem_of_not_mem_cons h)]

theorem split_append_separator {separator : Char} {xs : List Char} (h : separator ∉ xs)
    (ys : List Char) :
    split separator (xs ++ separator :: ys) = xs :: split separator ys := by
  induction xs with
  | nil => rw [List.nil_append, split, if_pos rfl]
  | cons x xs ih =>
    have hx : x ≠ separator := (List.ne_of_not_mem_cons h).symm
    rw [List.cons_append, split, if_neg hx, ih (List.not_mem_of_not_mem_cons h)]

/-- Texts that go on behind the first separator are the same up to it and behind it. -/
theorem append_separator_inj {separator : Char} {xs ys as bs : List Char} (hx : separator ∉ xs)
    (hy : separator ∉ ys) (h : xs ++ separator :: as = ys ++ separator :: bs) :
    xs = ys ∧ as = bs := by
  have hsplit := congrArg (split separator) h
  rw [split_append_separator hx, split_append_separator hy] at hsplit
  obtain rfl := (List.cons.inj hsplit).1
  exact ⟨rfl, (List.cons.inj (List.append_cancel_left h)).2⟩

/-- Fields are split where they were joined. -/
theorem split_join {separator : Char} {fields : List (List Char)} (hne : fields ≠ [])
    (h : ∀ field ∈ fields, separator ∉ field) :
    split separator (join separator fields) = fields := by
  induction fields with
  | nil => exact absurd rfl hne
  | cons field fields ih =>
    obtain ⟨hfield, hfields⟩ := List.forall_mem_cons.mp h
    cases fields with
    | nil => exact split_of_not_mem hfield
    | cons next fields =>
      rw [join, split_append_separator hfield, ih (List.cons_ne_nil _ _) hfields]
      exact List.cons_ne_nil _ _

theorem separator_notMem_of_mem_split {separator : Char} {cs field : List Char}
    (h : field ∈ split separator cs) : separator ∉ field := by
  induction cs generalizing field with
  | nil =>
    rw [split, List.mem_singleton] at h
    rw [h]
    exact List.not_mem_nil
  | cons c cs ih =>
    rw [split] at h
    split at h
    · rcases List.mem_cons.mp h with rfl | h
      · exact List.not_mem_nil
      · exact ih h
    · next hc =>
      cases hsplit : split separator cs with
      | nil => exact absurd hsplit (split_ne_nil separator cs)
      | cons first fields =>
        rw [hsplit] at h ih
        rcases List.mem_cons.mp h with rfl | h
        · intro hmem
          rcases List.mem_cons.mp hmem with heq | hmem
          · exact hc heq.symm
          · exact ih List.mem_cons_self hmem
        · exact ih (List.mem_cons_of_mem _ h)

/-- The fields between the separators of a text: one more than there are separators. -/
structure IsSplit (separator : Char) (cs : List Char) (fields : List (List Char)) : Prop where
  nonempty : fields ≠ []
  joined : join separator fields = cs
  clean : ∀ field ∈ fields, separator ∉ field

theorem isSplit_iff {separator : Char} {cs : List Char} {fields : List (List Char)} :
    IsSplit separator cs fields ↔ split separator cs = fields := by
  constructor
  · rintro ⟨hne, rfl, hclean⟩
    exact split_join hne hclean
  · rintro rfl
    exact ⟨split_ne_nil separator cs, join_split separator cs,
      fun field h => separator_notMem_of_mem_split h⟩

end ValueStream.Text
