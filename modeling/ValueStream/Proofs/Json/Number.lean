import ValueStream.Json.Number
import ValueStream.Proofs.Decimal.Layout
import ValueStream.Proofs.Json.Reader
import ValueStream.Proofs.Text.Denotes

/-!
How JSON numbers are written, and what they are read as.

A number is written as digits, maybe with a minus sign before them, a point
among them and an exponent behind them (`Spells`). What is written so is read up
to the comma, bracket or brace behind it (`readDocument_number`). A number with a
point or an exponent amounts to its digits as one number, moved by its places
and its exponent (`Number.Amounts`), and this is what it is worth
(`worth?_of_amounts`); one without them is worth that whole number
(`worth?_of_integer`).
-/

namespace ValueStream.Json

open Text

/-! ## Digits -/

/-- The number that digits behind others come to. -/
def appended (n : ℕ) (ds : List ℕ) : ℕ := ds.foldl (fun n d => n * 10 + d) n

theorem appended_cons (n d : ℕ) (ds : List ℕ) :
    appended n (d :: ds) = appended (n * 10 + d) ds := rfl

theorem appended_eq (n : ℕ) (ds : List ℕ) :
    appended n ds = n * 10 ^ ds.length + Nat.ofDigits 10 ds.reverse := by
  induction ds generalizing n with
  | nil => simp [appended]
  | cons d ds ih => rw [appended_cons, ih, List.length_cons, ofDigits_reverse_cons]

theorem appended_zero (ds : List ℕ) : appended 0 ds = Nat.ofDigits 10 ds.reverse := by
  rw [appended_eq, Nat.zero_mul, Nat.zero_add]

theorem le_appended (n : ℕ) (ds : List ℕ) : n ≤ appended n ds := by
  induction ds generalizing n with
  | nil => exact le_rfl
  | cons d ds ih => exact (by omega : n ≤ n * 10 + d).trans (ih _)

theorem ofDigits_eq (ds : List ℕ) : ofDigits ds = Nat.ofDigits 10 ds.reverse := by
  rw [← appended_zero]
  simp only [ofDigits, appended, mul_comm]

/-- Digits are all gathered if they fit 64 bits. -/
theorem gather_eq {n : ℕ} {ds : List ℕ} (h : appended n ds < UInt64.size) :
    gather n ds = (appended n ds, 0) := by
  induction ds generalizing n with
  | nil => rfl
  | cons d ds ih =>
    rw [appended_cons] at h
    rw [gather, if_pos ((le_appended _ ds).trans_lt h), ih h, appended_cons]

theorem exists_digits {cs : List Char} {n m : ℕ} (h : appendDigits? 10 n cs = some m) :
    ∃ ds, List.Forall₂ (IsDigit 10) cs ds ∧ appended n ds = m := by
  obtain ⟨ds, hds, rfl⟩ := (appendDigits?_eq_some_iff (by decide)).mp h
  exact ⟨ds, hds, appended_eq n ds⟩

/-! ## Numbers as they are written -/

/-- The digits before the point: at least one, and no zero in front of others. -/
structure IsWhole (cs : List Char) : Prop where
  nonempty : cs ≠ []
  lead : cs.head? = some '0' → cs.length = 1

/-- A point and digits, or nothing. -/
inductive SpellsFraction : List ℕ → List Char → Prop where
  | none : SpellsFraction [] []
  | point {cs : List Char} {ds : List ℕ} : cs ≠ [] → List.Forall₂ (IsDigit 10) cs ds →
      SpellsFraction ds ('.' :: cs)

/-- A letter and digits, maybe with a sign between them; or nothing. -/
inductive SpellsExponent : Option ℤ → List Char → Prop where
  | none : SpellsExponent none []
  | minus {cs : List Char} {n : ℕ} : Denotes 10 cs n →
      SpellsExponent (some (-(n : ℤ))) ('e' :: '-' :: cs)
  | plus {cs : List Char} {n : ℕ} : Denotes 10 cs n →
      SpellsExponent (some (n : ℤ)) ('e' :: '+' :: cs)
  | unsigned {cs : List Char} {n : ℕ} : Denotes 10 cs n →
      SpellsExponent (some (n : ℤ)) ('e' :: cs)

/-- The text of a number. -/
inductive Spells : Number → List Char → Prop where
  | intro {negative : Bool} {whole fraction exponent : List Char} {ws fs : List ℕ}
      {e : Option ℤ} (isWhole : IsWhole whole) (digits : List.Forall₂ (IsDigit 10) whole ws)
      (behind : SpellsFraction fs fraction) (scaled : SpellsExponent e exponent) :
      Spells ⟨negative, ws, fs, e⟩
        ((if negative then ['-'] else []) ++ (whole ++ (fraction ++ exponent)))

/-- A number with a point or an exponent, and what its digits come to as one number, moved by the
places behind the point and by the exponent. -/
structure Number.Amounts (x : Number) (n : ℕ) (e : ℤ) : Prop where
  point : x.fraction ≠ [] ∨ x.exponent ≠ none
  digits : Nat.ofDigits 10 (x.whole ++ x.fraction).reverse = n
  places : x.exponent.getD 0 - x.fraction.length = e

/-- A number without point and exponent, and what its digits come to. -/
structure Number.IsInteger (x : Number) (n : ℕ) : Prop where
  fraction : x.fraction = []
  exponent : x.exponent = none
  digits : Nat.ofDigits 10 x.whole.reverse = n

/-! ## Reading -/

/-- Nothing that follows is taken for a digit. -/
def Ends (rest : List Char) : Prop := ∀ c ∈ rest.head?, digitValue? 10 c = none

/-- What follows a document in an array or an object, or nothing. -/
def Closes (rest : List Char) : Prop := ∀ c ∈ rest.head?, c = ',' ∨ c = ']' ∨ c = '\x7d'

theorem Closes.ends {rest : List Char} (h : Closes rest) : Ends rest := by
  intro c hc
  rcases h c hc with rfl | rfl | rfl <;> decide

/-- Digits are read up to the first character that is none. -/
theorem readDigits_append {cs rest : List Char} {ds : List ℕ}
    (h : List.Forall₂ (IsDigit 10) cs ds) (hrest : Ends rest) :
    readDigits (cs ++ rest) = (ds, rest) := by
  induction h with
  | nil =>
    cases rest with
    | nil => rfl
    | cons c rest => rw [List.nil_append, readDigits, hrest c rfl]
  | cons hd _ ih =>
    rw [List.cons_append, readDigits, (digitValue?_eq_some_iff (by decide)).mpr hd]
    simp only [ih]

theorem readWhole_append {cs rest : List Char} {ds : List ℕ} (hcs : IsWhole cs)
    (h : List.Forall₂ (IsDigit 10) cs ds) (hrest : Ends rest) :
    readWhole (cs ++ rest) = some (ds, rest) := by
  unfold readWhole
  rw [readDigits_append h hrest]
  split
  · next heq =>
    cases heq
    cases h
    exact absurd rfl hcs.nonempty
  · next heq =>
    cases heq
    obtain ⟨c, cs, hc, hothers, rfl⟩ := List.forall₂_cons_right_iff.mp h
    obtain ⟨d, cs, hd, hothers, rfl⟩ := List.forall₂_cons_right_iff.mp hothers
    have hzero : c = '0' := by
      rcases hc.2 with hc | hc <;> exact (Option.some.inj hc).symm
    have hlength := hcs.lead (congrArg some hzero)
    simp only [List.length_cons] at hlength
    omega
  · next heq =>
    cases heq
    rfl

theorem readFraction_append {cs rest : List Char} {fs : List ℕ} (h : SpellsFraction fs cs)
    (hrest : Ends rest) (hpoint : ∀ c ∈ rest.head?, c ≠ '.') :
    readFraction (cs ++ rest) = some (fs, rest) := by
  cases h with
  | none =>
    unfold readFraction
    split
    · next heq => exact absurd rfl (hpoint '.' (by rw [← List.nil_append rest, heq]; rfl))
    · rfl
  | @point cs _ hne hdigits =>
    unfold readFraction
    rw [List.cons_append]
    simp only [readDigits_append hdigits hrest]
    split
    · next heq =>
      cases heq
      cases hdigits
      exact absurd rfl hne
    · next heq =>
      cases heq
      rfl

/-- An exponent is read with its sign. -/
theorem readExponent_append {cs rest : List Char} {e : Option ℤ} (h : SpellsExponent e cs)
    (hrest : Closes rest) : readExponent (cs ++ rest) = some (e, rest) := by
  have hnumber : ∀ ds : List ℕ, ((ofDigits ds : ℕ) : ℤ) = (Nat.ofDigits 10 ds.reverse : ℕ) :=
    fun ds => by rw [ofDigits_eq]
  cases h with
  | none =>
    cases rest with
    | nil => rfl
    | cons c rest =>
      have hletter : ¬(c = 'e' ∨ c = 'E') := by
        rcases hrest c rfl with rfl | rfl | rfl <;> decide
      unfold readExponent
      exact if_neg hletter
  | minus hdenotes =>
    obtain ⟨hne, ds, hds, rfl⟩ := hdenotes
    have hread := readDigits_append hds hrest.ends
    obtain ⟨c, cs, rfl⟩ := List.exists_cons_of_ne_nil hne
    obtain ⟨d, ds, -, -, rfl⟩ := List.forall₂_cons_left_iff.mp hds
    simp only [List.cons_append] at hread
    simp only [List.cons_append, readExponent, true_or, if_true, hread, hnumber]
  | plus hdenotes =>
    obtain ⟨hne, ds, hds, rfl⟩ := hdenotes
    have hread := readDigits_append hds hrest.ends
    obtain ⟨c, cs, rfl⟩ := List.exists_cons_of_ne_nil hne
    obtain ⟨d, ds, -, -, rfl⟩ := List.forall₂_cons_left_iff.mp hds
    simp only [List.cons_append] at hread
    simp only [List.cons_append, readExponent, true_or, if_true, hread, hnumber,
      Bool.false_eq_true, if_false]
  | unsigned hdenotes =>
    obtain ⟨hne, ds, hds, rfl⟩ := hdenotes
    have hread := readDigits_append hds hrest.ends
    obtain ⟨c, cs, rfl⟩ := List.exists_cons_of_ne_nil hne
    obtain ⟨d, ds, hd, -, rfl⟩ := List.forall₂_cons_left_iff.mp hds
    obtain ⟨hplus, hminus⟩ := hd.not_sign
    simp only [List.cons_append] at hread ⊢
    rw [readExponent, if_pos (.inl rfl)]
    · simp only [hread, hnumber, Bool.false_eq_true, if_false]
    · exact fun _ h => hminus (List.cons.inj h).1
    · exact fun _ h => hplus (List.cons.inj h).1

/-- A number is read from its text, up to what follows it. -/
theorem readDocument_number {x : Number} {cs rest : List Char} (h : Spells x cs)
    (hrest : Closes rest) (depth : ℕ) :
    readDocument (depth + 1) (cs ++ rest) = some (.number x, rest) := by
  obtain ⟨hwhole, hdigits, hfraction, hexponent⟩ := h
  rename_i negative whole fraction exponent ws fs e
  -- what stands behind the digits is no digit, and what stands behind the fraction no point
  have hbehind : ∀ c ∈ (exponent ++ rest).head?, digitValue? 10 c = none ∧ c ≠ '.' := by
    intro c hc
    cases hexponent with
    | none => rcases hrest c hc with rfl | rfl | rfl <;> decide
    | _ => cases hc; decide
  have hafter : ∀ c ∈ (fraction ++ (exponent ++ rest)).head?, digitValue? 10 c = none := by
    intro c hc
    cases hfraction with
    | none => exact (hbehind c hc).1
    | point _ _ => cases hc; decide
  have hread : readNumber negative (whole ++ (fraction ++ (exponent ++ rest)))
      = some (.number ⟨negative, ws, fs, e⟩, rest) := by
    simp only [readNumber, readWhole_append hwhole hdigits hafter,
      readFraction_append hfraction (fun c hc => (hbehind c hc).1) (fun c hc => (hbehind c hc).2),
      readExponent_append hexponent hrest, Option.bind_eq_bind, Option.bind_some]
    rfl
  cases negative with
  | true =>
    rw [if_pos rfl, List.singleton_append, List.cons_append, readDocument_minus,
      List.append_assoc, List.append_assoc, hread]
  | false =>
    obtain ⟨c, cs, rfl⟩ := List.exists_cons_of_ne_nil hwhole.nonempty
    obtain ⟨d, ds, hd, -, -⟩ := List.forall₂_cons_left_iff.mp hdigits
    rw [if_neg Bool.false_ne_true, List.nil_append, List.append_assoc, List.append_assoc]
    rw [List.cons_append] at hread ⊢
    rw [readDocument_unsigned hd.isDigit, hread]

/-! ## Worth -/

/-- What a number amounts to is gathered and scaled. -/
theorem worth?_of_amounts {x : Number} {n : ℕ} {e : ℤ} (h : x.Amounts n e)
    (hlimit : n < UInt64.size) : x.worth? = floating? x.negative n e := by
  obtain ⟨hpoint, rfl, rfl⟩ := h
  have hboth : appended (appended 0 x.whole) x.fraction
      = Nat.ofDigits 10 (x.whole ++ x.fraction).reverse := by
    rw [← appended_zero, appended, appended, appended, List.foldl_append]
  rw [← hboth] at hlimit ⊢
  have hwhole := gather_eq ((le_appended _ x.fraction).trans_lt hlimit)
  have hwritten : (x.fraction.isEmpty && x.exponent.isNone) = false := by
    rw [Bool.and_eq_false_iff, List.isEmpty_eq_false_iff, Option.isNone_eq_false_iff]
    exact hpoint.imp_right Option.isSome_iff_ne_none.mpr
  unfold Number.worth?
  simp only [hwhole, gather_eq hlimit, hwritten, Bool.false_and, Bool.false_eq_true, if_false]
  congr 1
  omega

/-- A number without point and exponent is a whole number. -/
theorem worth?_of_integer {x : Number} {n : ℕ} (h : x.IsInteger n) (hlimit : n < UInt64.size) :
    x.worth? = some (wholeWorth x.negative n) := by
  obtain ⟨hfraction, hexponent, rfl⟩ := h
  rw [← appended_zero] at hlimit ⊢
  unfold Number.worth?
  simp only [gather_eq hlimit, hfraction, hexponent, List.isEmpty_nil, Option.isNone_none,
    Bool.and_self, beq_self_eq_true, if_true]

/-! ## Writing -/

theorem appendDigits?_of_digits? {cs : List Char} {n : ℕ} (h : digits? 10 cs = some n) :
    appendDigits? 10 0 cs = some n :=
  (Option.ite_none_left_eq_some.mp h).2

section

variable (negative : Bool) {whole fraction exponent : List Char} {n : ℕ}

/-- The text is a number of the sign, with a point or an exponent, that amounts to `n` times
`10 ^ e`. -/
def SpellsAmount (cs : List Char) (n : ℕ) (e : ℤ) : Prop :=
  ∃ x : Number, x.negative = negative ∧ Spells x ((if negative then ['-'] else []) ++ cs)
    ∧ x.Amounts n e

/-- Digits with a point among them, and maybe an exponent behind them. -/
theorem spellsAmount_point (hwhole : IsWhole whole) (hfraction : fraction ≠ [])
    (hdigits : digits? 10 (whole ++ fraction) = some n) {e : Option ℤ}
    (hexponent : SpellsExponent e exponent) :
    SpellsAmount negative (whole ++ '.' :: (fraction ++ exponent)) n
      (e.getD 0 - fraction.length) := by
  have hall := appendDigits?_of_digits? hdigits
  rw [appendDigits?_append, Option.bind_eq_some_iff] at hall
  obtain ⟨m, hfirst, hlast⟩ := hall
  obtain ⟨ws, hws, rfl⟩ := exists_digits hfirst
  obtain ⟨fs, hfs, rfl⟩ := exists_digits hlast
  have hlength := hfs.length_eq
  refine ⟨⟨negative, ws, fs, e⟩, rfl, .intro hwhole hws (.point hfraction hfs) hexponent, ?_⟩
  constructor
  · rw [← List.length_pos_iff, hlength, List.length_pos_iff] at hfraction
    exact .inl hfraction
  · rw [← appended_zero, appended, appended, appended, List.foldl_append]
  · rw [hlength]

/-- Digits without a point, and an exponent behind them. -/
theorem spellsAmount_exponent (hwhole : IsWhole whole) (hdigits : digits? 10 whole = some n)
    {e : ℤ} (hexponent : SpellsExponent (some e) exponent) :
    SpellsAmount negative (whole ++ exponent) n e := by
  obtain ⟨ws, hws, rfl⟩ := exists_digits (appendDigits?_of_digits? hdigits)
  refine ⟨⟨negative, ws, [], some e⟩, rfl, .intro hwhole hws .none hexponent, ?_⟩
  constructor
  · exact .inr (Option.some_ne_none e)
  · rw [List.append_nil, appended_zero]
  · rw [List.length_nil, Option.getD_some, Nat.cast_zero, sub_zero]

/-- Digits alone. -/
theorem exists_spells_integer (hwhole : IsWhole whole) (hdigits : digits? 10 whole = some n) :
    ∃ x : Number, x.negative = negative ∧ Spells x ((if negative then ['-'] else []) ++ whole)
      ∧ x.IsInteger n := by
  obtain ⟨ws, hws, rfl⟩ := exists_digits (appendDigits?_of_digits? hdigits)
  refine ⟨⟨negative, ws, [], none⟩, rfl, ?_, rfl, rfl, (appended_zero ws).symm⟩
  have hspells : Spells ⟨negative, ws, [], none⟩
      ((if negative then ['-'] else []) ++ (whole ++ ([] ++ []))) :=
    .intro hwhole hws .none .none
  rwa [List.append_nil, List.append_nil] at hspells

/-- An exponent that may be written with a plus sign. -/
theorem spellsExponent_integer (plus : Bool) (i : ℤ) :
    SpellsExponent (some i) ('e' :: ((if plus ∧ 0 ≤ i then ['+'] else []) ++ integer i)) := by
  have hdenotes : Denotes 10 (natural i.natAbs) i.natAbs :=
    (digits?_eq_some_iff (by decide)).mp (digits?_natural _)
  unfold integer
  by_cases hsign : i < 0
  · have hvalue : -(i.natAbs : ℤ) = i := by omega
    have hspells := SpellsExponent.minus hdenotes
    rw [hvalue] at hspells
    rwa [if_pos hsign, if_neg (by omega), List.nil_append]
  · have hvalue : (i.natAbs : ℤ) = i := by omega
    have hplus := SpellsExponent.plus hdenotes
    have hunsigned := SpellsExponent.unsigned hdenotes
    rw [hvalue] at hplus hunsigned
    rw [if_neg hsign]
    split
    · exact hplus
    · exact hunsigned

end

end ValueStream.Json
