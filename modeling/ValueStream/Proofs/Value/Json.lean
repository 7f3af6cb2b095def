import ValueStream.Proofs.Json.Numeral
import ValueStream.Proofs.Json.Single
import ValueStream.Proofs.Schema.Origin
import ValueStream.Proofs.Value.Text

/-!
What comes back of a value that is written as JSON.

The text is an object of two members, and what a lawful library makes of it
depends only on what the content is read as (`value?_text_of_scalar`). Whole
numbers are read as they are (`value?_text_of_integer`). Finite floating numbers
are written as numbers that amount to their digits (`spells_finite`), and these
are scaled: a float is narrowed to itself (`value?_text_float`), and a double
comes back as one near it (`value?_text_double`), sometimes not as itself
(`json_changes_double`). Null is refused (`value?_text_of_not_finite`). So values
come back from any lawful library (`json_round_trip_of_lawful`), and from the
standard one.
-/

namespace ValueStream

open Binary Decimal Json

namespace Binary.Format

theorem magnitude_signed {f : Format} {m : ℕ} (hm : m < f.signWeight) (negative : Bool) :
    f.magnitude (f.signed negative m) = m ∧ f.isNegative (f.signed negative m) = negative := by
  unfold Format.magnitude Format.signed Format.isNegative
  cases negative with
  | true =>
    rw [if_pos rfl, Nat.add_mod_left, Nat.mod_eq_of_lt hm]
    exact ⟨rfl, decide_eq_true (Nat.le_add_right _ _)⟩
  | false =>
    rw [if_neg Bool.false_ne_true, Nat.mod_eq_of_lt hm]
    exact ⟨rfl, decide_eq_false (Nat.not_le.mpr hm)⟩

theorem infinity_lt_signWeight : double.infinity < double.signWeight := by decide +kernel

/-- A finite double is narrowed by rounding its magnitude and keeping its sign. -/
theorem toSingle_signed (negative : Bool) {r : ℕ} (hr : r < double.infinity) :
    toSingle (double.signed negative r)
      = single.signed negative (single.nearest (double.value r).worth) := by
  obtain ⟨hmagnitude, hsign⟩ :=
    magnitude_signed (hr.trans infinity_lt_signWeight) negative
  have hfinite : double.isFinite (double.signed negative r) = true := by
    rw [Format.isFinite, hmagnitude]
    exact decide_eq_true hr
  rw [toSingle, hfinite, if_pos rfl, hmagnitude, hsign,
    single.ofRatio_eq (double.den_value_pos r)]

end Binary.Format

namespace Value

/-- Whether the value is no floating number or a finite one. -/
def isFinite : Value → Bool
  | float p => Format.single.isFinite p.bits.toNat
  | double p => Format.double.isFinite p.bits.toNat
  | _ => true

/-- Doubles of the same sign, at most two patterns apart. -/
structure IsNear (p q : Binary64) : Prop where
  sign : Format.double.isNegative q.bits.toNat = Format.double.isNegative p.bits.toNat
  above : Format.double.magnitude q.bits.toNat ≤ Format.double.magnitude p.bits.toNat + 2
  below : Format.double.magnitude p.bits.toNat ≤ Format.double.magnitude q.bits.toNat + 2

end Value

/-! ## Floating numbers -/

section

variable (l : Layout) {f : Format} (hf : f.Proper)

include hf in
theorem spellsAmount_magnitudeText (negative : Bool) {m : ℕ} (hm : m < f.infinity) :
    SpellsAmount negative (Value.magnitudeText l f m) (l.writtenMagnitude f m).coefficient
      (l.writtenMagnitude f m).exponent := by
  unfold Layout.writtenMagnitude Value.magnitudeText
  by_cases hzero : m = 0
  · rw [if_pos hzero, if_pos hzero]
    have hdigits : Text.digits? 10 (['0'] ++ ['0']) = some 0 := by decide
    exact spellsAmount_inFull negative isWhole_zero (List.cons_ne_nil '0' []) hdigits rfl
  · rw [if_neg hzero, if_neg hzero]
    exact spellsAmount_numeral negative
      (coefficient_shortest_pos hf l.tie (Nat.pos_of_ne_zero hzero) hm) l

include hf in
/-- A finite pattern is written as a number that amounts to its digits. -/
theorem spells_finite {p : ℕ} (hp : f.isFinite p = true) :
    ∃ x : Number, x.negative = f.isNegative p ∧ Spells x (l.finite f p)
      ∧ x.Amounts (l.writtenMagnitude f (f.magnitude p)).coefficient
        (l.writtenMagnitude f (f.magnitude p)).exponent := by
  have htext : l.finite f p
      = (if f.isNegative p then ['-'] else []) ++ Value.magnitudeText l f (f.magnitude p) := by
    rw [Value.finite_eq]
    split <;> rfl
  rw [htext]
  exact spellsAmount_magnitudeText l hf (f.isNegative p) (of_decide_eq_true hp)

end

namespace Json.Library

variable {lib : Library}

theorem content_float {p : Binary32} (hp : Format.single.isFinite p.bits.toNat = true) :
    lib.content (.float p) = lib.single.finite .single p.bits.toNat := by
  rw [content, Value.jsonFloating, if_pos hp]

theorem content_double {p : Binary64} (hp : Format.double.isFinite p.bits.toNat = true) :
    lib.content (.double p) = lib.double.finite .double p.bits.toNat := by
  rw [content, Value.jsonFloating, if_pos hp]

theorem content_of_not_finite {v : Value} (h : v.isFinite = false) :
    lib.content v = "null".toList := by
  cases v with
  | float p =>
    rw [Value.isFinite] at h
    rw [content, Value.jsonFloating, h, if_neg Bool.false_ne_true]
    rfl
  | double p =>
    rw [Value.isFinite] at h
    rw [content, Value.jsonFloating, h, if_neg Bool.false_ne_true]
    rfl
  | _ => cases h

/-- The content of a finite value can be read as text too, and is then the value. -/
theorem ofChars_content {v : Value} (h : v.isFinite = true) :
    Value.ofChars v.kind (lib.content v) = .ok v := by
  cases v with
  | float p =>
    rw [content_float h, Value.ofChars,
      Text.trim_of_not_blank (fun c hc => Value.isBlank_finite hc), Value.kind, Value.ofTrimmed?,
      Value.floating?_finite Format.single_proper _ p.bits.toNat_lt h, Option.map_some,
      UInt32.ofNat_toNat]
  | double p =>
    rw [content_double h, Value.ofChars,
      Text.trim_of_not_blank (fun c hc => Value.isBlank_finite hc), Value.kind, Value.ofTrimmed?,
      Value.floating?_finite Format.double_proper _ p.bits.toNat_lt h, Option.map_some,
      UInt64.ofNat_toNat]
  | int v => exact Value.ofChars_chars (.int v)
  | sint v => exact Value.ofChars_chars (.sint v)
  | long v => exact Value.ofChars_chars (.long v)
  | bool v => exact Value.ofChars_chars (.bool v)
  | byte v => exact Value.ofChars_chars (.byte v)

/-- The digits and the exponent with which a double is written. -/
def digits (lib : Library) (p : Binary64) : Decimal :=
  lib.double.writtenMagnitude .double (Format.double.magnitude p.bits.toNat)

/-! ## Objects of a kind and a content -/

theorem toList_text (v : Value) :
    (lib.text v).toList = '\x7b' :: ([','].intercalate
      ['"' :: ("kind".toList ++ '"' :: ':' :: '"' :: (v.kind.name.toList ++ ['"'])),
        '"' :: ("value".toList ++ '"' :: ':' :: lib.content v)] ++ ['\x7d']) := by
  rw [text, List.intercalate_cons_cons, List.intercalate_singleton]
  simp only [String.toList_append, String.toList_ofList, List.append_assoc, List.cons_append]
  rfl

theorem ofDocument?_object (kind : Kind) (document : Document) :
    lib.ofDocument? (.object [(some "kind".toList, .string (some kind.name.toList)),
      (some "value".toList, document)]) = lib.ofContent? kind document := by
  have hkind := Kind.ofJson?_name kind
  generalize Document.string (some kind.name.toList) = name at hkind ⊢
  show (Kind.ofJson? name).bind (fun k => lib.ofContent? k document) = _
  rw [hkind, Option.bind_some]

variable (hlib : lib.Lawful)

include hlib

/-- A value comes back as what its content is read as. -/
theorem value?_text_of_scalar (v : Value) {document : Document}
    (h : Scalar document (lib.content v)) :
    lib.value? (lib.text v) = lib.ofContent? v.kind document := by
  have hkind : ∀ c ∈ "kind".toList, IsOrdinary c := isOrdinary_of_all (by decide)
  have hvalue : ∀ c ∈ "value".toList, IsOrdinary c := isOrdinary_of_all (by decide)
  have hmembers := List.Forall₂.cons (Member.intro hkind (.string v.kind.isOrdinary_name))
    (List.Forall₂.cons (Member.intro hvalue h) .nil)
  rw [value?, toList_text, hlib.object hmembers]
  exact ofDocument?_object v.kind document

theorem value?_text_of_number (v : Value) {x : Number} {w : Worth} (h : Spells x (lib.content v))
    (hworth : lib.worth? x = some w) : lib.value? (lib.text v) = Value.ofWorth? v.kind w := by
  rw [value?_text_of_scalar hlib v (.number h), ofContent?, hworth, Option.bind_some]

/-! ## Whole numbers -/

/-- A whole number of at most 64 bits comes back within its bounds. -/
theorem value?_text_of_integer (v : Value) {i lo hi : ℤ} {ofInt : ℤ → Value}
    (hcontent : lib.content v = Text.integer i)
    (hkind : ∀ w, Value.ofWorth? v.kind w = (Value.wholeWithin? lo hi w).map ofInt)
    (hlo : lo ≤ i) (hhi : i ≤ hi) (hleast : -2 ^ 63 ≤ i) (hmost : i < 2 ^ 64) :
    lib.value? (lib.text v) = some (ofInt i) := by
  have hdigits := Text.digits?_natural i.natAbs
  have hwhole := isWhole_natural i.natAbs
  by_cases hneg : i < 0
  · obtain ⟨x, hx, hspells, hinteger⟩ := exists_spells_integer true hwhole hdigits
    have htext : lib.content v = '-' :: Text.natural i.natAbs := by
      rw [hcontent, Text.integer, if_pos hneg]
    have hvalue : -(i.natAbs : ℤ) = i := by omega
    rw [value?_text_of_number hlib v (htext ▸ hspells)
      (hlib.negative hinteger hx (by omega) (by omega)), hkind, Value.wholeWithin?, hvalue,
      if_pos hlo, Option.map_some]
  · obtain ⟨x, hx, hspells, hinteger⟩ := exists_spells_integer false hwhole hdigits
    have htext : lib.content v = Text.natural i.natAbs := by
      rw [hcontent, Text.integer, if_neg hneg]
    have hvalue : (i.natAbs : ℤ) = i := by omega
    rw [value?_text_of_number hlib v (htext ▸ hspells) (hlib.natural hinteger hx (by omega)), hkind,
      Value.wholeWithin?, hvalue, if_pos hhi, Option.map_some]

/-- Whole numbers and truth values come back. -/
theorem value?_text_of_whole {v : Value} (hfloat : v.kind ≠ .float) (hdouble : v.kind ≠ .double) :
    lib.value? (lib.text v) = some v := by
  cases v with
  | int v =>
    have hlimit := v.toNat_lt
    rw [value?_text_of_integer hlib (.int v) (i := v.toNat) rfl (fun _ => rfl) (by omega) (by omega)
      (by omega) (by omega), Int.toNat_natCast, UInt32.ofNat_toNat]
  | sint v =>
    have hlo := v.le_toInt
    have hhi := v.toInt_lt
    rw [value?_text_of_integer hlib (.sint v) (i := v.toInt) rfl (fun _ => rfl) (by omega)
      (by omega) (by omega) (by omega), Int32.ofInt_toInt]
  | float v => exact absurd rfl hfloat
  | double v => exact absurd rfl hdouble
  | long v =>
    have hlo := v.le_toInt
    have hhi := v.toInt_lt
    rw [value?_text_of_integer hlib (.long v) (i := v.toInt) rfl (fun _ => rfl) (by omega)
      (by omega) (by omega) (by omega), Int64.ofInt_toInt]
  | bool b =>
    have hcontent : Scalar (.bool b) (lib.content (.bool b)) := by cases b <;> exact .bool _
    rw [value?_text_of_scalar hlib _ hcontent]
    rfl
  | byte v =>
    have hlo := v.le_toInt
    have hhi := v.toInt_lt
    rw [value?_text_of_integer hlib (.byte v) (i := v.toInt) rfl (fun _ => rfl) (by omega)
      (by omega) (by omega) (by omega), Int8.ofInt_toInt]

/-! ## Floating numbers come back -/

/-- What the digits of a finite number are scaled to comes back, under its sign. -/
theorem worth?_of_spells_finite {l : Layout} {f : Format} (hf : f.Proper) {p r : ℕ}
    (hp : f.isFinite p = true)
    (hlimit : (l.writtenMagnitude f (f.magnitude p)).coefficient < 2 ^ 64)
    (hscale : scale? (Format.double.ofNat (l.writtenMagnitude f (f.magnitude p)).coefficient)
      (l.writtenMagnitude f (f.magnitude p)).exponent = some r) :
    ∃ x : Number, Spells x (l.finite f p)
      ∧ lib.worth? x = some (.floating (Format.double.signed (f.isNegative p) r)) := by
  obtain ⟨x, hx, hspells, hamounts⟩ := spells_finite l hf hp
  rw [scale?_eq_some_iff, Format.ofNat_eq] at hscale
  exact ⟨x, hspells, hx ▸ hlib.scaled hamounts hlimit hscale⟩

/-- Every finite float comes back. -/
theorem value?_text_float {p : Binary32} (hp : Format.single.isFinite p.bits.toNat = true) :
    lib.value? (lib.text (.float p)) = some (.float p) := by
  have hm : Format.single.magnitude p.bits.toNat < Format.single.infinity := of_decide_eq_true hp
  have hplaces := hlib.single_places
  have hfew : (lib.single.writtenMagnitude .single
      (Format.single.magnitude p.bits.toNat)).coefficient < 10 ^ 14 :=
    Layout.coefficient_writtenMagnitude_lt Format.single_proper (by decide) (by decide)
      (by omega) hm
  obtain ⟨r, hscale, hr, hnarrow⟩ := scale?_written_single hplaces hm
  obtain ⟨x, hspells, hworth⟩ := worth?_of_spells_finite hlib Format.single_proper hp
    (hfew.trans (by decide)) hscale
  rw [← content_float hp] at hspells
  rw [value?_text_of_number hlib _ hspells hworth, Value.kind, Value.ofWorth?, Value.toFloat,
    Format.toSingle_signed _ hr, hnarrow, Value.signed_magnitude p.bits.toNat_lt,
    UInt32.ofNat_toNat]

/-- What the digits of a double are scaled to comes back, under its sign. -/
theorem value?_text_double_of_scale {p : Binary64}
    (hp : Format.double.isFinite p.bits.toNat = true) {r : ℕ}
    (hscale : scale? (Format.double.ofNat (lib.digits p).coefficient) (lib.digits p).exponent
      = some r) :
    lib.value? (lib.text (.double p)) = some
      (.double ⟨UInt64.ofNat (Format.double.signed (Format.double.isNegative p.bits.toNat) r)⟩) := by
  have hplaces := hlib.double_places
  have hfew : (lib.digits p).coefficient < 10 ^ 17 :=
    Layout.coefficient_writtenMagnitude_lt Format.double_proper (by decide) (by decide) (by omega)
      (of_decide_eq_true hp)
  obtain ⟨x, hspells, hworth⟩ := worth?_of_spells_finite hlib Format.double_proper hp
    (hfew.trans (by decide)) hscale
  rw [← content_double hp] at hspells
  rw [value?_text_of_number hlib _ hspells hworth, Value.kind, Value.ofWorth?, Value.toDouble]

/-- Every finite double comes back as one that is near, and as it is if neither its digits nor
their power of ten are rounded. -/
theorem value?_text_double {p : Binary64} (hp : Format.double.isFinite p.bits.toNat = true) :
    ∃ q : Binary64, lib.value? (lib.text (.double p)) = some (.double q)
      ∧ Format.double.isFinite q.bits.toNat = true ∧ Value.IsNear p q
      ∧ ((lib.digits p).coefficient < 2 ^ 53 → -22 ≤ (lib.digits p).exponent →
        (lib.digits p).exponent ≤ 22 → q = p) := by
  obtain ⟨r, hscale, hr, habove, hbelow, hsame⟩ :=
    scale?_written_double hlib.double_places (of_decide_eq_true hp)
  have hlimit := hr.trans Format.infinity_lt_signWeight
  obtain ⟨hmagnitude, hsign⟩ :=
    Format.magnitude_signed hlimit (Format.double.isNegative p.bits.toNat)
  have hsigned : Format.double.signed (Format.double.isNegative p.bits.toNat) r < UInt64.size := by
    have hweight : 2 * Format.double.signWeight = UInt64.size := by decide +kernel
    unfold Format.signed
    split <;> omega
  have hbits := UInt64.toNat_ofNat_of_lt' hsigned
  refine ⟨_, value?_text_double_of_scale hlib hp hscale, ?_, ?_, ?_⟩
  · rw [hbits, Format.isFinite, hmagnitude]
    exact decide_eq_true hr
  · constructor <;> rw [hbits]
    · exact hsign
    · rwa [hmagnitude]
    · rwa [hmagnitude]
  · intro hdigits hlow hhigh
    rw [hsame hdigits hlow hhigh, Value.signed_magnitude p.bits.toNat_lt, UInt64.ofNat_toNat]

/-- With a negative exponent it is one quotient that comes back. -/
theorem value?_text_double_of_quotient {p : Binary64}
    (hp : Format.double.isFinite p.bits.toNat = true) {n k r : ℕ}
    (hdigits : lib.digits p = ⟨n, -(k : ℤ)⟩) (hk : 1 ≤ k) (hk' : k ≤ 308)
    (hquotient : Format.double.divide (Format.double.ofNat n) (power k) = r) :
    lib.value? (lib.text (.double p)) = some
      (.double ⟨UInt64.ofNat (Format.double.signed (Format.double.isNegative p.bits.toNat) r)⟩) := by
  apply value?_text_double_of_scale hlib hp
  rw [hdigits, scale?_of_neg _ hk hk', hquotient]

/-- Null is refused. -/
theorem value?_text_of_not_finite {v : Value} (h : v.isFinite = false) :
    lib.value? (lib.text v) = none := by
  have hcontent : Scalar .null (lib.content v) := by
    rw [content_of_not_finite h]
    exact .null
  exact value?_text_of_scalar hlib v hcontent

/-! ## All values -/

/-- What comes back of a value that is written and read with a lawful library. A value of any kind
but double is itself again, if it is finite. A finite double is one of the same sign at most two
patterns away, and itself if its digits as they are written make a whole number below `2 ^ 53` and
its power of ten is one of the first 22 on either side. What is not a number and the infinities are
written as null, and nothing comes back of it. -/
theorem json_round_trip_of_lawful (v : Value) :
    (v.isFinite = true → v.kind ≠ .double → lib.value? (lib.text v) = some v)
      ∧ (∀ p : Binary64, v = .double p → v.isFinite = true →
        ∃ q : Binary64, lib.value? (lib.text v) = some (.double q)
          ∧ (Value.double q).isFinite = true ∧ Value.IsNear p q
          ∧ ((lib.digits p).coefficient < 2 ^ 53 → -22 ≤ (lib.digits p).exponent →
            (lib.digits p).exponent ≤ 22 → q = p))
      ∧ (v.isFinite = false →
        lib.content v = "null".toList ∧ lib.value? (lib.text v) = none) := by
  refine ⟨?_, ?_, ?_⟩
  · intro hfinite hdouble
    by_cases hfloat : v.kind = .float
    · cases v with
      | float p => exact value?_text_float hlib hfinite
      | _ => cases hfloat
    · exact value?_text_of_whole hlib hfloat hdouble
  · rintro p rfl hfinite
    exact value?_text_double hlib hfinite
  · exact fun h => ⟨content_of_not_finite h, value?_text_of_not_finite hlib h⟩

end Json.Library

namespace Value

open Json.Library

/-- The digits and the exponent with which a double is written. -/
def jsonDigits (p : Binary64) : Decimal :=
  jsonDoubleLayout.writtenMagnitude .double (Format.double.magnitude p.bits.toNat)

/-- Two patterns away is as far as it gets: a double with 17 digits may be rounded up three times. -/
theorem ofJsonText?_double_two_away :
    ofJsonText? (double ⟨0x16CDA791D8A50636⟩).json = some (double ⟨0x16CDA791D8A50638⟩) := by
  have hdigits : jsonDigits ⟨0x16CDA791D8A50636⟩ = ⟨77482655031499385, -(215 : ℕ)⟩ := by
    decide +kernel
  have hquotient : Format.double.divide (Format.double.ofNat 77482655031499385) (power 215)
      = 0x16CDA791D8A50638 := by decide +kernel
  exact value?_text_double_of_quotient standard_lawful (by decide +kernel) hdigits (by decide)
    (by decide) hquotient

/-- What comes back of a value that is written as JSON. A value of any kind but double is itself
again, if it is finite. A finite double is one of the same sign at most two patterns away, and
itself if its digits as they are written make a whole number below `2 ^ 53` and its power of ten
is one of the first 22 on either side. What is not a number and the infinities are written as null,
and nothing comes back of it. -/
theorem json_round_trip (v : Value) :
    (v.isFinite = true → v.kind ≠ .double → ofJsonText? v.json = some v)
      ∧ (∀ p : Binary64, v = double p → v.isFinite = true →
        ∃ q : Binary64, ofJsonText? v.json = some (double q)
          ∧ (double q).isFinite = true ∧ IsNear p q
          ∧ ((jsonDigits p).coefficient < 2 ^ 53 → -22 ≤ (jsonDigits p).exponent →
            (jsonDigits p).exponent ≤ 22 → q = p))
      ∧ (v.isFinite = false → v.jsonContent = "null".toList ∧ ofJsonText? v.json = none) :=
  json_round_trip_of_lawful standard_lawful v

/-- Minus zero and a tenth come back, and an infinity does not. -/
theorem json_round_trip_of_patterns :
    let zero : Binary32 := ⟨0x80000000⟩
    let tenth : Binary64 := ⟨0x3FB999999999999A⟩
    let infinite : Binary64 := ⟨0x7FF0000000000000⟩
    ((float zero).isFinite = true ∧ ofJsonText? (float zero).json = some (float zero))
      ∧ ((double tenth).isFinite = true ∧ jsonDigits tenth = ⟨1, -1⟩
        ∧ ofJsonText? (double tenth).json = some (double tenth))
      ∧ (double infinite).isFinite = false ∧ ofJsonText? (double infinite).json = none := by
  intro zero tenth infinite
  have hzero : (float zero).isFinite = true := by decide +kernel
  have htenth : (double tenth).isFinite = true := by decide +kernel
  have hinfinite : (double infinite).isFinite = false := by decide +kernel
  have hdigits : jsonDigits tenth = ⟨1, -1⟩ := by decide +kernel
  obtain ⟨hsame, -, -⟩ := json_round_trip (float zero)
  obtain ⟨-, hnear, -⟩ := json_round_trip (double tenth)
  obtain ⟨-, -, hnone⟩ := json_round_trip (double infinite)
  obtain ⟨q, hq, -, -, hexact⟩ := hnear tenth rfl htenth
  rw [hdigits] at hexact
  rw [hexact (by decide) (by decide) (by decide)] at hq
  exact ⟨⟨hzero, hsame hzero (by decide)⟩, ⟨htenth, hdigits, hq⟩, hinfinite, (hnone hinfinite).2⟩

/-- The whole number before `2 ^ 53` is written with a zero behind the point, and so with too many
digits: the one before it comes back. -/
theorem json_changes_double :
    let p : Binary64 := ⟨0x433FFFFFFFFFFFFF⟩
    let q : Binary64 := ⟨0x433FFFFFFFFFFFFE⟩
    (double p).isFinite = true
      ∧ (double p).json = "\x7b\"kind\":\"double\",\"value\":9007199254740991.0\x7d"
      ∧ jsonDigits p = ⟨90071992547409910, -1⟩
      ∧ ofJsonText? (double p).json = some (double q) ∧ (double q).bitsEq (double p) = false
      ∧ ¬∀ v : Value, v.isFinite = true → ∃ w, ofJsonText? v.json = some w ∧ w.bitsEq v = true := by
  intro p q
  have hfinite : (double p).isFinite = true := by decide +kernel
  have hdigits : jsonDigits p = ⟨90071992547409910, -1⟩ := by decide +kernel
  have hquotient : Format.double.divide (Format.double.ofNat 90071992547409910) (power 1)
      = 0x433FFFFFFFFFFFFE := by decide +kernel
  have hback : ofJsonText? (double p).json = some (double q) :=
    value?_text_double_of_quotient standard_lawful hfinite hdigits (le_refl 1) (by decide) hquotient
  have hdiffer : (double q).bitsEq (double p) = false := by decide
  refine ⟨hfinite, by decide +kernel, hdigits, hback, hdiffer, fun hall => ?_⟩
  obtain ⟨w, hw, hbits⟩ := hall (double p) hfinite
  rw [hback] at hw
  rw [← Option.some.inj hw, hdiffer] at hbits
  exact absurd hbits Bool.false_ne_true

end Value

end ValueStream
