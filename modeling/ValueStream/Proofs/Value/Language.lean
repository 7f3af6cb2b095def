import ValueStream.Proofs.Text.Denotes
import ValueStream.Proofs.Text.Parts
import ValueStream.Value.Text

/-!
The texts that are read as values of a kind.

A text spells the number of a value, or the pattern of a floating value behind
`0x` (`Spells`); the texts of a kind are those of its numbers, named by their
range (`Kind.Language`). The words of a kind stand for the numbers of that
range, one word for each (`Counts`), so nothing wraps around: a number outside
is refused and a number inside comes to its own word (`filter_map_eq_some_iff`).
-/

namespace ValueStream

open Binary

namespace Value

/-- A text is a numeral of the value, or of its pattern, or a name of it. -/
def Spells (cs : List Char) : Value → Prop
  | int v => Text.Unsigned 10 cs v.toNat
  | sint v => Text.Signed cs v.toInt
  | float v => ∃ rest, cs = '0' :: 'x' :: rest ∧ Text.Unsigned 16 rest v.bits.toNat
  | double v => ∃ rest, cs = '0' :: 'x' :: rest ∧ Text.Unsigned 16 rest v.bits.toNat
  | long v => Text.Signed cs v.toInt
  | bool true => cs = "true".toList ∨ cs = "1".toList
  | bool false => cs = "false".toList ∨ cs = "0".toList
  | byte v => Text.Signed cs v.toInt

end Value

/-- The texts of a kind, floating values as patterns only. -/
def Kind.Language (cs : List Char) : Kind → Prop
  | int => ∃ n, Text.Unsigned 10 cs n ∧ n < 2 ^ 32
  | sint => ∃ i, Text.Signed cs i ∧ -2 ^ 31 ≤ i ∧ i ≤ 2 ^ 31 - 1
  | float => ∃ rest, cs = '0' :: 'x' :: rest ∧ ∃ n, Text.Unsigned 16 rest n ∧ n < 2 ^ 32
  | double => ∃ rest, cs = '0' :: 'x' :: rest ∧ ∃ n, Text.Unsigned 16 rest n ∧ n < 2 ^ 64
  | long => ∃ i, Text.Signed cs i ∧ -2 ^ 63 ≤ i ∧ i ≤ 2 ^ 63 - 1
  | bool => cs ∈ ["true".toList, "1".toList, "false".toList, "0".toList]
  | byte => ∃ i, Text.Signed cs i ∧ -128 ≤ i ∧ i ≤ 127

/-! ## Words for numbers -/

/-- Words stand for the numbers of a range, one word for each. -/
structure Counts {α ω : Type} (inRange : α → Prop) (number : ω → α) (word : α → ω) : Prop where
  within : ∀ w, inRange (number w)
  word_number : ∀ w, word (number w) = w
  number_word : ∀ a, inRange a → number (word a) = a

namespace Counts

theorem uint32 : Counts (· < 2 ^ 32) UInt32.toNat UInt32.ofNat where
  within := UInt32.toNat_lt
  word_number _ := UInt32.ofNat_toNat
  number_word _ h := UInt32.toNat_ofNat_of_lt' h

theorem uint64 : Counts (· < 2 ^ 64) UInt64.toNat UInt64.ofNat where
  within := UInt64.toNat_lt
  word_number _ := UInt64.ofNat_toNat
  number_word _ h := UInt64.toNat_ofNat_of_lt' h

theorem int32 : Counts (fun i => -2 ^ 31 ≤ i ∧ i ≤ 2 ^ 31 - 1) Int32.toInt Int32.ofInt where
  within w := ⟨w.le_toInt, Int.le_sub_one_of_lt w.toInt_lt⟩
  word_number := Int32.ofInt_toInt
  number_word _ h := Int32.toInt_ofInt_of_le h.1 (Int.lt_of_le_sub_one h.2)

theorem int64 : Counts (fun i => -2 ^ 63 ≤ i ∧ i ≤ 2 ^ 63 - 1) Int64.toInt Int64.ofInt where
  within w := ⟨w.le_toInt, Int.le_sub_one_of_lt w.toInt_lt⟩
  word_number := Int64.ofInt_toInt
  number_word _ h := Int64.toInt_ofInt_of_le h.1 (Int.lt_of_le_sub_one h.2)

theorem int8 : Counts (fun i => -128 ≤ i ∧ i ≤ 127) Int8.toInt Int8.ofInt where
  within w := ⟨w.le_toInt, Int.le_sub_one_of_lt w.toInt_lt⟩
  word_number := Int8.ofInt_toInt
  number_word _ h := Int8.toInt_ofInt_of_le h.1 (Int.lt_of_le_sub_one h.2)

theorem binary32 :
    Counts (· < 2 ^ 32) (fun p : Binary32 => p.bits.toNat) (fun n => ⟨UInt32.ofNat n⟩) where
  within p := uint32.within p.bits
  word_number p := congrArg Binary32.mk (uint32.word_number p.bits)
  number_word := uint32.number_word

theorem binary64 :
    Counts (· < 2 ^ 64) (fun p : Binary64 => p.bits.toNat) (fun n => ⟨UInt64.ofNat n⟩) where
  within p := uint64.within p.bits
  word_number p := congrArg Binary64.mk (uint64.word_number p.bits)
  number_word := uint64.number_word

variable {α ω : Type} {inRange : α → Prop} {number : ω → α} {word : α → ω}

/-- Some word has a number of the kind wanted just where some number of the range is of it. -/
theorem exists_iff (h : Counts inRange number word) {p : α → Prop} :
    (∃ w, p (number w)) ↔ ∃ a, p a ∧ inRange a := by
  constructor
  · rintro ⟨w, hw⟩
    exact ⟨number w, hw, h.within w⟩
  · rintro ⟨a, ha, hrange⟩
    exact ⟨word a, by rwa [h.number_word a hrange]⟩

/-- A number that is read and kept to the range is the number of the word that it comes to. -/
theorem filter_map_eq_some_iff [DecidablePred inRange] (h : Counts inRange number word)
    {make : ω → Value} {read : Option α} {v : Value} :
    (read.filter (fun a => decide (inRange a))).map (fun a => make (word a)) = some v
      ↔ ∃ w, make w = v ∧ read = some (number w) := by
  rw [Option.map_eq_some_iff]
  simp only [Option.filter_eq_some_iff, decide_eq_true_eq]
  constructor
  · rintro ⟨a, ⟨hread, hrange⟩, rfl⟩
    exact ⟨word a, rfl, by rw [hread, h.number_word a hrange]⟩
  · rintro ⟨w, rfl, hread⟩
    exact ⟨number w, ⟨hread, h.within w⟩, by rw [h.word_number]⟩

end Counts

namespace Value

theorem ofTrimmed?_eq_some_iff {kind : Kind} {cs : List Char}
    (hexact : kind = .float ∨ kind = .double → ['0', 'x'] <+: cs) {v : Value} :
    ofTrimmed? kind cs = some v ↔ v.kind = kind ∧ v.Spells cs := by
  have hdecimal : ∀ {n}, Text.natural? 10 cs = some n ↔ Text.Unsigned 10 cs n :=
    Text.natural?_eq_some_iff (by decide)
  have hpattern : ∀ {rest n}, Text.natural? 16 rest = some n ↔ Text.Unsigned 16 rest n :=
    Text.natural?_eq_some_iff (by decide)
  cases kind with
  | int =>
    apply Counts.uint32.filter_map_eq_some_iff.trans
    simp only [hdecimal]
    cases v <;> simp [kind, Spells]
  | sint =>
    apply Counts.int32.filter_map_eq_some_iff.trans
    simp only [Text.integer?_eq_some_iff]
    cases v <;> simp [kind, Spells]
  | float =>
    obtain ⟨rest, rfl⟩ := hexact (.inl rfl)
    apply Counts.binary32.filter_map_eq_some_iff.trans
    simp only [hpattern]
    cases v <;> simp [kind, Spells]
  | double =>
    obtain ⟨rest, rfl⟩ := hexact (.inr rfl)
    apply Counts.binary64.filter_map_eq_some_iff.trans
    simp only [hpattern]
    cases v <;> simp [kind, Spells]
  | long =>
    apply Counts.int64.filter_map_eq_some_iff.trans
    simp only [Text.integer?_eq_some_iff]
    cases v <;> simp [kind, Spells]
  | bool =>
    constructor
    · intro h
      rw [ofTrimmed?] at h
      split at h
      · next htrue =>
        cases h
        exact ⟨rfl, htrue⟩
      · split at h
        · next hfalse =>
          cases h
          exact ⟨rfl, hfalse⟩
        · cases h
    · rintro ⟨hkind, h⟩
      cases v with
      | bool b => cases b <;> rcases h with rfl | rfl <;> rfl
      | _ => cases hkind
  | byte =>
    apply Counts.int8.filter_map_eq_some_iff.trans
    simp only [Text.integer?_eq_some_iff]
    cases v <;> simp [kind, Spells]

/-- The texts of a kind are those that spell a value of it. -/
theorem exists_spells_iff {kind : Kind} {cs : List Char} :
    (∃ v : Value, v.kind = kind ∧ v.Spells cs) ↔ kind.Language cs := by
  constructor
  · rintro ⟨v, rfl, h⟩
    cases v with
    | int v => exact Counts.uint32.exists_iff.mp ⟨v, h⟩
    | sint v => exact Counts.int32.exists_iff.mp ⟨v, h⟩
    | float v =>
      obtain ⟨rest, hcs, h⟩ := h
      exact ⟨rest, hcs, Counts.binary32.exists_iff.mp ⟨v, h⟩⟩
    | double v =>
      obtain ⟨rest, hcs, h⟩ := h
      exact ⟨rest, hcs, Counts.binary64.exists_iff.mp ⟨v, h⟩⟩
    | long v => exact Counts.int64.exists_iff.mp ⟨v, h⟩
    | bool b => cases b <;> rcases h with rfl | rfl <;> simp [kind, Kind.Language]
    | byte v => exact Counts.int8.exists_iff.mp ⟨v, h⟩
  · intro h
    cases kind with
    | int =>
      obtain ⟨v, h⟩ := Counts.uint32.exists_iff.mpr h
      exact ⟨.int v, rfl, h⟩
    | sint =>
      obtain ⟨v, h⟩ := Counts.int32.exists_iff.mpr h
      exact ⟨.sint v, rfl, h⟩
    | float =>
      obtain ⟨rest, hcs, h⟩ := h
      obtain ⟨v, h⟩ := Counts.binary32.exists_iff.mpr h
      exact ⟨.float v, rfl, rest, hcs, h⟩
    | double =>
      obtain ⟨rest, hcs, h⟩ := h
      obtain ⟨v, h⟩ := Counts.binary64.exists_iff.mpr h
      exact ⟨.double v, rfl, rest, hcs, h⟩
    | long =>
      obtain ⟨v, h⟩ := Counts.int64.exists_iff.mpr h
      exact ⟨.long v, rfl, h⟩
    | bool =>
      simp only [Kind.Language, List.mem_cons, List.not_mem_nil, or_false] at h
      rcases h with h | h | h | h
      · exact ⟨.bool true, rfl, .inl h⟩
      · exact ⟨.bool true, rfl, .inr h⟩
      · exact ⟨.bool false, rfl, .inl h⟩
      · exact ⟨.bool false, rfl, .inr h⟩
    | byte =>
      obtain ⟨v, h⟩ := Counts.int8.exists_iff.mpr h
      exact ⟨.byte v, rfl, h⟩

/-- A text of a kind, blanks around it aside, is read as the value that it spells, and any other
text is refused with the kind and what is left of the text without the blanks. Numbers may have any
count of leading zeros, and those beyond the range of the kind are refused. Of the floating kinds,
this is about the texts that begin with `0x`. -/
theorem ofText_language (kind : Kind) (text : String)
    (hexact : kind = .float ∨ kind = .double → ['0', 'x'] <+: Text.trim text.toList) :
    let t := Text.trim text.toList
    Text.IsTrimmed t text.toList
      ∧ (∀ v, ofText kind text = .ok v ↔ v.kind = kind ∧ v.Spells t)
      ∧ ((∃ v, ofText kind text = .ok v) ↔ kind.Language t)
      ∧ (¬kind.Language t → ofText kind text = .error (.invalidValue kind (String.ofList t))) := by
  intro t
  have hok : ∀ v, ofText kind text = .ok v ↔ v.kind = kind ∧ v.Spells t := by
    intro v
    rw [← ofTrimmed?_eq_some_iff hexact, ofText, ofChars]
    cases ofTrimmed? kind (Text.trim text.toList) <;> simp
  have hlanguage : (∃ v, ofText kind text = .ok v) ↔ kind.Language t := by
    simp only [hok, exists_spells_iff]
  refine ⟨Text.isTrimmed_trim _, hok, hlanguage, ?_⟩
  intro h
  rw [ofText, ofChars]
  split
  · next v hv =>
    exact absurd (exists_spells_iff.mp ⟨v, (ofTrimmed?_eq_some_iff hexact).mp hv⟩) h
  · rfl

/-- A pattern that is not a number, the least number of a kind, and the first beyond a range. -/
theorem ofText_language_at_the_bounds :
    let pattern := " 0x+0fF800001\t"
    ((Kind.float = .float ∨ Kind.float = .double) → ['0', 'x'] <+: Text.trim pattern.toList)
      ∧ ofText .float pattern = .ok (.float ⟨0xFF800001⟩)
      ∧ ofText .byte "\u2003-000128" = .ok (.byte (-128))
      ∧ ofText .int "4294967296 " = .error (.invalidValue .int "4294967296") := by
  intro pattern
  have htrim : Text.trim pattern.toList = "0x+0fF800001".toList := by decide +kernel
  have hexact : (Kind.float = .float ∨ Kind.float = .double)
      → ['0', 'x'] <+: Text.trim pattern.toList := by
    rw [htrim]
    decide
  have hother : ∀ {kind : Kind} {cs : List Char}, kind ≠ .float → kind ≠ .double →
      kind = .float ∨ kind = .double → ['0', 'x'] <+: cs := by
    rintro kind cs hfloat hdouble (h | h)
    · exact absurd h hfloat
    · exact absurd h hdouble
  have hpattern : (float ⟨0xFF800001⟩).Spells (Text.trim pattern.toList) := by
    rw [htrim]
    exact ⟨"+0fF800001".toList, rfl, (Text.natural?_eq_some_iff (by decide)).mp (by decide +kernel)⟩
  have hleast : (byte (-128)).Spells (Text.trim "\u2003-000128".toList) :=
    Text.integer?_eq_some_iff.mp (by decide +kernel)
  have hbeyond : ¬Kind.int.Language (Text.trim "4294967296 ".toList) := by
    rintro ⟨n, hn, hlt⟩
    have hread : Text.natural? 10 (Text.trim "4294967296 ".toList) = some (2 ^ 32) := by
      decide +kernel
    rw [← Text.natural?_eq_some_iff (by decide), hread] at hn
    exact absurd (Option.some.inj hn) (Nat.ne_of_gt hlt)
  refine ⟨hexact, ?_, ?_, ?_⟩
  · exact ((ofText_language .float pattern hexact).2.1 _).mpr ⟨rfl, hpattern⟩
  · exact ((ofText_language .byte _ (hother (by decide) (by decide))).2.1 _).mpr ⟨rfl, hleast⟩
  · exact (ofText_language .int _ (hother (by decide) (by decide))).2.2.2 hbeyond

end Value

end ValueStream
