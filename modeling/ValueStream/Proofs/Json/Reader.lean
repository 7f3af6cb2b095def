import Mathlib.Data.List.DropRight
import ValueStream.Json.Reader

/-!
What is read where a JSON document is written.

Characters that stand for themselves are read as they are up to the quote
(`readString_ordinary`). Only brackets with nothing but blanks between them are
an array without elements (`readDocument_eq_empty_iff`), since a list of
elements has one at least; with blanks around it that is the whole text
(`ofChars?_eq_empty_iff`). Keys and members are read one after the other
(`readMembers_cons`, `readMembers_last`).
-/

namespace ValueStream.Json

/-! ## Blanks -/

theorem skipBlanks_of_not_blank {c : Char} (h : isBlank c = false) (cs : List Char) :
    skipBlanks (c :: cs) = c :: cs :=
  List.dropWhile_cons_of_neg (Bool.eq_false_iff.mp h)

/-- What is not blank comes behind some blanks. -/
theorem skipBlanks_eq_cons_iff {c : Char} (h : isBlank c = false) {cs rest : List Char} :
    skipBlanks cs = c :: rest
      ↔ ∃ blanks, (∀ b ∈ blanks, isBlank b = true) ∧ cs = blanks ++ c :: rest := by
  constructor
  · intro hskip
    refine ⟨cs.takeWhile isBlank, fun b hb => List.mem_takeWhile_imp hb, ?_⟩
    rw [← hskip, skipBlanks, List.takeWhile_append_dropWhile]
  · rintro ⟨blanks, hblanks, rfl⟩
    rw [skipBlanks, List.dropWhile_append_of_pos hblanks]
    exact skipBlanks_of_not_blank h rest

theorem skipBlanks_isEmpty_iff {cs : List Char} :
    (skipBlanks cs).isEmpty = true ↔ ∀ b ∈ cs, isBlank b = true := by
  rw [List.isEmpty_iff, skipBlanks, List.dropWhile_eq_nil_iff]

/-! ## Strings -/

/-- A character that stands for itself in a string. -/
def IsOrdinary (c : Char) : Prop := c ≠ '"' ∧ c ≠ '\\' ∧ 0x20 ≤ c.toNat

instance : DecidablePred IsOrdinary :=
  fun c => inferInstanceAs (Decidable (c ≠ '"' ∧ c ≠ '\\' ∧ 0x20 ≤ c.toNat))

theorem isOrdinary_of_all {cs : List Char} (h : cs.all (fun c => decide (IsOrdinary c)) = true) :
    ∀ c ∈ cs, IsOrdinary c := fun c hc => of_decide_eq_true (List.all_eq_true.mp h c hc)

theorem readString_cons {c : Char} (h : IsOrdinary c) (cs : List Char) :
    readString (c :: cs) = prepend (some c) (readString cs) := by
  obtain ⟨hquote, hslash, hcontrol⟩ := h
  rw [readString, if_neg (Nat.not_lt.mpr hcontrol)]
  · exact fun h => hquote h
  · exact fun _ _ _ _ _ _ _ _ _ h _ => hslash h
  · exact fun _ _ _ _ _ h _ => hslash h
  · exact fun _ _ h _ => hslash h

/-- Characters that stand for themselves are read up to the quote. -/
theorem readString_ordinary {cs : List Char} (h : ∀ c ∈ cs, IsOrdinary c) (rest : List Char) :
    readString (cs ++ '"' :: rest) = some (some cs, rest) := by
  induction cs with
  | nil => rw [List.nil_append, readString]
  | cons c cs ih =>
    obtain ⟨hc, hcs⟩ := List.forall_mem_cons.mp h
    rw [List.cons_append, readString_cons hc, ih hcs]
    rfl

/-- A string in quotes is read as its characters. -/
theorem readScalar_string {cs : List Char} (h : ∀ c ∈ cs, IsOrdinary c) (rest : List Char) :
    readScalar ('"' :: (cs ++ '"' :: rest)) = some (.string (some cs), rest) := by
  have hquote : readScalar ('"' :: (cs ++ '"' :: rest))
      = (readString (cs ++ '"' :: rest)).map (fun read => (.string read.1, read.2)) := rfl
  rw [hquote, readString_ordinary h]
  rfl

/-! ## Scalars -/

/-- Where no bracket or brace stands, a scalar is read. -/
theorem readDocument_scalar {c : Char} (hblank : isBlank c = false) (hbracket : c ≠ '[')
    (hbrace : c ≠ '\x7b') (depth : ℕ) (cs : List Char) :
    readDocument (depth + 1) (c :: cs) = readScalar (c :: cs) := by
  rw [readDocument, skipBlanks_of_not_blank hblank]
  split
  · next h => exact absurd (List.cons.inj h).1 hbracket
  · next h => exact absurd (List.cons.inj h).1 hbrace
  · rfl

theorem readDocument_string {cs : List Char} (h : ∀ c ∈ cs, IsOrdinary c) {depth : ℕ}
    (hdepth : 0 < depth) (rest : List Char) :
    readDocument depth ('"' :: (cs ++ '"' :: rest)) = some (.string (some cs), rest) := by
  obtain ⟨depth, rfl⟩ := Nat.exists_eq_succ_of_ne_zero hdepth.ne'
  rw [readDocument_scalar (by decide) (by decide) (by decide), readScalar_string h]

/-- A number without a sign begins with a digit. -/
theorem readDocument_unsigned {c : Char} (hc : c.isDigit = true) (depth : ℕ) (cs : List Char) :
    readDocument (depth + 1) (c :: cs) = readNumber false (c :: cs) := by
  have hne : ∀ d : Char, d.isDigit = false → c ≠ d := by
    rintro d hd rfl
    exact absurd (hc.symm.trans hd) (by decide)
  have hblank : isBlank c = false := by
    simp only [isBlank, Bool.or_eq_false_iff, beq_eq_false_iff_ne]
    exact ⟨⟨⟨hne _ (by decide), hne _ (by decide)⟩, hne _ (by decide)⟩, hne _ (by decide)⟩
  rw [readDocument_scalar hblank (hne _ (by decide)) (hne _ (by decide))]
  unfold readScalar
  split
  case h_6 => rfl
  all_goals
    next heq => exact absurd (List.cons.inj heq).1 (hne _ (by decide))

theorem readDocument_minus (depth : ℕ) (cs : List Char) :
    readDocument (depth + 1) ('-' :: cs) = readNumber true cs :=
  readDocument_scalar (by decide) (by decide) (by decide) depth cs

/-! ## Arrays -/

section

variable {depth : ℕ} {cs rest : List Char} {element : Document} {elements : List Document}

theorem readElements_last (h : readDocument depth cs = some (element, ']' :: rest)) :
    readElements (depth + 1) cs = some ([element], rest) := by
  rw [readElements, h]
  rfl

theorem readElements_cons {others : List Char}
    (h : readDocument depth cs = some (element, ',' :: others))
    (hothers : readElements depth others = some (elements, rest)) :
    readElements (depth + 1) cs = some (element :: elements, rest) := by
  rw [readElements, h]
  show (readElements depth others).map _ = _
  rw [hothers]
  rfl

/-- What is read between brackets is an array, unless the first thing is a bracket again. -/
theorem readDocument_array {c : Char} (hc : isBlank c = false) (hclose : c ≠ ']')
    (h : readElements depth (c :: cs) = some (elements, rest)) :
    readDocument (depth + 1) ('[' :: c :: cs) = some (.array elements, rest) := by
  have hopen : skipBlanks ('[' :: c :: cs) = '[' :: c :: cs := skipBlanks_of_not_blank (by decide) _
  simp only [readDocument, hopen, skipBlanks_of_not_blank hc]
  split
  · next heq => exact absurd (List.cons.inj heq).1 hclose
  · rw [h]
    rfl

end

/-! ## Objects -/

section

variable {depth : ℕ} {key cs rest : List Char} {member : Document}
  {members : List (Option (List Char) × Document)}

theorem skipBlanks_quote (cs : List Char) : skipBlanks ('"' :: cs) = '"' :: cs :=
  skipBlanks_of_not_blank (by decide) cs

theorem skipBlanks_colon (cs : List Char) : skipBlanks (':' :: cs) = ':' :: cs :=
  skipBlanks_of_not_blank (by decide) cs

theorem readMembers_last (hkey : ∀ c ∈ key, IsOrdinary c)
    (h : readDocument depth cs = some (member, '\x7d' :: rest)) :
    readMembers (depth + 1) ('"' :: (key ++ '"' :: ':' :: cs)) = some ([(some key, member)], rest) := by
  simp only [readMembers, skipBlanks_quote, readString_ordinary hkey, skipBlanks_colon, h]
  rfl

theorem readMembers_cons (hkey : ∀ c ∈ key, IsOrdinary c) {others : List Char}
    (h : readDocument depth cs = some (member, ',' :: others))
    (hothers : readMembers depth others = some (members, rest)) :
    readMembers (depth + 1) ('"' :: (key ++ '"' :: ':' :: cs))
      = some ((some key, member) :: members, rest) := by
  simp only [readMembers, skipBlanks_quote, readString_ordinary hkey, skipBlanks_colon, h]
  show (readMembers depth others).map _ = _
  rw [hothers]
  rfl

/-- What is read between braces is an object, unless the first thing is a brace again. -/
theorem readDocument_object {c : Char} (hc : isBlank c = false) (hclose : c ≠ '\x7d')
    (h : readMembers depth (c :: cs) = some (members, rest)) :
    readDocument (depth + 1) ('\x7b' :: c :: cs) = some (.object members, rest) := by
  have hopen : skipBlanks ('\x7b' :: c :: cs) = '\x7b' :: c :: cs :=
    skipBlanks_of_not_blank (by decide) _
  simp only [readDocument, hopen, skipBlanks_of_not_blank hc]
  split
  · next heq => exact absurd (List.cons.inj heq).1 hclose
  · rw [h]
    rfl

end

theorem readElements_ne_nil {depth : ℕ} {cs rest : List Char} {elements : List Document}
    (h : readElements depth cs = some (elements, rest)) : elements ≠ [] := by
  cases depth with
  | zero =>
    rw [readElements] at h
    cases h
  | succ depth =>
    rw [readElements] at h
    split at h
    · cases h
    · split at h
      · obtain ⟨⟨others, rest'⟩, -, heq⟩ := Option.map_eq_some_iff.mp h
        cases heq
        exact List.cons_ne_nil _ _
      · cases h
        exact List.cons_ne_nil _ _
      · cases h

theorem readNumber_ne_array {negative : Bool} {cs rest : List Char} {elements : List Document} :
    readNumber negative cs ≠ some (.array elements, rest) := by
  intro h
  simp only [readNumber, Option.bind_eq_bind, Option.bind_eq_some_iff] at h
  obtain ⟨_, -, _, -, _, -, hnumber⟩ := h
  cases hnumber

theorem readScalar_ne_array {cs rest : List Char} {elements : List Document} :
    readScalar cs ≠ some (.array elements, rest) := by
  intro h
  unfold readScalar at h
  split at h
  · cases h
  · cases h
  · cases h
  · obtain ⟨⟨text, rest'⟩, -, heq⟩ := Option.map_eq_some_iff.mp h
    cases heq
  · exact readNumber_ne_array h
  · exact readNumber_ne_array h

/-- An array without elements is two brackets with blanks between them, and blanks before. -/
theorem readDocument_eq_empty_iff {depth : ℕ} {cs rest : List Char} :
    readDocument (depth + 1) cs = some (.array [], rest)
      ↔ ∃ inner, skipBlanks cs = '[' :: inner ∧ skipBlanks inner = ']' :: rest := by
  rw [readDocument]
  constructor
  · intro h
    split at h
    · next inner hopen =>
      refine ⟨inner, hopen, ?_⟩
      split at h
      · next hclose =>
        cases h
        exact hclose
      · obtain ⟨⟨elements, rest'⟩, helements, heq⟩ := Option.map_eq_some_iff.mp h
        cases heq
        exact absurd rfl (readElements_ne_nil helements)
    · split at h
      · cases h
      · obtain ⟨⟨members, rest'⟩, -, heq⟩ := Option.map_eq_some_iff.mp h
        cases heq
    · exact absurd h readScalar_ne_array
  · rintro ⟨inner, hopen, hclose⟩
    simp only [hopen, hclose]

/-- Two brackets, and nothing but blanks between and around them. -/
def IsEmptyArray (cs : List Char) : Prop :=
  ∃ before between after, cs = before ++ '[' :: (between ++ ']' :: after)
    ∧ ∀ b ∈ before ++ between ++ after, isBlank b = true

theorem ofChars?_eq_empty_iff {cs : List Char} :
    ofChars? cs = some (.array []) ↔ IsEmptyArray cs := by
  have hread : ofChars? cs = some (.array [])
      ↔ ∃ rest, readDocument (2 * cs.length + 1) cs = some (.array [], rest)
        ∧ (skipBlanks rest).isEmpty = true := by
    unfold ofChars?
    constructor
    · intro h
      split at h
      · next document rest hdocument =>
        split at h
        · next hrest =>
          cases h
          exact ⟨rest, hdocument, hrest⟩
        · cases h
      · cases h
    · rintro ⟨rest, hdocument, hrest⟩
      rw [hdocument]
      dsimp only
      rw [if_pos hrest]
  simp only [IsEmptyArray, hread, readDocument_eq_empty_iff, skipBlanks_isEmpty_iff,
    List.forall_mem_append,
    skipBlanks_eq_cons_iff (show isBlank '[' = false by decide),
    skipBlanks_eq_cons_iff (show isBlank ']' = false by decide)]
  constructor
  · rintro ⟨after, ⟨inner, ⟨before, hbefore, rfl⟩, between, hbetween, rfl⟩, hafter⟩
    exact ⟨before, between, after, rfl, ⟨hbefore, hbetween⟩, hafter⟩
  · rintro ⟨before, between, after, rfl, ⟨hbefore, hbetween⟩, hafter⟩
    exact ⟨after, ⟨_, ⟨before, hbefore, rfl⟩, between, hbetween, rfl⟩, hafter⟩

end ValueStream.Json
