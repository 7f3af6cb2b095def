import ValueStream.Proofs.Json.Number

/-!
Arrays and objects of scalars, as they are written and as they are read.

A scalar is written in one way, but for its digits (`Scalar`), and it is read up
to what closes or separates it (`readDocument_scalar_text`). So the elements of an
array are read one after the other, each up to its comma and the last up to the
bracket (`readElements_scalars`), and the members of an object in the same way
(`readMembers_scalars`). There are no more of them than characters, so the depth
with which a whole text is read is enough (`ofChars?_array`, `ofChars?_object`).
-/

namespace ValueStream.Json

/-- The text of a scalar. -/
inductive Scalar : Document → List Char → Prop where
  | null : Scalar .null ['n', 'u', 'l', 'l']
  | bool (b : Bool) :
      Scalar (.bool b) (if b then ['t', 'r', 'u', 'e'] else ['f', 'a', 'l', 's', 'e'])
  | string {cs : List Char} : (∀ c ∈ cs, IsOrdinary c) →
      Scalar (.string (some cs)) ('"' :: (cs ++ ['"']))
  | number {x : Number} {cs : List Char} : Spells x cs → Scalar (.number x) cs

/-- The text of a member of an object whose value is a scalar. -/
inductive Member : List Char × Document → List Char → Prop where
  | intro {key content : List Char} {document : Document} : (∀ c ∈ key, IsOrdinary c) →
      Scalar document content → Member (key, document) ('"' :: (key ++ '"' :: ':' :: content))

theorem Spells.exists_cons {x : Number} {cs : List Char} (h : Spells x cs) :
    ∃ c others, cs = c :: others ∧ isBlank c = false ∧ c ≠ ']' := by
  obtain ⟨hwhole, hdigits, -, -⟩ := h
  rename_i negative whole _ _ _ _ _
  cases negative with
  | true => exact ⟨'-', _, rfl, by decide, by decide⟩
  | false =>
    obtain ⟨c, cs, rfl⟩ := List.exists_cons_of_ne_nil hwhole.nonempty
    obtain ⟨d, ds, ⟨hd, hc⟩, -, -⟩ := List.forall₂_cons_left_iff.mp hdigits
    refine ⟨c, _, rfl, ?_⟩
    interval_cases d <;> rcases hc with hc | hc <;> cases hc <;> decide

theorem Scalar.exists_cons {document : Document} {cs : List Char} (h : Scalar document cs) :
    ∃ c others, cs = c :: others ∧ isBlank c = false ∧ c ≠ ']' := by
  cases h with
  | null => exact ⟨_, _, rfl, by decide, by decide⟩
  | bool b => cases b <;> exact ⟨_, _, rfl, by decide, by decide⟩
  | string _ => exact ⟨_, _, rfl, by decide, by decide⟩
  | number h => exact h.exists_cons

/-- A scalar is read from its text, up to what follows it. -/
theorem readDocument_scalar_text {document : Document} {cs rest : List Char}
    (h : Scalar document cs) (hrest : Closes rest) {depth : ℕ} (hdepth : 0 < depth) :
    readDocument depth (cs ++ rest) = some (document, rest) := by
  obtain ⟨depth, rfl⟩ := Nat.exists_eq_succ_of_ne_zero hdepth.ne'
  cases h with
  | null => exact readDocument_scalar (by decide) (by decide) (by decide) depth _
  | bool b => cases b <;> exact readDocument_scalar (by decide) (by decide) (by decide) depth _
  | string h =>
    rw [List.cons_append, List.append_assoc]
    exact readDocument_string h (Nat.succ_pos depth) rest
  | number h => exact readDocument_number h hrest depth

theorem closes_cons {c : Char} (h : c = ',' ∨ c = ']' ∨ c = '\x7d') (rest : List Char) :
    Closes (c :: rest) := by
  intro d hd
  rwa [← Option.some.inj hd]

/-! ## Arrays -/

/-- Elements are read up to the bracket. -/
theorem readElements_scalars {element : Document} {elements : List Document} {text : List Char}
    {texts : List (List Char)} (h : List.Forall₂ Scalar (element :: elements) (text :: texts))
    {depth : ℕ} (hdepth : texts.length + 2 ≤ depth) (rest : List Char) :
    readElements depth ([','].intercalate (text :: texts) ++ ']' :: rest)
      = some (element :: elements, rest) := by
  induction texts generalizing element elements text depth with
  | nil =>
    obtain ⟨hfirst, hrest⟩ := List.forall₂_cons.mp h
    cases hrest
    obtain ⟨depth, rfl⟩ := Nat.exists_eq_add_of_le' hdepth
    rw [List.intercalate_singleton]
    exact readElements_last
      (readDocument_scalar_text hfirst (closes_cons (.inr (.inl rfl)) rest) (Nat.succ_pos depth))
  | cons next texts ih =>
    obtain ⟨hfirst, hothers⟩ := List.forall₂_cons.mp h
    obtain ⟨second, elements, -, -, rfl⟩ := List.forall₂_cons_right_iff.mp hothers
    obtain ⟨depth, rfl⟩ := Nat.exists_eq_add_of_le' (Nat.one_le_of_lt hdepth)
    rw [List.length_cons] at hdepth
    rw [List.intercalate_cons_cons, List.append_assoc, List.append_assoc, List.singleton_append]
    exact readElements_cons
      (readDocument_scalar_text hfirst (closes_cons (.inl rfl) _) (by omega))
      (ih hothers (by omega))

/-- Texts that are not empty are no more than the characters of all of them. -/
theorem length_le_length_intercalate {α : Type} {IsText : α → List Char → Prop}
    (hne : ∀ a text, IsText a text → text ≠ []) {as : List α} {texts : List (List Char)}
    (h : List.Forall₂ IsText as texts) :
    texts.length ≤ ([','].intercalate texts).length := by
  induction h with
  | nil => exact Nat.zero_le _
  | @cons a text as texts hfirst _ ih =>
    have hpos := List.length_pos_iff.mpr (hne a text hfirst)
    cases texts with
    | nil =>
      rw [List.intercalate_singleton]
      exact hpos
    | cons next texts =>
      rw [List.intercalate_cons_cons, List.length_append, List.length_append, List.length_cons]
      omega

theorem Scalar.ne_nil {document : Document} {cs : List Char} (h : Scalar document cs) :
    cs ≠ [] := by
  obtain ⟨c, others, rfl, -, -⟩ := h.exists_cons
  exact List.cons_ne_nil _ _

theorem Member.ne_nil {member : List Char × Document} {cs : List Char} (h : Member member cs) :
    cs ≠ [] := by
  cases h
  exact List.cons_ne_nil _ _

theorem exists_intercalate_cons (c : Char) (others : List Char) (texts : List (List Char)) :
    ∃ rest, [','].intercalate ((c :: others) :: texts) = c :: rest := by
  cases texts with
  | nil => exact ⟨_, List.intercalate_singleton⟩
  | cons next texts => exact ⟨_, List.intercalate_cons_cons⟩

/-- An array of scalars is read as it is written. -/
theorem ofChars?_array {elements : List Document} {texts : List (List Char)}
    (h : List.Forall₂ Scalar elements texts) :
    ofChars? ('[' :: ([','].intercalate texts ++ [']'])) = some (.array elements) := by
  have hbound := length_le_length_intercalate (fun _ _ => Scalar.ne_nil) h
  cases texts with
  | nil =>
    cases h
    rfl
  | cons text texts =>
    obtain ⟨element, elements, hfirst, -, rfl⟩ := List.forall₂_cons_right_iff.mp h
    have hdepth : texts.length + 2
        ≤ 2 * ('[' :: ([','].intercalate (text :: texts) ++ [']'])).length := by
      simp only [List.length_cons, List.length_append, List.length_nil] at hbound ⊢
      omega
    have helements := readElements_scalars h hdepth []
    -- the first thing between the brackets is no bracket
    obtain ⟨c, others, rfl, hblank, hclose⟩ := hfirst.exists_cons
    obtain ⟨inner, hinner⟩ := exists_intercalate_cons c others texts
    rw [hinner, List.cons_append] at helements ⊢
    rw [ofChars?, readDocument_array hblank hclose helements]
    rfl

/-! ## Objects -/

/-- Members are read up to the brace. -/
theorem readMembers_scalars {member : List Char × Document} {members : List (List Char × Document)}
    {text : List Char} {texts : List (List Char)}
    (h : List.Forall₂ Member (member :: members) (text :: texts)) {depth : ℕ}
    (hdepth : texts.length + 2 ≤ depth) (rest : List Char) :
    readMembers depth ([','].intercalate (text :: texts) ++ '\x7d' :: rest)
      = some ((member :: members).map (fun m => (some m.1, m.2)), rest) := by
  induction texts generalizing member members text depth with
  | nil =>
    obtain ⟨⟨hkey, hcontent⟩, hrest⟩ := List.forall₂_cons.mp h
    cases hrest
    obtain ⟨depth, rfl⟩ := Nat.exists_eq_add_of_le' hdepth
    rw [List.intercalate_singleton, List.cons_append, List.append_assoc]
    exact readMembers_last hkey
      (readDocument_scalar_text hcontent (closes_cons (.inr (.inr rfl)) rest) (Nat.succ_pos depth))
  | cons next texts ih =>
    obtain ⟨⟨hkey, hcontent⟩, hothers⟩ := List.forall₂_cons.mp h
    obtain ⟨second, members, -, -, rfl⟩ := List.forall₂_cons_right_iff.mp hothers
    obtain ⟨depth, rfl⟩ := Nat.exists_eq_add_of_le' (Nat.one_le_of_lt hdepth)
    rw [List.length_cons] at hdepth
    rw [List.intercalate_cons_cons]
    simp only [List.cons_append, List.append_assoc, List.nil_append]
    exact readMembers_cons hkey
      (readDocument_scalar_text hcontent (closes_cons (.inl rfl) _) (by omega))
      (ih hothers (by omega))

/-- An object of scalars is read as it is written. -/
theorem ofChars?_object {members : List (List Char × Document)} {texts : List (List Char)}
    (h : List.Forall₂ Member members texts) :
    ofChars? ('\x7b' :: ([','].intercalate texts ++ ['\x7d']))
      = some (.object (members.map (fun m => (some m.1, m.2)))) := by
  have hbound := length_le_length_intercalate (fun _ _ => Member.ne_nil) h
  cases texts with
  | nil =>
    cases h
    rfl
  | cons text texts =>
    obtain ⟨member, members, hfirst, -, rfl⟩ := List.forall₂_cons_right_iff.mp h
    have hdepth : texts.length + 2
        ≤ 2 * ('\x7b' :: ([','].intercalate (text :: texts) ++ ['\x7d'])).length := by
      simp only [List.length_cons, List.length_append, List.length_nil] at hbound ⊢
      omega
    have hmembers := readMembers_scalars h hdepth []
    -- the first thing between the braces is a quote
    obtain ⟨-, -⟩ := hfirst
    obtain ⟨inner, hinner⟩ := exists_intercalate_cons '"' _ texts
    rw [hinner, List.cons_append] at hmembers ⊢
    rw [ofChars?, readDocument_object (by decide) (by decide) hmembers]
    rfl

end ValueStream.Json
