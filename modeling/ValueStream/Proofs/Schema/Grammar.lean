import ValueStream.Proofs.Results
import ValueStream.Proofs.Text.Plain
import ValueStream.Schema

/-!
What texts are read as schemas, and where the others are at fault.

A text is cut at its commas and the blanks around each part are dropped; the
parts of which something is left are its names (`Names`). A name is that of a
kind up to the case of its letters (`Kind.IsNamed`), and of one kind only
(`ofAnyCase?_eq_some_iff`). Blank parts are gone before any name is looked at,
so a name that is none is the fault even where all else is blank, and a text is
empty only if nothing is left of it (`names_or_fault`). The text that a schema
is written as has the names of its kinds, so it is read as any list of those
kinds is taken (`ofText_text`).
-/

namespace ValueStream

/-! ## Letters of either case -/

namespace Text

/-- A letter from A to Z, and the small letter that it goes with. -/
def IsCapitalOf (capital small : Char) : Prop :=
  'A'.toNat ≤ capital.toNat ∧ capital.toNat ≤ 'Z'.toNat ∧ small.toNat = capital.toNat + 32

/-- The same character, or the same letter of ASCII in the other case. -/
def SameLetter (c d : Char) : Prop := c = d ∨ IsCapitalOf c d ∨ IsCapitalOf d c

theorem toNat_toLower (c : Char) :
    c.toLower.toNat = if 'A'.toNat ≤ c.toNat ∧ c.toNat ≤ 'Z'.toNat then c.toNat + 32 else c.toNat := by
  unfold Char.toLower
  by_cases h : c.val ≥ 'A'.val ∧ c.val ≤ 'Z'.val
  · have hrange : 'A'.toNat ≤ c.toNat ∧ c.toNat ≤ 'Z'.toNat := h
    have hZ : 'Z'.toNat = 90 := rfl
    rw [dif_pos h, if_pos hrange]
    show (c.val + ('a'.val - 'A'.val)).toNat = c.val.toNat + 32
    have hc : c.val.toNat ≤ 90 := hrange.2
    rw [UInt32.toNat_add]
    have h32 : ('a'.val - 'A'.val).toNat = 32 := rfl
    rw [h32, Nat.mod_eq_of_lt (by omega)]
  · have hrange : ¬('A'.toNat ≤ c.toNat ∧ c.toNat ≤ 'Z'.toNat) := h
    rw [dif_neg h, if_neg hrange]

theorem toLower_eq_iff {c d : Char} : c.toLower = d.toLower ↔ SameLetter c d := by
  rw [← Char.toNat_inj, toNat_toLower, toNat_toLower, SameLetter, IsCapitalOf, IsCapitalOf,
    ← Char.toNat_inj]
  have hA : 'A'.toNat = 65 := rfl
  have hZ : 'Z'.toNat = 90 := rfl
  rw [hA, hZ]
  split <;> split <;> omega

theorem sameLetters_iff {as bs : List Char} :
    sameLetters as bs = true ↔ List.Forall₂ SameLetter as bs := by
  rw [sameLetters, beq_iff_eq, ← List.forall₂_eq_eq_eq, List.forall₂_map_left_iff,
    List.forall₂_map_right_iff]
  simp only [toLower_eq_iff]

end Text

/-! ## Names of kinds -/

namespace Kind

/-- The text is the name of the kind, the case of its letters aside. -/
def IsNamed (k : Kind) (name : List Char) : Prop := List.Forall₂ Text.SameLetter k.name.toList name

/-- Names are written in small letters, and no two kinds have the same. -/
theorem eq_of_sameLetters {j k : Kind} {name : List Char}
    (hj : Text.sameLetters j.name.toList name = true)
    (hk : Text.sameLetters k.name.toList name = true) : j = k := by
  rw [Text.sameLetters, beq_iff_eq] at hj hk
  have hnames := hj.trans hk.symm
  clear hj hk
  revert hnames
  cases j <;> cases k <;> decide

theorem ofAnyCase?_eq_some_iff {name : List Char} {k : Kind} :
    ofAnyCase? name = some k ↔ k.IsNamed name := by
  rw [IsNamed, ← Text.sameLetters_iff, ofAnyCase?]
  generalize hsame : (fun k : Kind => Text.sameLetters k.name.toList name) = same
  have hname : ∀ k, Text.sameLetters k.name.toList name = same k := fun k => congrFun hsame k
  rw [hname]
  constructor
  · exact fun h => List.find?_some h
  · intro h
    obtain ⟨j, hj⟩ := Option.isSome_iff_exists.mp (List.find?_isSome.mpr ⟨k, k.mem_all, h⟩)
    have hsome : same j = true := List.find?_some hj
    rw [hj, eq_of_sameLetters ((hname j).trans hsome) ((hname k).trans h)]

/-- A part is read as the kind that what is left of it names. -/
theorem ofChars_of_isNamed {part : List Char} {k : Kind} (h : k.IsNamed (Text.trim part)) :
    ofChars part = .ok k := by
  rw [ofChars, ofAnyCase?_eq_some_iff.mpr h]

theorem ofChars_of_not_isNamed {part : List Char} (h : ¬∃ k : Kind, k.IsNamed (Text.trim part)) :
    ofChars part = .error (.unknownKind (String.ofList (Text.trim part))) := by
  have hnone : ofAnyCase? (Text.trim part) = none :=
    Option.eq_none_iff_forall_ne_some.mpr (fun k hk => h ⟨k, ofAnyCase?_eq_some_iff.mp hk⟩)
  rw [ofChars, hnone]

theorem isNamed_name (k : Kind) : k.IsNamed k.name.toList :=
  Text.sameLetters_iff.mp (beq_self_eq_true _)

theorem isPlain_name (k : Kind) {c : Char} (h : c ∈ k.name.toList) : Text.IsPlain c := by
  cases k <;> exact Text.isPlain_of_all (by decide) h

theorem name_ne_nil (k : Kind) : k.name.toList ≠ [] := by
  cases k <;> decide

end Kind

/-! ## Names in a text -/

namespace Schema

/-- What stands between the commas of a text without the blanks around it, where there is
anything but blanks. -/
def Names (cs : List Char) (names : List (List Char)) : Prop :=
  ∃ parts trimmed, Text.IsSplit ',' cs parts ∧ List.Forall₂ Text.IsTrimmed trimmed parts
    ∧ names = trimmed.filter (fun name => !name.isEmpty)

/-- What is wrong with names that are not those of a schema: the first that names no kind, or that
there are none. -/
inductive Faulty (names : List (List Char)) : ParseError → Prop where
  | unknown {before name after} : names = before ++ name :: after →
      (∀ other ∈ before, ∃ k : Kind, k.IsNamed other) → (¬∃ k : Kind, k.IsNamed name) →
      Faulty names (.unknownKind (String.ofList name))
  | none : names = [] → Faulty names .emptySchema

theorem names_iff {cs : List Char} {names : List (List Char)} :
    Names cs names
      ↔ ((Text.split ',' cs).filter (fun part => !(Text.trim part).isEmpty)).map Text.trim = names := by
  have hfilter : ∀ parts : List (List Char),
      (parts.filter (fun part => !(Text.trim part).isEmpty)).map Text.trim
        = (parts.map Text.trim).filter (fun name => !name.isEmpty) := by
    intro parts
    rw [List.filter_map]
    rfl
  rw [hfilter]
  constructor
  · rintro ⟨parts, trimmed, hparts, htrimmed, rfl⟩
    have hmap : parts.map Text.trim = trimmed := by
      rw [← List.forall₂_eq_eq_eq, List.forall₂_map_left_iff]
      exact htrimmed.flip.imp (fun _ _ h => Text.isTrimmed_iff.mp h)
    rw [Text.isSplit_iff.mp hparts, hmap]
  · rintro rfl
    refine ⟨_, _, Text.isSplit_iff.mpr rfl, ?_, rfl⟩
    exact List.forall₂_map_left_iff.mpr
      (List.forall₂_same.mpr (fun part _ => Text.isTrimmed_trim part))

theorem kindsOf_ok {parts : List (List Char)} {ks : List Kind}
    (h : List.Forall₂ Kind.IsNamed ks (parts.map Text.trim)) : kindsOf parts = .ok ks := by
  induction parts generalizing ks with
  | nil =>
    cases h
    rfl
  | cons part parts ih =>
    cases h with
    | cons hk hks =>
      rw [kindsOf, Kind.ofChars_of_isNamed hk, ih hks]
      rfl

theorem kindsOf_error {parts before after : List (List Char)} {part : List Char}
    (hparts : parts = before ++ part :: after)
    (hbefore : ∀ other ∈ before, ∃ k : Kind, k.IsNamed (Text.trim other))
    (hpart : ¬∃ k : Kind, k.IsNamed (Text.trim part)) :
    kindsOf parts = .error (.unknownKind (String.ofList (Text.trim part))) := by
  subst hparts
  induction before with
  | nil =>
    rw [List.nil_append, kindsOf, Kind.ofChars_of_not_isNamed hpart]
    rfl
  | cons other before ih =>
    obtain ⟨⟨k, hk⟩, hbefore⟩ := List.forall_mem_cons.mp hbefore
    rw [List.cons_append, kindsOf, Kind.ofChars_of_isNamed hk, ih hbefore]
    rfl

theorem ofChars_eq (cs : List Char) :
    ofChars cs
      = (kindsOf ((Text.split ',' cs).filter (fun part => !(Text.trim part).isEmpty))).bind ofKinds :=
  rfl

theorem ofChars_of_names {cs : List Char} {names : List (List Char)} (hnames : Names cs names)
    {ks : List Kind} (h : List.Forall₂ Kind.IsNamed ks names) : ofChars cs = ofKinds ks := by
  rw [← names_iff.mp hnames] at h
  rw [ofChars_eq, kindsOf_ok h]
  rfl

theorem ofChars_of_faulty {cs : List Char} {names : List (List Char)} (hnames : Names cs names)
    {e : ParseError} (h : Faulty names e) : ofChars cs = .error e := by
  cases h with
  | unknown hsplit hbefore hname =>
    rw [← names_iff.mp hnames] at hsplit
    -- names are cut into those before and after the fault where their parts are
    obtain ⟨before, rest, hparts, rfl, hrest⟩ := List.map_eq_append_iff.mp hsplit
    obtain ⟨part, after, rfl, rfl, rfl⟩ := List.map_eq_cons_iff.mp hrest
    have hothers : ∀ other ∈ before, ∃ k : Kind, k.IsNamed (Text.trim other) :=
      fun other hother => hbefore _ (List.mem_map_of_mem hother)
    rw [ofChars_eq, kindsOf_error hparts hothers hname]
    rfl
  | none hnone =>
    subst hnone
    rw [ofChars_of_names hnames .nil]
    rfl

/-- Names are those of the kinds of a schema, or something is wrong with them. -/
theorem names_or_fault (names : List (List Char)) :
    (∃ s : Schema, names ≠ [] ∧ List.Forall₂ Kind.IsNamed s.kinds names) ∨ ∃ e, Faulty names e := by
  rcases names.eq_nil_or_concat with hnone | hsome
  · exact .inr ⟨_, .none hnone⟩
  · have hne : names ≠ [] := by
      obtain ⟨front, last, rfl⟩ := hsome
      simp
    rcases forall₂_or_first (fun name (k : Kind) => k.IsNamed name) names
      with ⟨ks, hks⟩ | ⟨before, name, after, hsplit, hbefore, hname⟩
    · exact .inl ⟨⟨ks⟩, hne, hks.flip⟩
    · exact .inr ⟨_, .unknown hsplit hbefore hname⟩

theorem ofKinds_of_ne_nil {ks : List Kind} (h : ks ≠ []) : ofKinds ks = .ok ⟨ks⟩ := by
  cases ks with
  | nil => exact absurd rfl h
  | cons k ks => rfl

/-! ## The text of a schema -/

/-- A schema is written as the names of its kinds. -/
theorem names_chars (s : Schema) : Names s.chars (s.kinds.map (fun k => k.name.toList)) := by
  have hplain : ∀ name ∈ s.kinds.map (fun k => k.name.toList), ∀ c ∈ name, Text.IsPlain c := by
    intro name hname c hc
    obtain ⟨k, -, rfl⟩ := List.mem_map.mp hname
    exact k.isPlain_name hc
  have hnonempty : ∀ name ∈ s.kinds.map (fun k => k.name.toList), name ≠ [] := by
    intro name hname
    obtain ⟨k, -, rfl⟩ := List.mem_map.mp hname
    exact k.name_ne_nil
  unfold chars
  generalize s.kinds.map (fun k => k.name.toList) = names at hplain hnonempty
  rw [names_iff]
  cases names with
  | nil => rfl
  | cons first others =>
    have hclean : ∀ name ∈ first :: others, ',' ∉ name := fun name hname hcomma =>
      (hplain name hname ',' hcomma).ne_of_lt (by decide) rfl
    have htrim : ∀ name ∈ first :: others, Text.trim name = name := fun name hname =>
      Text.trim_of_plain (hplain name hname)
    rw [Text.split_join (List.cons_ne_nil _ _) hclean, List.filter_eq_self.mpr]
    · exact (List.map_congr_left htrim).trans (List.map_id _)
    · intro name hname
      rw [htrim name hname]
      simpa using hnonempty name hname

/-- The text of a schema is read as its kinds are taken. -/
theorem ofText_text (s : Schema) : ofText s.text = ofKinds s.kinds := by
  rw [ofText, text, String.toList_ofList]
  apply ofChars_of_names (names_chars s)
  exact List.forall₂_map_right_iff.mpr (List.forall₂_same.mpr (fun k _ => k.isNamed_name))

/-- A text is read as the kinds that its names name, in order, if there are any and each names a
kind; otherwise the first that names none is refused, or the text as empty if there are none.
What a schema is written as is read as its kinds are taken, so writing what was read and reading
that gives the same again. -/
theorem ofText_exactly (text : String) (ks : List Kind) :
    (∀ s, ofText text = .ok s
        ↔ ∃ names, Names text.toList names ∧ names ≠ [] ∧ List.Forall₂ Kind.IsNamed s.kinds names)
      ∧ (∀ e, ofText text = .error e ↔ ∃ names, Names text.toList names ∧ Faulty names e)
      ∧ ofText (Schema.mk ks).text = ofKinds ks
      ∧ ∀ s, ofText text = .ok s → ofText s.text = .ok s := by
  have hsound : ∀ s : Schema,
      (∃ names, Names text.toList names ∧ names ≠ [] ∧ List.Forall₂ Kind.IsNamed s.kinds names) →
        ofText text = .ok s := by
    rintro s ⟨names, hnames, hne, hkinds⟩
    rw [ofText, ofChars_of_names hnames hkinds, ofKinds_of_ne_nil]
    rintro hnil
    rw [hnil, List.forall₂_nil_left_iff] at hkinds
    exact hne hkinds
  have hfirst : ∀ e, (∃ names, Names text.toList names ∧ Faulty names e) →
      ofText text = .error e := by
    rintro e ⟨names, hnames, hfaulty⟩
    exact ofChars_of_faulty hnames hfaulty
  have htotal : (∃ s : Schema, ∃ names, Names text.toList names ∧ names ≠ []
      ∧ List.Forall₂ Kind.IsNamed s.kinds names)
        ∨ ∃ e, ∃ names, Names text.toList names ∧ Faulty names e := by
    obtain ⟨names, hnames⟩ : ∃ names, Names text.toList names := ⟨_, names_iff.mpr rfl⟩
    rcases names_or_fault names with ⟨s, hs⟩ | ⟨e, he⟩
    · exact .inl ⟨s, names, hnames, hs⟩
    · exact .inr ⟨e, names, hnames, he⟩
  obtain ⟨hok, herror⟩ := ok_iff_and_error_iff hsound hfirst htotal
  refine ⟨hok, herror, ofText_text ⟨ks⟩, ?_⟩
  intro s hs
  obtain ⟨names, -, hne, hkinds⟩ := (hok s).mp hs
  rw [ofText_text, ofKinds_of_ne_nil]
  rintro hnil
  rw [hnil, List.forall₂_nil_left_iff] at hkinds
  exact hne hkinds

/-- Capitals, blanks of several kinds and parts that are nothing but blanks, read and written
again; behind the first unknown name another one does not count. -/
theorem ofText_exactly_of_blank_parts :
    let text := " Int ,, \u3000DOUBLE,\t"
    let s : Schema := ⟨[.int, .double]⟩
    ofText text = .ok s ∧ s.text = "int,double" ∧ ofText s.text = .ok s
      ∧ ofText " , Word\t,int,byt" = .error (.unknownKind "Word") := by
  intro text s
  have hread : ofText text = .ok s := by decide +kernel
  have htext : s.text = "int,double" := by decide +kernel
  have hnames : Names " , Word\t,int,byt".toList ["Word".toList, "int".toList, "byt".toList] :=
    names_iff.mpr (by decide +kernel)
  have hunknown : ¬∃ k : Kind, k.IsNamed "Word".toList := by
    rintro ⟨k, hk⟩
    have hname := Kind.ofAnyCase?_eq_some_iff.mpr hk
    revert hname
    cases k <;> decide +kernel
  have hnone : ∀ name ∈ ([] : List (List Char)), ∃ k : Kind, k.IsNamed name := List.forall_mem_nil _
  have hfaulty : Faulty ["Word".toList, "int".toList, "byt".toList] (.unknownKind "Word") :=
    .unknown rfl hnone hunknown
  obtain ⟨-, -, -, hagain⟩ := ofText_exactly text s.kinds
  obtain ⟨-, herror, -, -⟩ := ofText_exactly " , Word\t,int,byt" []
  exact ⟨hread, htext, hagain s hread, (herror _).mpr ⟨_, hnames, hfaulty⟩⟩

end Schema

end ValueStream
