import ValueStream.Proofs.Json.Library
import ValueStream.Proofs.Schema.Grammar

/-!
Where schemas come from, and which of them have no kinds.

A schema is made of a list of kinds, read from a text or read from a JSON text
(`Origin`). The first two refuse to make one of no kinds. The third takes any
array of names, so an array of none makes a schema of none
(`schema?_eq_empty_iff`) and nothing else does (`kinds_eq_nil_iff`). Every
schema is read back from its JSON text (`schema?_json`), and from its own text if
it has a kind. All of it holds with any lawful library
(`survives_iff_of_lawful`), and so with the standard one.
-/

namespace ValueStream

open Json

namespace Kind

/-- A name between quotes. -/
def quoted (k : Kind) : List Char := '"' :: (k.name.toList ++ ['"'])

theorem isOrdinary_name (k : Kind) : ∀ c ∈ k.name.toList, IsOrdinary c := by
  cases k <;> exact isOrdinary_of_all (by decide)

theorem ofName?_name (k : Kind) : ofName? k.name = some k := by
  cases k <;> decide

theorem ofJson?_name (k : Kind) : ofJson? (.string (some k.name.toList)) = some k := by
  have hname : (Document.string (some k.name.toList)).name? = some k.name := by
    rw [Document.name?, Option.map_some, String.ofList_toList]
  rw [ofJson?, hname, Option.bind_some, ofName?_name]

theorem toList_json (k : Kind) : k.json.toList = k.quoted := by
  rw [json, String.toList_append, String.toList_append]
  rfl

end Kind

namespace Schema

/-- The ways in which a schema is made. -/
inductive Origin where
  /-- A list of kinds. -/
  | kinds (ks : List Kind)
  /-- The names of its kinds, with commas between them. -/
  | text (text : String)
  /-- A JSON text. -/
  | json (text : String)
  deriving DecidableEq

/-- The schema that is made with a library, if it is not refused. -/
def Origin.schemaBy? (lib : Json.Library) : Origin → Option Schema
  | kinds ks => (ofKinds ks).toOption
  | text t => (ofText t).toOption
  | json t => lib.schema? t

def Origin.schema? : Origin → Option Schema := Origin.schemaBy? .standard

/-! ## Schemas as JSON -/

theorem toList_json (s : Schema) :
    s.json.toList = '[' :: ([','].intercalate (s.kinds.map Kind.quoted) ++ [']']) := by
  have hkinds : (s.kinds.map Kind.json).map String.toList = s.kinds.map Kind.quoted := by
    rw [List.map_map]
    exact List.map_congr_left (fun k _ => k.toList_json)
  rw [json, String.toList_append, String.toList_append, String.toList_intercalate, hkinds]
  rfl

theorem ofJson?_names (ks : List Kind) :
    ofJson? (.array (ks.map (fun k => .string (some k.name.toList)))) = some ⟨ks⟩ := by
  have hmap : (ks.map (fun k => Document.string (some k.name.toList))).mapM Kind.ofJson? = some ks := by
    induction ks with
    | nil => rfl
    | cons k ks ih =>
      rw [List.map_cons, List.mapM_cons, ih, Kind.ofJson?_name]
      rfl
  rw [ofJson?, hmap]
  rfl

section

variable {lib : Json.Library} (h : lib.Lawful)

include h in
/-- Every schema is read back from its JSON text, also one of no kinds. -/
theorem schema?_json (s : Schema) : lib.schema? s.json = some s := by
  have hnames : List.Forall₂ Scalar (s.kinds.map (fun k => .string (some k.name.toList)))
      (s.kinds.map Kind.quoted) := by
    rw [List.forall₂_map_left_iff, List.forall₂_map_right_iff, List.forall₂_same]
    exact fun k _ => .string k.isOrdinary_name
  rw [Library.schema?, toList_json, h.array hnames]
  exact ofJson?_names s.kinds

include h in
/-- An array without elements is read as a schema of no kinds, and nothing else is. -/
theorem schema?_eq_empty_iff {text : String} :
    lib.schema? text = some ⟨[]⟩ ↔ IsEmptyArray text.toList := by
  rw [← h.empty, Library.schema?]
  constructor
  · intro hread
    obtain ⟨document, hdocument, hschema⟩ := Option.bind_eq_some_iff.mp hread
    unfold ofJson? at hschema
    split at hschema
    · next elements =>
      obtain ⟨ks, hks, heq⟩ := Option.map_eq_some_iff.mp hschema
      cases heq
      cases elements with
      | nil => exact hdocument
      | cons element elements =>
        simp only [List.mapM_cons, Option.bind_eq_bind, Option.bind_eq_some_iff] at hks
        obtain ⟨k, -, others, -, heq⟩ := hks
        cases heq
    · cases hschema
  · intro hread
    rw [hread]
    rfl

end

/-! ## Schemas of no kinds -/

theorem ofKinds_eq_ok_iff {ks : List Kind} {s : Schema} :
    ofKinds ks = .ok s ↔ s.kinds = ks ∧ ks ≠ [] := by
  constructor
  · intro h
    cases ks with
    | nil => cases h
    | cons k ks =>
      cases h
      exact ⟨rfl, List.cons_ne_nil k ks⟩
  · rintro ⟨rfl, hne⟩
    exact ofKinds_of_ne_nil hne

theorem kinds_ne_nil_of_ofText {text : String} {s : Schema} (h : ofText text = .ok s) :
    s.kinds ≠ [] := by
  rw [ofText, ofChars] at h
  cases hkinds : kindsOf ((Text.split ',' text.toList).filter fun part => !(Text.trim part).isEmpty)
  with
  | error e =>
    rw [hkinds] at h
    cases h
  | ok ks =>
    rw [hkinds] at h
    obtain ⟨rfl, hne⟩ := ofKinds_eq_ok_iff.mp h
    exact hne

section

variable {lib : Json.Library} (hlib : lib.Lawful)

include hlib in
/-- The schemas without a kind are those read from an array without elements. -/
theorem Origin.kinds_eq_nil_iff {o : Origin} {s : Schema} (h : o.schemaBy? lib = some s) :
    s.kinds = [] ↔ ∃ text, o = .json text ∧ IsEmptyArray text.toList := by
  cases o with
  | kinds ks =>
    obtain ⟨rfl, hne⟩ := ofKinds_eq_ok_iff.mp (toOption_eq_some_iff.mp h)
    simp only [hne, reduceCtorEq, false_and, exists_false]
  | text t =>
    have hne := kinds_ne_nil_of_ofText (toOption_eq_some_iff.mp h)
    simp only [hne, reduceCtorEq, false_and, exists_false]
  | json t =>
    have hread : lib.schema? t = some s := h
    rw [show s.kinds = [] ↔ s = ⟨[]⟩ by obtain ⟨ks⟩ := s; simp only [Schema.mk.injEq]]
    simp only [Origin.json.injEq, exists_eq_left', ← schema?_eq_empty_iff hlib, hread,
      Option.some.injEq]

include hlib in
/-- With any lawful library, the schemas without a kind are read from an array without elements.
They are the ones that their own text does not give back, since it is the empty text; the JSON text
gives every schema back. -/
theorem Origin.survives_iff_of_lawful {o : Origin} {s : Schema} (h : o.schemaBy? lib = some s) :
    (ofText s.text = .ok s ↔ ¬∃ text, o = .json text ∧ IsEmptyArray text.toList)
      ∧ (s.kinds = [] ↔ ∃ text, o = .json text ∧ IsEmptyArray text.toList)
      ∧ (s.kinds = [] → s.text = "" ∧ ofText s.text = .error .emptySchema)
      ∧ lib.schema? s.json = some s := by
  have hkinds := Origin.kinds_eq_nil_iff hlib h
  refine ⟨?_, hkinds, ?_, schema?_json hlib s⟩
  · rw [ofText_text, ofKinds_eq_ok_iff, ← hkinds]
    simp only [true_and, ne_eq]
  · intro hnil
    obtain ⟨ks⟩ := s
    obtain rfl : ks = [] := hnil
    exact ⟨rfl, ofText_text ⟨[]⟩⟩

end

/-- Of the schemas that are made at all, those without a kind are read from an array without
elements. They are the ones that their own text does not give back, since it is the empty text;
the JSON text gives every schema back. -/
theorem Origin.survives_iff (o : Origin) (s : Schema) (h : o.schema? = some s) :
    (ofText s.text = .ok s ↔ ¬∃ text, o = .json text ∧ IsEmptyArray text.toList)
      ∧ (s.kinds = [] ↔ ∃ text, o = .json text ∧ IsEmptyArray text.toList)
      ∧ (s.kinds = [] → s.text = "" ∧ ofText s.text = .error .emptySchema)
      ∧ ofJsonText? s.json = some s :=
  Origin.survives_iff_of_lawful Library.standard_lawful h

/-- Names with blanks around them and one as an object, and brackets with blanks between them. -/
theorem Origin.survives_iff_of_blanks :
    let full : Origin := .json "[ \"int\",\t\x7b\"bool\" : null\x7d ]"
    let none : Origin := .json " [\n]"
    let s : Schema := ⟨[.int, .bool]⟩
    (full.schema? = some s ∧ ofText s.text = .ok s)
      ∧ (none.schema? = some ⟨[]⟩ ∧ ofText (Schema.mk []).text = .error .emptySchema) := by
  intro full none s
  have hfull : full.schema? = some s := by decide +kernel
  have hnone : none.schema? = some ⟨[]⟩ := by decide +kernel
  obtain ⟨htext, hkinds, -, -⟩ := Origin.survives_iff full s hfull
  obtain ⟨-, -, hrefused, -⟩ := Origin.survives_iff none ⟨[]⟩ hnone
  have hne : s.kinds ≠ [] := List.cons_ne_nil _ _
  exact ⟨⟨hfull, htext.mpr (fun h => hne (hkinds.mpr h))⟩, hnone, (hrefused rfl).2⟩

/-- Two brackets make a schema without a kind, which its own text does not give back. -/
theorem Origin.brackets_survive_not :
    let s : Schema := ⟨[]⟩
    (Origin.json "[]").schema? = some s ∧ s.kinds = [] ∧ ofText s.text = .error .emptySchema
      ∧ ¬∀ (o : Origin) (s : Schema), o.schema? = some s →
        s.kinds ≠ [] ∧ ofText s.text = .ok s ∧ ofJsonText? s.json = some s := by
  intro s
  have hread : (Origin.json "[]").schema? = some s := by decide +kernel
  have hrefused : ofText s.text = .error .emptySchema := ofText_text s
  refine ⟨hread, rfl, hrefused, ?_⟩
  intro hall
  obtain ⟨hne, -, -⟩ := hall _ s hread
  exact hne rfl

end Schema

end ValueStream
