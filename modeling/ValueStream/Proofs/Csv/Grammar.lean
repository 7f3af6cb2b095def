import ValueStream.Proofs.Csv
import ValueStream.Proofs.Results

/-!
What files are read as records, and where the others are at fault.

A file is cut into lines that end at a line feed or at a carriage return and a
line feed (`Cuts`); what is left of the return on a line is a blank and changes
nothing (`textOf_concat_return`). A line is blank, a comment or a record
(`Carries`) or it is at fault (`Faulty`): its text, the count of its fields and
then the fields from the left decide (`recordOf_exactly`). The records of a file
are those of its lines in order, and its fault is that of the first line that has
one (`recordsFrom_of_carries`, `recordsFrom_of_faulty`). Either is the case
(`carryAll_or_firstFault`), so what is read tells which of them (`records_exactly`).

A fault is reported in words. They say which line it is and what is wrong with it
(`says_message`), and no two faults have the same (`Says.unique`).
-/

namespace ValueStream.Csv

/-! ## Lines and their ends -/

/-- The lines of a file, without the line feeds that end them and the carriage returns before
those; the last line may lack its end. -/
inductive Cuts : List UInt8 → List (List UInt8) → Prop where
  | nil : Cuts [] []
  | unended {line} : line ≠ [] → 10 ∉ line → Cuts line [line]
  | newline {line rest ls} : 10 ∉ line → line.getLast? ≠ some 13 → Cuts rest ls →
      Cuts (line ++ 10 :: rest) (line :: ls)
  | returned {line rest ls} : 10 ∉ line → Cuts rest ls →
      Cuts (line ++ 13 :: 10 :: rest) (line :: ls)

theorem exists_cuts (file : List UInt8) : ∃ ls, Cuts file ls := by
  induction hsize : file.length using Nat.strong_induction_on generalizing file with
  | _ size ih =>
    by_cases hfeed : 10 ∈ file
    · -- the first line feed ends the first line
      obtain ⟨line, rest, rfl, hline⟩ := List.eq_append_cons_of_mem hfeed
      have hlt : rest.length < size := by
        rw [← hsize, List.length_append, List.length_cons]
        omega
      obtain ⟨ls, hls⟩ := ih rest.length hlt rest rfl
      by_cases hreturn : line.getLast? = some 13
      · obtain ⟨front, rfl⟩ := List.getLast?_eq_some_iff.mp hreturn
        refine ⟨front :: ls, ?_⟩
        rw [List.append_assoc]
        exact .returned (fun h => hline (List.mem_append_left _ h)) hls
      · exact ⟨line :: ls, .newline hline hreturn hls⟩
    · cases file with
      | nil => exact ⟨[], .nil⟩
      | cons b bs => exact ⟨[b :: bs], .unended (List.cons_ne_nil _ _) hfeed⟩

/-- A line is cut off with nothing but a carriage return left on it. -/
theorem Cuts.lines {file : List UInt8} {ls : List (List UInt8)} (h : Cuts file ls) :
    List.Forall₂ (fun cut line => cut = line ∨ cut = line ++ [13]) (Csv.lines file) ls := by
  induction h with
  | nil => exact .nil
  | unended hne hline =>
    rw [lines_of_notMem hline hne]
    exact .cons (.inl rfl) .nil
  | newline hline _ _ ih =>
    rw [lines_append_newline hline]
    exact .cons (.inl rfl) ih
  | @returned line rest ls hline _ ih =>
    have hclean : 10 ∉ line ++ [13] := by simp [hline]
    rw [List.append_cons, lines_append_newline hclean]
    exact .cons (.inr rfl) ih

/-! ## Texts of lines -/

/-- The text of a line, blanks around it aside, if its bytes are those of characters. -/
def Reads (line : List UInt8) (t : List Char) : Prop :=
  ∃ cs, line = bytesOf cs ∧ Text.IsTrimmed t cs

theorem textOf_eq_some_iff {line : List UInt8} {t : List Char} :
    textOf line = some t ↔ Reads line t := by
  constructor
  · intro h
    obtain ⟨s, hs, rfl⟩ := Option.map_eq_some_iff.mp h
    refine ⟨s.toList, ?_, Text.isTrimmed_trim _⟩
    rw [← toList_toUTF8]
    unfold String.fromUTF8? at hs
    split at hs
    · cases hs
      rfl
    · cases hs
  · rintro ⟨cs, rfl, h⟩
    rw [textOf_bytesOf, Text.isTrimmed_iff.mp h]

theorem textOf_eq_none_iff {line : List UInt8} : textOf line = none ↔ ¬∃ t, Reads line t := by
  simp only [Option.eq_none_iff_forall_ne_some, Ne, textOf_eq_some_iff, not_exists]

/-- The byte of a carriage return at the end of a text is that character. -/
theorem exists_of_bytesOf_eq_concat {cs : List Char} {line : List UInt8}
    (h : bytesOf cs = line ++ [13]) : ∃ front, line = bytesOf front := by
  rcases List.eq_nil_or_concat cs with rfl | ⟨front, c, rfl⟩
  · simp [bytesOf] at h
  · rw [List.concat_eq_append, bytesOf_append] at h
    have hbytes : bytesOf [c] = String.utf8EncodeChar c := List.flatMap_singleton _ _
    have hlast : (String.utf8EncodeChar c).getLast? = some 13 := by
      have hboth := congrArg List.getLast? h
      rw [hbytes, List.getLast?_append_of_ne_nil _ String.utf8EncodeChar_ne_nil,
        List.getLast?_concat] at hboth
      exact hboth
    have hreturn : c = '\r' :=
      Char.toNat_inj.mp (toNat_eq_of_byte_mem (by decide) (List.mem_of_getLast? hlast))
    have hone : bytesOf ['\r'] = [13] := by decide
    rw [hreturn, hone] at h
    exact ⟨front, (List.append_cancel_right h).symm⟩

/-- A carriage return behind a line is a blank behind its text. -/
theorem textOf_concat_return (line : List UInt8) : textOf (line ++ [13]) = textOf line := by
  by_cases htext : ∃ cs, line = bytesOf cs
  · obtain ⟨cs, rfl⟩ := htext
    have hone : [13] = bytesOf ['\r'] := by decide
    rw [hone, ← bytesOf_append, textOf_bytesOf, textOf_bytesOf,
      Text.trim_append_blanks cs (List.forall_mem_singleton.mpr rfl)]
  · -- then there is no text behind which the return could stand either
    have hline : ¬∃ t, Reads line t := by
      rintro ⟨t, cs, hcs, -⟩
      exact htext ⟨cs, hcs⟩
    have hconcat : ¬∃ t, Reads (line ++ [13]) t := by
      rintro ⟨t, cs, hcs, -⟩
      exact htext (exists_of_bytesOf_eq_concat hcs.symm)
    rw [textOf_eq_none_iff.mpr hline, textOf_eq_none_iff.mpr hconcat]

theorem recordOf_concat_return (schema : Schema) (line : List UInt8) :
    recordOf schema (line ++ [13]) = recordOf schema line := by
  rw [recordOf, recordOf, textOf_concat_return]

/-! ## Fields -/

/-- A field is read as a value of the kind of its column. -/
def IsValue (column : Kind × List Char) (v : Value) : Prop :=
  Value.ofChars column.1 column.2 = .ok v

theorem kind_of_isValue {column : Kind × List Char} {v : Value} (h : IsValue column v) :
    v.kind = column.1 := by
  obtain ⟨kind, cs⟩ := column
  have hvalue : Value.ofTrimmed? kind (Text.trim cs) = some v := by
    unfold IsValue Value.ofChars at h
    dsimp only at h
    split at h
    · next w hw =>
      cases h
      exact hw
    · cases h
  exact Value.kind_of_ofTrimmed? hvalue

/-- A field that is no value of its kind is refused with the kind and what is left of it. -/
theorem ofChars_of_not_isValue {kind : Kind} {field t : List Char}
    (h : ¬∃ v, IsValue (kind, field) v) (ht : Text.IsTrimmed t field) :
    Value.ofChars kind field = .error (.invalidValue kind (String.ofList t)) := by
  unfold IsValue at h
  rw [Value.ofChars, Text.isTrimmed_iff.mp ht] at h ⊢
  dsimp only at h ⊢
  cases hvalue : Value.ofTrimmed? kind t with
  | some v =>
    rw [hvalue] at h
    exact absurd ⟨v, rfl⟩ h
  | none => rfl

theorem valuesOf_ok {kinds : List Kind} {fields : List (List Char)} {r : List Value}
    (h : List.Forall₂ IsValue (kinds.zip fields) r) : Schema.valuesOf kinds fields = .ok r := by
  induction kinds generalizing fields r with
  | nil =>
    cases h
    rfl
  | cons kind kinds ih =>
    cases fields with
    | nil =>
      cases h
      rfl
    | cons field fields =>
      cases h with
      | cons hv hvs =>
        rw [Schema.valuesOf, show Value.ofChars kind field = _ from hv, ih hvs]
        rfl

theorem valuesOf_error {kinds : List Kind} {fields : List (List Char)}
    {before after : List (Kind × List Char)} {kind : Kind} {field : List Char} {e : ParseError}
    (hcolumns : kinds.zip fields = before ++ (kind, field) :: after)
    (hbefore : ∀ column ∈ before, ∃ v, IsValue column v)
    (hfield : Value.ofChars kind field = .error e) :
    Schema.valuesOf kinds fields = .error e := by
  induction before generalizing kinds fields with
  | nil =>
    obtain ⟨kinds, fields, rfl, rfl, -⟩ := List.zip_eq_cons_iff.mp hcolumns
    rw [Schema.valuesOf, hfield]
    rfl
  | cons column before ih =>
    obtain ⟨⟨v, hv⟩, hbefore⟩ := List.forall_mem_cons.mp hbefore
    obtain ⟨kinds, fields, rfl, rfl, hrest⟩ := List.zip_eq_cons_iff.mp hcolumns
    rw [Schema.valuesOf, show Value.ofChars column.1 column.2 = _ from hv, ih hrest.symm hbefore]
    rfl

/-- Values read from as many fields as there are kinds have those kinds. -/
theorem kinds_of_forall₂ {kinds : List Kind} {fields : List (List Char)} {r : List Value}
    (hlength : fields.length = kinds.length) (h : List.Forall₂ IsValue (kinds.zip fields) r) :
    r.map Value.kind = kinds := by
  have hkinds : List.Forall₂ (fun column v => column.1 = v.kind) (kinds.zip fields) r :=
    h.imp (fun _ _ hv => (kind_of_isValue hv).symm)
  have hmap : List.Forall₂ Eq ((kinds.zip fields).map Prod.fst) (r.map Value.kind) :=
    List.forall₂_map_left_iff.mpr (List.forall₂_map_right_iff.mpr hkinds)
  rw [List.forall₂_eq_eq_eq, List.map_fst_zip (Nat.le_of_eq hlength.symm)] at hmap
  exact hmap.symm

/-! ## Lines -/

/-- A line has the text of a record, with these fields. -/
def HasFields (line : List UInt8) (fields : List (List Char)) : Prop :=
  ∃ t, Reads line t ∧ t ≠ [] ∧ t.head? ≠ some '#' ∧ Text.IsSplit ',' t fields

/-- A line is blank or a comment, or its fields are the values of a record. -/
inductive Carries (schema : Schema) (line : List UInt8) : Option (List Value) → Prop where
  | nothing {t} : Reads line t → t = [] ∨ t.head? = some '#' → Carries schema line none
  | record {fields r} : HasFields line fields → fields.length = schema.kinds.length →
      List.Forall₂ IsValue (schema.kinds.zip fields) r → Carries schema line (some r)

/-- What is wrong with a line: its bytes, else the count of its fields, else the first of its
fields that is no value of its kind. -/
inductive Faulty (schema : Schema) (line : List UInt8) : Cause → Prop where
  | bytes : (¬∃ t, Reads line t) → Faulty schema line .notText
  | count {fields} : HasFields line fields → fields.length ≠ schema.kinds.length →
      Faulty schema line (.notRecord (.columnCount schema.kinds.length fields.length))
  | field {fields before kind field after t} : HasFields line fields →
      fields.length = schema.kinds.length →
      schema.kinds.zip fields = before ++ (kind, field) :: after →
      (∀ column ∈ before, ∃ v, IsValue column v) → (¬∃ v, IsValue (kind, field) v) →
      Text.IsTrimmed t field →
      Faulty schema line (.notRecord (.invalidValue kind (String.ofList t)))

theorem isRecord_iff {t : List Char} : isRecord t = true ↔ t ≠ [] ∧ t.head? ≠ some '#' := by
  cases t <;> simp [isRecord]

/-- The fields of a record are counted, then read. -/
theorem recordOf_of_hasFields {schema : Schema} {line : List UInt8} {fields : List (List Char)}
    (h : HasFields line fields) :
    recordOf schema line
      = ((if fields.length = schema.kinds.length then Schema.valuesOf schema.kinds fields
          else .error (.columnCount schema.kinds.length fields.length)).map some).mapError
        .notRecord := by
  obtain ⟨t, htext, hne, hcomment, hsplit⟩ := h
  rw [recordOf, textOf_eq_some_iff.mpr htext]
  dsimp only
  rw [if_pos (isRecord_iff.mpr ⟨hne, hcomment⟩), Schema.recordOfChars, Text.isSplit_iff.mp hsplit]
  split
  · next hresult => rw [hresult]; rfl
  · next hresult => rw [hresult]; rfl

theorem recordOf_of_carries {schema : Schema} {line : List UInt8} {held : Option (List Value)}
    (h : Carries schema line held) : recordOf schema line = .ok held := by
  cases h with
  | nothing htext hblank =>
    rw [recordOf, textOf_eq_some_iff.mpr htext]
    dsimp only
    rw [if_neg]
    rw [isRecord_iff, not_and_or, not_not, not_not]
    exact hblank
  | record hfields hlength hvalues =>
    rw [recordOf_of_hasFields hfields, if_pos hlength, valuesOf_ok hvalues]
    rfl

theorem recordOf_of_faulty {schema : Schema} {line : List UInt8} {cause : Cause}
    (h : Faulty schema line cause) : recordOf schema line = .error cause := by
  cases h with
  | bytes htext => rw [recordOf, textOf_eq_none_iff.mpr htext]
  | count hfields hlength =>
    rw [recordOf_of_hasFields hfields, if_neg hlength]
    rfl
  | field hfields hlength hcolumns hbefore hfield ht =>
    rw [recordOf_of_hasFields hfields, if_pos hlength,
      valuesOf_error hcolumns hbefore (ofChars_of_not_isValue hfield ht)]
    rfl

/-- Every line carries something or is at fault. -/
theorem carries_or_faulty (schema : Schema) (line : List UInt8) :
    (∃ held, Carries schema line held) ∨ ∃ cause, Faulty schema line cause := by
  by_cases htext : ∃ t, Reads line t
  · obtain ⟨t, htext⟩ := htext
    by_cases hblank : t = [] ∨ t.head? = some '#'
    · exact .inl ⟨none, .nothing htext hblank⟩
    · rw [not_or] at hblank
      have hfields : HasFields line (Text.split ',' t) :=
        ⟨t, htext, hblank.1, hblank.2, Text.isSplit_iff.mpr rfl⟩
      by_cases hlength : (Text.split ',' t).length = schema.kinds.length
      · rcases forall₂_or_first IsValue (schema.kinds.zip (Text.split ',' t))
          with ⟨r, hr⟩ | ⟨before, ⟨kind, field⟩, after, hcolumns, hbefore, hfield⟩
        · exact .inl ⟨some r, .record hfields hlength hr⟩
        · exact .inr ⟨_, .field hfields hlength hcolumns hbefore hfield (Text.isTrimmed_trim field)⟩
      · exact .inr ⟨_, .count hfields hlength⟩
  · exact .inr ⟨.notText, .bytes htext⟩

theorem recordOf_exactly (schema : Schema) (line : List UInt8) :
    (∀ held, recordOf schema line = .ok held ↔ Carries schema line held)
      ∧ ∀ cause, recordOf schema line = .error cause ↔ Faulty schema line cause :=
  ok_iff_and_error_iff (fun _ => recordOf_of_carries) (fun _ => recordOf_of_faulty)
    (carries_or_faulty schema line)

/-- A line that carries something is not at fault. -/
theorem Carries.not_faulty {schema : Schema} {line : List UInt8} {held : Option (List Value)}
    {cause : Cause} (h : Carries schema line held) : ¬Faulty schema line cause := by
  rw [← (recordOf_exactly schema line).2, recordOf_of_carries h]
  rintro ⟨⟩

/-! ## Files -/

/-- The records that lines carry, in the order of the lines. -/
def CarryAll (schema : Schema) (ls : List (List UInt8)) (rs : List (List Value)) : Prop :=
  ∃ held, List.Forall₂ (Carries schema) ls held ∧ rs = held.filterMap id

/-- A fault is what is wrong with the first line at fault, counted from one over all lines. -/
def FirstFault (schema : Schema) (ls : List (List UInt8)) (fault : Fault) : Prop :=
  ∃ before line after, ls = before ++ line :: after ∧ fault.line = before.length + 1
    ∧ (∀ l ∈ before, ∃ held, Carries schema l held) ∧ Faulty schema line fault.cause

theorem recordsFrom_of_carries {schema : Schema} {ls : List (List UInt8)}
    {held : List (Option (List Value))} (h : List.Forall₂ (Carries schema) ls held) (number : ℕ) :
    recordsFrom schema number ls = .ok (held.filterMap id) := by
  induction h generalizing number with
  | nil => rfl
  | @cons line r ls held hline _ ih =>
    rw [recordsFrom, recordOf_of_carries hline]
    cases r with
    | none => simp [ih]
    | some r => simp [ih, Except.map]

theorem recordsFrom_of_faulty {schema : Schema} {before after : List (List UInt8)}
    {line : List UInt8} {cause : Cause} (hbefore : ∀ l ∈ before, ∃ held, Carries schema l held)
    (hline : Faulty schema line cause) (number : ℕ) :
    recordsFrom schema number (before ++ line :: after)
      = .error ⟨number + before.length, cause⟩ := by
  induction before generalizing number with
  | nil =>
    rw [List.nil_append, recordsFrom, recordOf_of_faulty hline]
    rfl
  | cons l before ih =>
    obtain ⟨⟨held, hheld⟩, hbefore⟩ := List.forall_mem_cons.mp hbefore
    have hplace : number + (l :: before).length = number + 1 + before.length := by
      rw [List.length_cons]
      omega
    rw [List.cons_append, recordsFrom, recordOf_of_carries hheld, hplace]
    cases held with
    | none => simp [ih hbefore]
    | some r => simp [ih hbefore, Except.map]

/-- Lines carry records, or one of them is the first at fault. -/
theorem carryAll_or_firstFault (schema : Schema) (ls : List (List UInt8)) :
    (∃ rs, CarryAll schema ls rs) ∨ ∃ fault, FirstFault schema ls fault := by
  rcases forall₂_or_first (Carries schema) ls
    with ⟨held, hheld⟩ | ⟨before, line, after, hls, hbefore, hline⟩
  · exact .inl ⟨_, held, hheld, rfl⟩
  · obtain ⟨cause, hcause⟩ := (carries_or_faulty schema line).resolve_left hline
    exact .inr ⟨⟨before.length + 1, cause⟩, before, line, after, hls, rfl, hbefore, hcause⟩

theorem CarryAll.forall {schema : Schema} {ls : List (List UInt8)} {rs : List (List Value)}
    (h : CarryAll schema ls rs) : ∀ line ∈ ls, ∃ held, Carries schema line held := by
  obtain ⟨held, hheld, -⟩ := h
  exact forall_mem_of_forall₂ (fun _ r hr => ⟨r, hr⟩) hheld

theorem CarryAll.kinds {schema : Schema} {ls : List (List UInt8)} {rs : List (List Value)}
    (h : CarryAll schema ls rs) {r : List Value} (hr : r ∈ rs) :
    r.map Value.kind = schema.kinds := by
  obtain ⟨held, hheld, rfl⟩ := h
  induction hheld with
  | nil => exact absurd hr List.not_mem_nil
  | cons hline _ ih =>
    cases hline with
    | nothing => exact ih (by simpa using hr)
    | record _ hlength hvalues =>
      simp only [List.filterMap_cons, id, List.mem_cons] at hr
      rcases hr with rfl | hr
      · exact kinds_of_forall₂ hlength hvalues
      · exact ih hr

/-- Carriage returns at the ends of lines change nothing. -/
theorem recordsFrom_congr {schema : Schema} {cut ls : List (List UInt8)}
    (h : List.Forall₂ (fun raw line => raw = line ∨ raw = line ++ [13]) cut ls) (number : ℕ) :
    recordsFrom schema number cut = recordsFrom schema number ls := by
  induction h generalizing number with
  | nil => rfl
  | @cons raw line _ _ hline _ ih =>
    have hrecord : recordOf schema raw = recordOf schema line := by
      rcases hline with rfl | rfl
      · rfl
      · exact recordOf_concat_return schema line
    simp only [recordsFrom, hrecord, ih]

/-! ## Words for faults -/

/-- The words for a fault: the number of the line in decimal, and what is wrong with it. -/
inductive Says (number : ℕ) : Cause → String → Prop where
  | bytes : Says number .notText
      ("Failed to read line " ++ number.repr ++ ": stream did not contain valid UTF-8")
  | count (expected actual : ℕ) : Says number (.notRecord (.columnCount expected actual))
      ("Line " ++ number.repr ++ ": expected " ++ expected.repr ++ " fields, got " ++ actual.repr)
  | value (kind : Kind) (text : String) : Says number (.notRecord (.invalidValue kind text))
      ("Line " ++ number.repr ++ ": invalid " ++ kind.name ++ " value '" ++ text ++ "'")

/-- The message of a line at fault says which line it is and what is wrong with it. -/
theorem says_message {schema : Schema} {line : List UInt8} {fault : Fault}
    (h : Faulty schema line fault.cause) : Says fault.line fault.cause fault.message := by
  obtain ⟨number, cause⟩ := fault
  cases h with
  | bytes => exact .bytes
  | @count fields _ _ =>
    have htold : Says number _ _ := .count schema.kinds.length fields.length
    have hexpected : ": expected " = ": " ++ "expected " := by decide
    have hmessage : (Fault.mk number (.notRecord (.columnCount schema.kinds.length
        fields.length))).message = "Line " ++ number.repr ++ ": " ++ ("expected "
          ++ schema.kinds.length.repr ++ " fields, got " ++ fields.length.repr) := rfl
    simpa only [hmessage, hexpected, String.append_assoc] using htold
  | @field _ _ kind _ _ t _ _ _ _ _ _ =>
    have htold : Says number _ _ := .value kind (String.ofList t)
    have hinvalid : ": invalid " = ": " ++ "invalid " := by decide
    have hmessage : (Fault.mk number (.notRecord (.invalidValue kind
        (String.ofList t)))).message = "Line " ++ number.repr ++ ": " ++ ("invalid " ++ kind.name
          ++ " value '" ++ String.ofList t ++ "'") := rfl
    simpa only [hmessage, hinvalid, String.append_assoc] using htold

/-- No two faults have the same words: the number ends at a colon, what was expected and the name
of a kind end at a blank. -/
theorem Says.unique {number number' : ℕ} {cause cause' : Cause} {text text' : String}
    (h : Says number cause text) (h' : Says number' cause' text') (heq : text = text') :
    number = number' ∧ cause = cause' := by
  have hchars := congrArg String.toList heq
  cases h <;> cases h' <;>
    simp only [String.toList_append, String.reduceToList, Nat.toList_repr, List.cons_append,
      List.nil_append, List.append_assoc, List.cons.injEq, Char.reduceEq, true_and, false_and]
      at hchars
  case bytes.bytes =>
    exact ⟨(Text.toDigits_append_inj (by decide) hchars).1, rfl⟩
  case count.count =>
    obtain ⟨rfl, hcause⟩ := Text.toDigits_append_inj (by decide) hchars
    simp only [List.cons.injEq, true_and] at hcause
    obtain ⟨rfl, hactual⟩ := Text.toDigits_append_inj (by decide) hcause
    simp only [List.cons.injEq, true_and] at hactual
    exact ⟨rfl, by rw [Text.toDigits_injective hactual]⟩
  case count.value =>
    have hcause := (Text.toDigits_append_inj (by decide) hchars).2
    simp only [List.cons.injEq, Char.reduceEq, true_and, false_and] at hcause
  case value.count =>
    have hcause := (Text.toDigits_append_inj (by decide) hchars).2
    simp only [List.cons.injEq, Char.reduceEq, true_and, false_and] at hcause
  case value.value kind t kind' t' =>
    have hblank : ∀ k : Kind, ' ' ∉ k.name.toList := fun k => by cases k <;> decide
    have hnames : kind.name.toList = kind'.name.toList → kind = kind' := by
      cases kind <;> cases kind' <;> decide
    obtain ⟨rfl, hcause⟩ := Text.toDigits_append_inj (by decide) hchars
    simp only [List.cons.injEq, true_and] at hcause
    obtain ⟨hkind, htext⟩ := Text.append_separator_inj (hblank kind) (hblank kind') hcause
    simp only [List.cons.injEq, List.append_cancel_right_eq, true_and] at htext
    rw [hnames hkind, String.toList_inj.mp htext]
    exact ⟨rfl, rfl⟩

/-- A file is read if and only if each of its lines is blank, a comment or a record of the schema,
and then as the records of its lines in order, each of the kinds of the schema. Otherwise the first
line at fault is named, counted from one over all lines, with what is wrong with it: its bytes, else
the count of its fields, else the first field that is no value of its kind. The words for it say
that, and of no other fault. -/
theorem records_exactly (schema : Schema) (file : Array UInt8) :
    (∃ ls, Cuts file.toList ls)
      ∧ ∀ ls, Cuts file.toList ls →
        ((∃ rs, records schema file = .ok rs) ↔ ∀ line ∈ ls, ∃ held, Carries schema line held)
        ∧ (∀ rs, records schema file = .ok rs ↔ CarryAll schema ls rs)
        ∧ (∀ rs, records schema file = .ok rs → ∀ r ∈ rs, r.map Value.kind = schema.kinds)
        ∧ (∀ fault, records schema file = .error fault ↔ FirstFault schema ls fault)
        ∧ ∀ fault, records schema file = .error fault → Says fault.line fault.cause fault.message
          ∧ ∀ number cause, Says number cause fault.message →
            number = fault.line ∧ cause = fault.cause := by
  refine ⟨exists_cuts file.toList, ?_⟩
  intro ls hcuts
  have hrecords : records schema file = recordsFrom schema 1 ls := recordsFrom_congr hcuts.lines 1
  have hsound : ∀ rs, CarryAll schema ls rs → records schema file = .ok rs := by
    rintro rs ⟨held, hheld, rfl⟩
    rw [hrecords, recordsFrom_of_carries hheld]
  have hfirst : ∀ fault, FirstFault schema ls fault → records schema file = .error fault := by
    rintro ⟨place, cause⟩ ⟨before, line, after, rfl, rfl, hbefore, hline⟩
    rw [hrecords, recordsFrom_of_faulty hbefore hline, Nat.add_comm]
  obtain ⟨hok, herror⟩ := ok_iff_and_error_iff hsound hfirst (carryAll_or_firstFault schema ls)
  refine ⟨?_, hok, fun rs hrs r hr => ((hok rs).mp hrs).kinds hr, herror, ?_⟩
  · constructor
    · rintro ⟨rs, hrs⟩
      exact ((hok rs).mp hrs).forall
    · intro hall
      rcases carryAll_or_firstFault schema ls
        with ⟨rs, hrs⟩ | ⟨fault, before, line, after, rfl, -, -, hline⟩
      · exact ⟨rs, hsound rs hrs⟩
      · obtain ⟨held, hheld⟩ := hall line (List.mem_append_right _ List.mem_cons_self)
        exact absurd hline hheld.not_faulty
  · intro fault hfault
    obtain ⟨_, _, _, -, -, -, hline⟩ := (herror fault).mp hfault
    have htold := says_message hline
    exact ⟨htold, fun number cause h => h.unique htold rfl⟩

/-- A comment, a blank line and a record with blanks in it, read by themselves, and refused before a
line of three fields, the second of them bad as well, and bytes that are no text. -/
theorem records_exactly_of_mixed_lines :
    let schema : Schema := ⟨[.int, .bool]⟩
    let comment := bytesOf "# 1,true".toList
    let record := bytesOf " 1 ,true".toList
    let faulty := bytesOf "2,maybe,3".toList
    let front := comment ++ 13 :: 10 :: ([] ++ 10 :: record)
    let file := comment ++ 13 :: 10 :: ([] ++ 10 :: (record ++ 13 :: 10 :: (faulty ++ 10 :: [255])))
    Cuts front [comment, [], record]
      ∧ records schema front.toArray = .ok [[.int 1, .bool true]]
      ∧ Cuts file [comment, [], record, faulty, [255]]
      ∧ records schema file.toArray = .error ⟨4, .notRecord (.columnCount 2 3)⟩
      ∧ (Fault.mk 4 (.notRecord (.columnCount 2 3))).message
        = "Line 4: expected 2 fields, got 3" := by
  intro schema comment record faulty front file
  have hfront : Cuts front [comment, [], record] :=
    .returned (by decide) (.newline (by decide) (by decide) (.unended (by decide) (by decide)))
  have hfile : Cuts file [comment, [], record, faulty, [255]] :=
    .returned (by decide) (.newline (by decide) (by decide) (.returned (by decide)
      (.newline (by decide) (by decide) (.unended (by decide) (by decide)))))
  have hreads : ∀ cs, Reads (bytesOf cs) (Text.trim cs) :=
    fun cs => ⟨cs, rfl, Text.isTrimmed_trim cs⟩
  have hcomment : Carries schema comment none := .nothing (hreads _) (.inr (by decide))
  have hblank : Carries schema [] none := .nothing (hreads []) (.inl rfl)
  have hrecord : Carries schema record (some [.int 1, .bool true]) := by
    have hfields : HasFields record ["1 ".toList, "true".toList] :=
      ⟨_, hreads _, by decide, by decide, Text.isSplit_iff.mpr (by decide)⟩
    exact .record hfields (by decide) (.cons rfl (.cons rfl .nil))
  have hfaulty : Faulty schema faulty (.notRecord (.columnCount 2 3)) := by
    have hfields : HasFields faulty ["2".toList, "maybe".toList, "3".toList] :=
      ⟨_, hreads _, by decide, by decide, Text.isSplit_iff.mpr (by decide)⟩
    exact .count hfields (by decide)
  have hall : ∀ line ∈ [comment, [], record], ∃ held, Carries schema line held := by
    simp only [List.forall_mem_cons]
    exact ⟨⟨_, hcomment⟩, ⟨_, hblank⟩, ⟨_, hrecord⟩, List.forall_mem_nil _⟩
  obtain ⟨-, hok, -, -, -⟩ := (records_exactly schema front.toArray).2 _ hfront
  obtain ⟨-, -, -, herror, hmessage⟩ := (records_exactly schema file.toArray).2 _ hfile
  have hrefused : records schema file.toArray = .error ⟨4, .notRecord (.columnCount 2 3)⟩ :=
    (herror _).mpr ⟨[comment, [], record], faulty, [[255]], rfl, rfl, hall, hfaulty⟩
  refine ⟨hfront, (hok _).mpr ?_, hfile, hrefused, ?_⟩
  · exact ⟨_, .cons hcomment (.cons hblank (.cons hrecord .nil)), rfl⟩
  · generalize htext : (Fault.mk 4 (.notRecord (.columnCount 2 3))).message = text
    have htold := (hmessage _ hrefused).1
    rw [htext] at htold
    cases htold
    decide

end ValueStream.Csv
