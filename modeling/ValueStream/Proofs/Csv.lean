import ValueStream.Csv
import ValueStream.Proofs.Value.Record
import ValueStream.Proofs.Value.Text

/-!
Records are read back from a file of their lines.

A file is cut at line feeds, and no character but the line feed has that byte
(`newline_notMem`), so a file of lines is cut into the bytes of those lines, with
what stood before the line feed left at their ends (`lines_fileOf`). The line of
a record has no blanks, so trimming leaves it as it was, and no number sign, so
it is taken for a record; its fields are split where they were joined
(`recordOf_line`). A file is refused if and only if one of its lines is
(`recordsFrom_error_iff`). What every value does by itself and every file of
records does is put together in `text_reads_back`.
-/

namespace ValueStream.Csv

/-! ## Bytes of text -/

/-- The bytes of characters. -/
def bytesOf (cs : List Char) : List UInt8 := cs.flatMap String.utf8EncodeChar

theorem bytesOf_append (xs ys : List Char) : bytesOf (xs ++ ys) = bytesOf xs ++ bytesOf ys :=
  List.flatMap_append

theorem toList_toUTF8 (s : String) : s.toUTF8.data.toList = bytesOf s.toList := by
  have hbytes : s.toUTF8 = (bytesOf s.toList).toByteArray := String.utf8Encode_toList.symm
  rw [hbytes, List.data_toByteArray]

theorem textOf_bytesOf (cs : List Char) : textOf (bytesOf cs) = some (Text.trim cs) := by
  have hbytes : (⟨(bytesOf cs).toArray⟩ : ByteArray) = cs.utf8Encode :=
    ByteArray.ext (List.data_toByteArray (l := bytesOf cs)).symm
  have hdecode : String.fromUTF8? cs.utf8Encode = some (String.ofList cs) := by
    rw [String.fromUTF8?, dif_pos ByteArray.isValidUTF8_utf8Encode]
    rfl
  rw [textOf, hbytes, hdecode, Option.map_some, String.toList_ofList]

/-- The bytes below 128 are in no character but their own. -/
theorem toNat_eq_of_byte_mem {c : Char} {b : UInt8} (hb : b.toNat < 128)
    (h : b ∈ String.utf8EncodeChar c) : c.toNat = b.toNat := by
  have hofNat : ∀ n : ℕ, b = UInt8.ofNat n → n % 256 = b.toNat := by
    intro n hn
    rw [hn, UInt8.toNat_ofNat']
  show c.val.toNat = b.toNat
  -- of the bytes of a character beyond the first 128, none is below 128
  rw [String.utf8EncodeChar] at h
  split at h
  · have hn := hofNat _ (List.mem_singleton.mp h)
    omega
  · split at h
    · simp only [List.mem_cons, List.not_mem_nil, or_false] at h
      rcases h with h | h <;> have hn := hofNat _ h <;> omega
    · split at h
      · simp only [List.mem_cons, List.not_mem_nil, or_false] at h
        rcases h with h | h | h <;> have hn := hofNat _ h <;> omega
      · simp only [List.mem_cons, List.not_mem_nil, or_false] at h
        rcases h with h | h | h | h <;> have hn := hofNat _ h <;> omega

/-- The byte of the line feed is in no other character. -/
theorem newline_notMem {cs : List Char} (h : '\n' ∉ cs) : 10 ∉ bytesOf cs := by
  intro hmem
  obtain ⟨c, hc, hbyte⟩ := List.mem_flatMap.mp hmem
  have hnewline : c = '\n' := Char.toNat_inj.mp (toNat_eq_of_byte_mem (by decide) hbyte)
  exact h (hnewline ▸ hc)

/-! ## Lines -/

theorem lines_of_notMem {line : List UInt8} (h : 10 ∉ line) (hne : line ≠ []) :
    lines line = [line] := by
  induction line with
  | nil => exact absurd rfl hne
  | cons b bs ih =>
    have hb : b ≠ 10 := (List.ne_of_not_mem_cons h).symm
    rw [lines, if_neg hb]
    cases bs with
    | nil => rfl
    | cons b' bs => rw [ih (List.not_mem_of_not_mem_cons h) (List.cons_ne_nil _ _)]

theorem lines_append_newline {line : List UInt8} (h : 10 ∉ line) (rest : List UInt8) :
    lines (line ++ 10 :: rest) = line :: lines rest := by
  induction line with
  | nil => rw [List.nil_append, lines, if_pos rfl]
  | cons b bs ih =>
    have hb : b ≠ 10 := (List.ne_of_not_mem_cons h).symm
    rw [List.cons_append, lines, if_neg hb, ih (List.not_mem_of_not_mem_cons h)]

/-- A file of lines: each is followed by the newline, or each but the last. -/
def fileOf (newline : String) (ended : Bool) (texts : List String) : Array UInt8 :=
  (if ended then String.join (texts.map (· ++ newline)) else newline.intercalate texts).toUTF8.data

/-- The bytes of a line are those of its text, and maybe of blanks behind it. -/
def Holds (line : List UInt8) (text : String) : Prop :=
  ∃ blanks, (∀ b ∈ blanks, Text.isBlank b = true) ∧ line = bytesOf (text.toList ++ blanks)

/-- What stands before the line feed in a newline is blank. -/
theorem exists_newline_eq {newline : String} (h : newline = "\n" ∨ newline = "\r\n") :
    ∃ blanks, newline.toList = blanks ++ ['\n'] ∧ '\n' ∉ blanks
      ∧ ∀ b ∈ blanks, Text.isBlank b = true := by
  rcases h with rfl | rfl
  · exact ⟨[], rfl, List.not_mem_nil, fun b hb => absurd hb List.not_mem_nil⟩
  · exact ⟨['\r'], rfl, by decide, List.forall_mem_singleton.mpr rfl⟩

/-- A line with its newline is cut off as a whole. -/
theorem lines_append_ended {newline : String} {blanks : List Char}
    (hsplit : newline.toList = blanks ++ ['\n']) (hclean : '\n' ∉ blanks) {t : String}
    (ht : '\n' ∉ t.toList) (rest : List Char) :
    lines (bytesOf (t.toList ++ newline.toList ++ rest))
      = bytesOf (t.toList ++ blanks) :: lines (bytesOf rest) := by
  have hline : '\n' ∉ t.toList ++ blanks := by
    rw [List.mem_append, not_or]
    exact ⟨ht, hclean⟩
  rw [hsplit, ← List.append_assoc, List.append_assoc, bytesOf_append]
  exact lines_append_newline (newline_notMem hline) _

/-- The lines of a file are those that it is made of. -/
theorem lines_fileOf {newline : String} (hnewline : newline = "\n" ∨ newline = "\r\n") (ended : Bool)
    {texts : List String} (h : ∀ t ∈ texts, t.toList ≠ [] ∧ '\n' ∉ t.toList) :
    List.Forall₂ Holds (lines (fileOf newline ended texts).toList) texts := by
  obtain ⟨blanks, hsplit, hclean, hblank⟩ := exists_newline_eq hnewline
  rw [fileOf, toList_toUTF8]
  cases ended with
  | true =>
    rw [if_pos rfl, String.toList_join]
    induction texts with
    | nil => exact List.Forall₂.nil
    | cons t texts ih =>
      obtain ⟨ht, htexts⟩ := List.forall_mem_cons.mp h
      rw [List.map_cons, List.flatMap_cons, String.toList_append,
        lines_append_ended hsplit hclean ht.2]
      exact List.Forall₂.cons ⟨blanks, hblank, rfl⟩ (ih htexts)
  | false =>
    rw [if_neg Bool.false_ne_true, String.toList_intercalate]
    induction texts with
    | nil => exact List.Forall₂.nil
    | cons t texts ih =>
      obtain ⟨ht, htexts⟩ := List.forall_mem_cons.mp h
      cases texts with
      | nil =>
        have hne : bytesOf t.toList ≠ [] := by
          obtain ⟨c, cs, hcs⟩ := List.exists_cons_of_ne_nil ht.1
          rw [hcs]
          exact List.append_ne_nil_of_left_ne_nil String.utf8EncodeChar_ne_nil _
        rw [List.map_singleton, List.intercalate_singleton,
          lines_of_notMem (newline_notMem ht.2) hne]
        refine List.Forall₂.cons ⟨[], fun b hb => absurd hb List.not_mem_nil, ?_⟩ List.Forall₂.nil
        rw [List.append_nil]
      | cons next texts =>
        rw [List.map_cons, List.map_cons, List.intercalate_cons_cons,
          lines_append_ended hsplit hclean ht.2]
        exact List.Forall₂.cons ⟨blanks, hblank, rfl⟩ (ih htexts)

/-! ## Records -/

theorem toList_lineOf (r : List Value) :
    (Value.lineOf r).toList = Text.join ',' (r.map Value.chars) := String.toList_ofList

/-- The line of a record is commas and plain characters. -/
theorem mem_lineOf {r : List Value} {c : Char} (h : c ∈ (Value.lineOf r).toList) :
    c = ',' ∨ Text.IsPlain c := by
  rw [toList_lineOf] at h
  rcases Text.mem_join h with hcomma | ⟨field, hfield, hc⟩
  · exact Or.inl hcomma
  · obtain ⟨v, -, rfl⟩ := List.mem_map.mp hfield
    exact Or.inr (Value.isPlain_chars hc)

theorem not_blank_lineOf {r : List Value} {c : Char} (h : c ∈ (Value.lineOf r).toList) :
    Text.isBlank c = false := by
  rcases mem_lineOf h with rfl | hplain
  · decide
  · exact hplain.not_blank

/-- The line of a record begins with a plain character. -/
theorem exists_lineOf_eq {r : List Value} (hne : r ≠ []) :
    ∃ c cs, (Value.lineOf r).toList = c :: cs ∧ Text.IsPlain c := by
  obtain ⟨v, vs, rfl⟩ := List.exists_cons_of_ne_nil hne
  obtain ⟨c, rest, hc⟩ := List.exists_cons_of_ne_nil v.chars_ne_nil
  have hplain : Text.IsPlain c := Value.isPlain_chars (hc ▸ List.mem_cons_self)
  have hhead : (Text.join ',' (v.chars :: vs.map Value.chars)).head? = some c := by
    rw [Text.head?_join v.chars_ne_nil, hc]
    rfl
  obtain ⟨cs, hcs⟩ := List.head?_eq_some_iff.mp hhead
  exact ⟨c, cs, (toList_lineOf (v :: vs)).trans hcs, hplain⟩

theorem valuesOf_chars (r : List Value) :
    Schema.valuesOf (r.map Value.kind) (r.map Value.chars) = .ok r := by
  induction r with
  | nil => rfl
  | cons v vs ih =>
    rw [List.map_cons, List.map_cons, Schema.valuesOf, Value.ofChars_chars, ih]
    rfl

/-- The fields of a record's line are the texts of its values. -/
theorem recordOfChars_lineOf {schema : Schema} (hkinds : schema.kinds ≠ []) {r : List Value}
    (hr : r.map Value.kind = schema.kinds) :
    schema.recordOfChars (Value.lineOf r).toList = .ok r := by
  have hne : r.map Value.chars ≠ [] := by
    intro hnil
    rw [List.map_eq_nil_iff] at hnil
    rw [hnil] at hr
    exact hkinds hr.symm
  have hsplit : Text.split ',' (Value.lineOf r).toList = r.map Value.chars := by
    rw [toList_lineOf]
    apply Text.split_join hne
    intro field hfield hcomma
    obtain ⟨v, -, rfl⟩ := List.mem_map.mp hfield
    exact (Value.isPlain_chars hcomma).ne_of_lt (by decide) rfl
  have hlength : (r.map Value.chars).length = schema.kinds.length := by
    rw [← hr, List.length_map, List.length_map]
  rw [Schema.recordOfChars, hsplit, if_pos hlength, ← hr, valuesOf_chars]

/-- A line that holds the text of a record is read as the record. -/
theorem recordOf_line {schema : Schema} (hkinds : schema.kinds ≠ []) {r : List Value}
    (hr : r.map Value.kind = schema.kinds) {line : List UInt8}
    (hline : Holds line (Value.lineOf r)) : recordOf schema line = .ok (some r) := by
  obtain ⟨blanks, hblanks, rfl⟩ := hline
  have hne : r ≠ [] := by
    rintro rfl
    exact hkinds hr.symm
  obtain ⟨c, cs, hcs, hplain⟩ := exists_lineOf_eq hne
  have hrecord : isRecord (Value.lineOf r).toList = true := by
    rw [hcs, isRecord, bne_iff_ne]
    exact hplain.ne_of_lt (by decide)
  rw [recordOf, textOf_bytesOf, Text.trim_append (fun c hc => not_blank_lineOf hc) hblanks]
  dsimp only
  rw [if_pos hrecord, recordOfChars_lineOf hkinds hr]

/-- Lines that hold the texts of records are read as the records. -/
theorem recordsFrom_lines {schema : Schema} (hkinds : schema.kinds ≠ []) {records : List (List Value)}
    (hrecords : ∀ r ∈ records, r.map Value.kind = schema.kinds) {ls : List (List UInt8)}
    (hlines : List.Forall₂ Holds ls (records.map Value.lineOf)) (number : ℕ) :
    recordsFrom schema number ls = .ok records := by
  induction records generalizing ls number with
  | nil =>
    cases hlines
    rfl
  | cons r rs ih =>
    obtain ⟨hr, hrs⟩ := List.forall_mem_cons.mp hrecords
    cases hlines with
    | cons hline hrest =>
      rw [recordsFrom, recordOf_line hkinds hr hline]
      dsimp only
      rw [ih hrs hrest]
      rfl

/-- A file of the lines of records is read as the records. -/
theorem records_fileOf {schema : Schema} (hkinds : schema.kinds ≠ []) {rs : List (List Value)}
    (hrecords : ∀ r ∈ rs, r.map Value.kind = schema.kinds) {newline : String}
    (hnewline : newline = "\n" ∨ newline = "\r\n") (ended : Bool) :
    records schema (fileOf newline ended (rs.map Value.lineOf)) = .ok rs := by
  apply recordsFrom_lines hkinds hrecords
  apply lines_fileOf hnewline
  intro t ht
  obtain ⟨r, hr, rfl⟩ := List.mem_map.mp ht
  have hne : r ≠ [] := by
    rintro rfl
    exact hkinds (hrecords [] hr).symm
  obtain ⟨c, cs, hcs, -⟩ := exists_lineOf_eq hne
  refine ⟨by rw [hcs]; exact List.cons_ne_nil _ _, ?_⟩
  intro hnewline
  exact absurd (not_blank_lineOf hnewline) (by decide)

/-- Every value of every kind is read back from its text bit for bit, and its text can be told
from everything around it in a file; so a file of the lines of records is read as records that
are the same bit for bit. -/
theorem text_reads_back :
    (∀ v : Value,
        (∃ w, Value.ofText v.kind v.text = .ok w ∧ w.bitsEq v = true)
          ∧ v.text ≠ ""
          ∧ (∀ c ∈ v.text.toList, c ≠ ',' ∧ Text.isBlank c = false ∧ c ≠ '\n' ∧ c ≠ '\r')
          ∧ v.text.toList.head? ≠ some '#')
      ∧ ∀ (schema : Schema) (rs : List (List Value)) (newline : String) (ended : Bool),
        schema.kinds ≠ [] → (∀ r ∈ rs, r.map Value.kind = schema.kinds) →
        (newline = "\n" ∨ newline = "\r\n") →
        ∃ read, records schema (fileOf newline ended (rs.map Value.lineOf)) = .ok read
          ∧ List.Forall₂ (fun a b => Value.allBitsEq a b = true) read rs := by
  constructor
  · intro v
    have htext : v.text.toList = v.chars := String.toList_ofList
    refine ⟨⟨v, ?_, Value.bitsEq_self v⟩, ?_, ?_, ?_⟩
    · rw [Value.ofText, htext, Value.ofChars_chars]
    · intro hempty
      rw [hempty] at htext
      exact v.chars_ne_nil htext.symm
    · intro c hc
      rw [htext] at hc
      have hplain := Value.isPlain_chars hc
      exact ⟨hplain.ne_of_lt (by decide), hplain.not_blank, hplain.ne_of_lt (by decide),
        hplain.ne_of_lt (by decide)⟩
    · intro hhead
      rw [htext] at hhead
      have hplain := Value.isPlain_chars (List.mem_of_mem_head? hhead)
      exact hplain.ne_of_lt (by decide) rfl
  · intro schema rs newline ended hkinds hrecords hnewline
    refine ⟨rs, records_fileOf hkinds hrecords hnewline ended, ?_⟩
    rw [List.forall₂_same]
    exact fun r _ => Value.allBitsEq_self r

/-- A not-a-number with a payload and a sign, a negative zero, the least and an infinite number. -/
theorem text_reads_back_of_patterns :
    let schema : Schema := ⟨[.float, .double, .long]⟩
    let rs : List (List Value) :=
      [[.float ⟨0xFFC00001⟩, .double ⟨0x8000000000000000⟩, .long (-0x8000000000000000)],
        [.float ⟨1⟩, .double ⟨0x7FF0000000000000⟩, .long 7]]
    schema.kinds ≠ [] ∧ (∀ r ∈ rs, r.map Value.kind = schema.kinds)
      ∧ rs.map Value.lineOf = ["0xffc00001,-0.0,-9223372036854775808", "1e-45,inf,7"]
      ∧ (∃ w, Value.ofText .float "0xffc00001" = .ok w ∧ w.bitsEq (.float ⟨0xFFC00001⟩) = true)
      ∧ ∃ read, records schema (fileOf "\r\n" false (rs.map Value.lineOf)) = .ok read
        ∧ List.Forall₂ (fun a b => Value.allBitsEq a b = true) read rs := by
  intro schema rs
  have hkinds : schema.kinds ≠ [] := List.cons_ne_nil _ _
  have hrecords : ∀ r ∈ rs, r.map Value.kind = schema.kinds := by decide +kernel
  have hlines : rs.map Value.lineOf = ["0xffc00001,-0.0,-9223372036854775808", "1e-45,inf,7"] := by
    decide +kernel
  have htext : (Value.float ⟨0xFFC00001⟩).text = "0xffc00001" := by decide +kernel
  obtain ⟨hvalues, hfiles⟩ := text_reads_back
  have hvalue := (hvalues (.float ⟨0xFFC00001⟩)).1
  rw [htext] at hvalue
  exact ⟨hkinds, hrecords, hlines, hvalue,
    hfiles schema rs "\r\n" false hkinds hrecords (Or.inr rfl)⟩

end ValueStream.Csv
