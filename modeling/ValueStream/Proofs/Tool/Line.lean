import ValueStream.Proofs.Results
import ValueStream.Proofs.Value.Json
import ValueStream.Proofs.Value.Record
import ValueStream.Tool.Dump

/-!
What the decoding tool prints.

A line shows a record: its number, the byte in which it begins, and for every
value a text that is read back as the value, bit by bit (`Shows`). The lines are
in columns, or each of them is a JSON object. In columns no text has a comma, a
blank or a line feed in it, so what is printed tells the lines, and they tell
the records (`printed_injective`, `Shows.unique`). A run prints the lines of its
rows and says how many there are, where its reader was left, and whether lines
are missing (`prints_outcome`).
-/

namespace ValueStream.Tool

open Trace

namespace Dump

/-! ## Lines -/

/-- A line of the result: the number of a record, the byte in which it begins, and the texts of
its values. -/
structure Line where
  index : ℕ
  offset : ℕ
  fields : List (List Char)

/-- A line in columns: the number and the byte stand in at least six places each, and there are
commas between the texts. -/
def Line.columns (l : Line) : List Char :=
  List.replicate (6 - (Nat.toDigits 10 l.index).length) ' ' ++ Nat.toDigits 10 l.index
    ++ " @".toList ++ Nat.toDigits 10 l.offset
    ++ List.replicate (6 - (Nat.toDigits 10 l.offset).length) ' ' ++ " ".toList
    ++ [','].intercalate l.fields

/-- A line as a JSON object. -/
def Line.object (l : Line) : List Char :=
  "\x7b\"index\":".toList ++ Nat.toDigits 10 l.index ++ ",\"offset\":".toList
    ++ Nat.toDigits 10 l.offset ++ ",\"values\":[".toList ++ [','].intercalate l.fields
    ++ "]\x7d".toList

def Line.chars (json : Bool) (l : Line) : List Char := if json then l.object else l.columns

/-- Lines as they are printed, a line feed behind each. -/
def printed (json : Bool) (lines : List Line) : List Char :=
  lines.flatMap (fun l => l.chars json ++ ['\n'])

/-! ## Texts of values -/

/-- The text of a value as a JSON object: the name of the kind, and the content. -/
def member (kind : Kind) (content : List Char) : List Char :=
  "\x7b\"kind\":\"".toList ++ kind.name.toList ++ "\",\"value\":".toList ++ content ++ "\x7d".toList

/-- The text shows the value: what is read from it has the same kind and the same bits. An object
has its content read, and where a value is not finite it only says that there is none. -/
inductive Shows : (json : Bool) → List Char → Value → Prop where
  | column {field : List Char} {v w : Value} (nonempty : field ≠ [])
      (plain : ∀ c ∈ field, Text.IsPlain c)
      (read : Value.ofText v.kind (String.ofList field) = .ok w) (same : w.bitsEq v = true) :
      Shows false field v
  | content {content : List Char} {v w : Value}
      (read : Value.ofText v.kind (String.ofList content) = .ok w) (same : w.bitsEq v = true) :
      Shows true (member v.kind content) v
  | null {v : Value} (h : v.isFinite = false) : Shows true (member v.kind "null".toList) v

/-- The text with which a value is printed. -/
def fieldOf (json : Bool) (v : Value) : List Char := if json then v.json.toList else v.chars

theorem toList_json_eq_member (v : Value) : v.json.toList = member v.kind v.jsonContent := by
  unfold Value.json Json.Library.text member Value.jsonContent
  simp only [String.toList_append, String.toList_ofList]

theorem shows_fieldOf (json : Bool) (v : Value) : Shows json (fieldOf json v) v := by
  have hread : ∀ cs, Value.ofChars v.kind cs = .ok v →
      Value.ofText v.kind (String.ofList cs) = .ok v := by
    intro cs h
    rw [Value.ofText, String.toList_ofList, h]
  cases json with
  | false =>
    exact .column (Value.chars_ne_nil v) (fun c hc => Value.isPlain_chars hc)
      (hread _ (Value.ofChars_chars v)) (Value.bitsEq_self v)
  | true =>
    rw [fieldOf, if_pos rfl, toList_json_eq_member]
    cases hfinite : v.isFinite with
    | true => exact .content (hread _ (Json.Library.ofChars_content hfinite)) (Value.bitsEq_self v)
    | false =>
      rw [Value.jsonContent, Json.Library.content_of_not_finite hfinite]
      exact .null hfinite

theorem member_injective (kind : Kind) : Function.Injective (member kind) := by
  intro content content' h
  exact List.append_cancel_left (List.append_cancel_right h)

theorem ofText_null (kind : Kind) (w : Value) :
    Value.ofText kind (String.ofList "null".toList) ≠ .ok w := by
  have htrim : Text.trim "null".toList = "null".toList := by decide
  have hnone : Value.ofTrimmed? kind "null".toList = none := by cases kind <;> decide
  rw [Value.ofText, String.toList_ofList, Value.ofChars, htrim, hnone]
  intro h
  cases h

/-- A text shows one value of a kind at most; an object, at most one that is finite. -/
theorem Shows.unique {json : Bool} {field : List Char} {v v' : Value} (h : Shows json field v)
    (h' : Shows json field v') (hkind : v.kind = v'.kind)
    (hfinite : json = true → v'.isFinite = true) : v = v' := by
  cases h' with
  | column _ _ hread' hsame' =>
    obtain ⟨-, -, hread, hsame⟩ := h
    rw [hkind, hread'] at hread
    cases hread
    exact (Value.bitsEq_iff.mp hsame).symm.trans (Value.bitsEq_iff.mp hsame')
  | @content content' _ _ hread' hsame' =>
    generalize hfield : member v'.kind content' = field at h
    cases h with
    | content hread hsame =>
      rw [← hkind] at hfield hread'
      rw [member_injective v.kind hfield, hread] at hread'
      cases hread'
      exact (Value.bitsEq_iff.mp hsame).symm.trans (Value.bitsEq_iff.mp hsame')
    | null _ =>
      rw [← hkind] at hfield hread'
      rw [member_injective v.kind hfield] at hread'
      exact absurd hread' (ofText_null v.kind _)
  | null hnot =>
    rw [hfinite rfl] at hnot
    cases hnot

theorem forall₂_shows (json : Bool) (vs : List Value) :
    List.Forall₂ (Shows json) (vs.map (fieldOf json)) vs := by
  rw [List.forall₂_map_left_iff, List.forall₂_same]
  exact fun v _ => shows_fieldOf json v

/-- Every text can be told from what stands around it. -/
def Line.Plain (l : Line) : Prop :=
  ∀ field ∈ l.fields, field ≠ [] ∧ ∀ c ∈ field, Text.IsPlain c

theorem Shows.plain {field : List Char} {v : Value} (h : Shows false field v) :
    field ≠ [] ∧ ∀ c ∈ field, Text.IsPlain c := by
  cases h with
  | column hne hplain _ _ => exact ⟨hne, hplain⟩

theorem join_eq_intercalate (separator : Char) (fields : List (List Char)) :
    Text.join separator fields = [separator].intercalate fields := by
  induction fields with
  | nil => rfl
  | cons field fields ih =>
    cases fields with
    | nil => exact List.intercalate_singleton.symm
    | cons next fields =>
      rw [Text.join, ih, List.intercalate_cons_cons, List.append_assoc]
      · rfl
      · exact List.cons_ne_nil _ _

/-- The line of a row. -/
def Row.line (json : Bool) (row : Row) : Line :=
  ⟨row.index, row.offset, row.values.map (fieldOf json)⟩

theorem Row.toList_text (row : Row) : row.text.toList = (row.line false).columns := by
  have hfields : (Value.lineOf row.values).toList = [','].intercalate (row.line false).fields := by
    rw [Value.lineOf, String.toList_ofList, join_eq_intercalate]
    rfl
  unfold Row.text Line.columns
  rw [String.toList_append, String.toList_append, hfields, String.toList_ofList]
  unfold Text.padLeft Text.padRight Text.natural
  simp only [List.append_assoc, List.cons_append]
  rfl

theorem Row.toList_json (row : Row) : row.json.toList = (row.line true).object := by
  have hfields : (",".intercalate (row.values.map Value.json)).toList
      = [','].intercalate (row.line true).fields := by
    rw [String.toList_intercalate, List.map_map]
    rfl
  unfold Row.json Line.object
  simp only [String.toList_append, hfields, Nat.toList_repr]
  rfl

theorem toList_linesOf (json : Bool) (rows : List Row) :
    (Outcome.linesOf (rows.map (fun row => if json then row.json else row.text))).toList
      = printed json (rows.map (Row.line json)) := by
  rw [Outcome.linesOf, String.toList_join, List.map_map, List.flatMap_map, printed,
    List.flatMap_map]
  congr 1
  funext row
  cases json with
  | false => simp [Line.chars, Row.toList_text]
  | true => simp [Line.chars, Row.toList_json]

variable {ρ : Type} [IntReader ρ]

/-- A place that was passed is given just where rows are missing, and it is the last. -/
theorem ranPast_decode (schema : Schema) (size count index : ℕ) (r : ρ) :
    (decode schema size count index r).ranPast
      = if (decode schema size count index r).rows.length < count then
          some (decode schema size count index r).last
        else none := by
  induction count generalizing index r with
  | zero => rfl
  | succ count ih =>
    rw [decode]
    dsimp only
    split
    · rfl
    · simp [ih]

/-- A run that ends well, when it has printed the lines and left its reader in byte `last` of
`size`. It says how many lines there are, and before that, where fewer are there than were asked
for, that the stream has ended. -/
structure Prints (o : Options) (size : ℕ) (lines : List Line) (last : ℕ) (run : Outcome) :
    Prop where
  output : run.output.toList = printed o.json lines
  exitCode : run.exitCode = 0
  messages : run.messages
    = (if lines.length < o.records then
        ["Warning: stream ended after " ++ lines.length.repr ++ " records"]
      else [])
      ++ ["Decoded " ++ lines.length.repr ++ " records, reader at byte " ++ last.repr ++ " of "
        ++ size.repr]
  events : run.events
    = (if lines.length < o.records then [.ranPastEnd lines.length last] else [])
      ++ [.decodeFinished last size]

/-- Where decoding begins inside the file, the lines of its rows are printed. -/
theorem prints_outcome (o : Options) {bytes : Array UInt8} (hoffset : o.offset ≤ bytes.size) :
    let d := decode o.schema bytes.size o.records 0 (o.codec.reader bytes o.offset)
    Prints o bytes.size (d.rows.map (Row.line o.json)) d.last (outcome o (.ok bytes)) := by
  have hran := ranPast_decode o.schema bytes.size o.records 0 (o.codec.reader bytes o.offset)
  rw [outcome, if_neg (Nat.not_lt.mpr hoffset), report]
  generalize decode o.schema bytes.size o.records 0 (o.codec.reader bytes o.offset) = d at hran ⊢
  intro d'
  have hlength : (d.rows.map (Row.line o.json)).length = d.rows.length := List.length_map ..
  by_cases hmissing : d.rows.length < o.records
  · rw [if_pos hmissing] at hran
    simp only [hran]
    refine ⟨toList_linesOf o.json d.rows, rfl, ?_, ?_⟩ <;> rw [hlength, if_pos hmissing]
  · rw [if_neg hmissing] at hran
    simp only [hran]
    refine ⟨toList_linesOf o.json d.rows, rfl, ?_, ?_⟩ <;> rw [hlength, if_neg hmissing]

end Dump

end ValueStream.Tool
