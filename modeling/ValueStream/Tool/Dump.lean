import ValueStream.Tool.Generate

/-!
The decoding tool: one line per record of a stream.

The stream carries no count and no kinds, so both are asked for. Decoding
stops early at a record that would start at or after the end of the file.
-/

namespace ValueStream.Tool.Dump

open Trace

structure Options where
  input : String
  schema : Schema
  records : Nat
  codec : Codec
  offset : Nat
  json : Bool
  log : String
  pretty : Bool

def command : Command where
  about names := "Decode records from a " ++ names.format ++ " stream"
  path := "INPUT"
  pathAbout := "Input file path"
  flags :=
    [Generate.schemaFlag,
      ⟨"records", some 'r', .value (fun s => (Arguments.count? s).isSome),
        fun _ => "Number of records to decode", []⟩,
      Generate.codecFlag "Integer strategy the stream was written with",
      ⟨"offset", none, .value (fun s => (Arguments.count? s).isSome),
        fun _ => "Byte offset of the first record", ["default: 0"]⟩,
      ⟨"json", none, .switch, fun _ => "Print one JSON object per record", []⟩,
      logFlag, prettyFlag, helpFlag]
  required := ["records"]
  closing :=
    ["The stream carries no header: the schema, record count and codec must match what the "
      ++ "producer wrote."]

/-- The options of a command line; the number of records is required. -/
def Options.ofList (arguments : List String) : Except UsageError Options := do
  let a ← Arguments.ofList command.flags arguments
  let input ← a.thePath "input"
  let schema ← a.valueOr "schema" usualColumns (fun s => (Schema.ofText s).toOption)
  let records? ← a.valueOr "records" none (fun s => (Arguments.count? s).map some)
  let codec ← a.valueOr "codec" Codec.default Codec.ofName?
  let offset ← a.valueOr "offset" 0 Arguments.count?
  let log ← a.valueOr "log" "warn" some
  match records? with
  | none => .error (.missing "--records")
  | some records =>
    pure ⟨input, schema, records, codec, offset, a.has "json", log, a.has "pretty"⟩

/-- A decoded record: its number, the byte in which it starts, its values. -/
structure Row where
  index : Nat
  offset : Nat
  values : List Value
  deriving DecidableEq

/-- What decoding gives: the rows, the place of a record that would have
started after the end, and where the reader is left. -/
structure Decoded where
  rows : List Row
  ranPast : Option Nat
  last : Nat
  deriving DecidableEq

variable {ρ : Type} [IntReader ρ]

/-- Decode at most `count` records, numbered from `index` on, from a reader over
`size` bytes. -/
def decode (schema : Schema) (size : Nat) : (count index : Nat) → ρ → Decoded
  | 0, _, r => ⟨[], none, IntReader.position r⟩
  | count + 1, index, r =>
    let offset := IntReader.position r
    if size ≤ offset then ⟨[], some offset, offset⟩
    else
      let (values, r) := schema.read r
      let rest := decode schema size count (index + 1) r
      { rest with rows := ⟨index, offset, values⟩ :: rest.rows }

/-- A row as text: its number, its byte, its values with commas between them. -/
def Row.text (row : Row) : String :=
  String.ofList (Text.padLeft 6 ' ' (Text.natural row.index) ++ ' ' :: '@' ::
    Text.padRight 6 ' ' (Text.natural row.offset)) ++ " " ++ Value.lineOf row.values

def Row.json (row : Row) : String :=
  "\x7b\"index\":" ++ row.index.repr ++ ",\"offset\":" ++ row.offset.repr ++ ",\"values\":["
    ++ ",".intercalate (row.values.map Value.json) ++ "]\x7d"

/-- Decode the bytes of a file and say how it went. -/
def report (o : Options) (bytes : Array UInt8) : Outcome :=
  let d := decode o.schema bytes.size o.records 0 (o.codec.reader bytes o.offset)
  let count := d.rows.length
  let lines := d.rows.map (fun row => if o.json then row.json else row.text)
  let (warnings, early) :=
    match d.ranPast with
    | some offset =>
      (["Warning: stream ended after " ++ count.repr ++ " records"], [Event.ranPastEnd count offset])
    | none => ([], [])
  ⟨0, Outcome.linesOf lines,
    warnings ++ ["Decoded " ++ count.repr ++ " records, reader at byte " ++ d.last.repr ++ " of "
      ++ bytes.size.repr],
    early ++ [.decodeFinished d.last bytes.size]⟩

/-- What comes of the bytes of the input, or of the fault that kept them back. -/
def outcome (o : Options) : Except Fault (Array UInt8) → Outcome
  | .error fault => .failure "" ("Error reading " ++ o.input ++ ": " ++ fault.message) []
  | .ok bytes =>
    if bytes.size < o.offset then
      .failure "" ("Error: offset " ++ o.offset.repr ++ " is past the end of a "
        ++ bytes.size.repr ++ "-byte file") []
    else report o bytes

def run (o : Options) (files : Files) : Outcome := outcome o (files.read o.input)

end ValueStream.Tool.Dump
