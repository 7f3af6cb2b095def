import ValueStream.Codec
import ValueStream.Csv
import ValueStream.Decimal.Fixed
import ValueStream.Tool.Files
import ValueStream.Tool.Help
import ValueStream.Tool.Sample
import ValueStream.Value.Json

/-!
The encoding tool: records of a file, or sample records, into one stream.

A run is all or nothing. Records are read and encoded before the output is
touched, so a fault on any line leaves every file as it was.
-/

namespace ValueStream.Tool

open Trace

/-- The columns that a tool assumes when none are given. -/
def usualColumns : Schema := ⟨[.int, .bool, .byte, .sint, .double, .long]⟩

namespace Generate

structure Options where
  output : String
  schema : Schema
  csv : Option String
  records : Nat
  codec : Codec
  seed : UInt64
  scopes : Bool
  log : String
  pretty : Bool

/-- The options for columns and codec, which both tools have. -/
def schemaFlag : Flag :=
  ⟨"schema", some 's', .value (fun s => (Schema.ofText s).isOk),
    fun _ => "Comma-separated value kinds making up one record",
    ["default: " ++ usualColumns.text]⟩

def codecFlag (about : String) : Flag :=
  ⟨"codec", some 'c', .value (fun s => (Codec.ofName? s).isSome), fun _ => about,
    ["default: " ++ Codec.default.name,
      "possible values: " ++ ", ".intercalate (Codec.all.map Codec.name)]⟩

def command : Command where
  about names := "Encode sample debug-info records into a " ++ names.format ++ " stream"
  path := "OUTPUT"
  pathAbout := "Output file path"
  flags :=
    [schemaFlag,
      ⟨"csv", none, .value (fun path => !path.isEmpty),
        fun _ => "Input CSV file with one record per line (overrides random generation)", []⟩,
      ⟨"records", some 'r', .value (fun s => (Arguments.count? s).isSome),
        fun _ => "Number of random records to generate", ["default: 1000"]⟩,
      codecFlag "Integer strategy to encode with",
      ⟨"seed", none, .value (fun s => (Arguments.count? s).isSome),
        fun _ => "Seed for random generation", ["default: 42"]⟩,
      ⟨"scopes", none, .switch,
        fun _ => "Flush to a byte boundary after every record, as scope writers do", []⟩,
      logFlag, prettyFlag, helpFlag]
  required := []
  closing :=
    ["CSV FORMAT:",
      "  When using --csv, each line is one record with one field per schema column",
      "  - Lines starting with # are comments",
      "  - Empty lines are skipped",
      "  - float/double fields accept 0x-prefixed raw bit patterns",
      "  - bool fields accept true/false/1/0",
      "",
      "KINDS:",
      "  " ++ ", ".intercalate (Kind.all.map Kind.name)]

def Options.ofList (arguments : List String) : Except UsageError Options := do
  let a ← Arguments.ofList command.flags arguments
  let output ← a.thePath "output"
  let schema ← a.valueOr "schema" usualColumns (fun s => (Schema.ofText s).toOption)
  let csv ← a.valueOr "csv" none (fun path => some (some path))
  let records ← a.valueOr "records" 1000 Arguments.count?
  let codec ← a.valueOr "codec" Codec.default Codec.ofName?
  let seed ← a.valueOr "seed" 42 Arguments.count?
  let log ← a.valueOr "log" "warn" some
  pure ⟨output, schema, csv, records, codec, UInt64.ofNat seed, a.has "scopes", log,
    a.has "pretty"⟩

variable {σ : Type} [IntWriter σ]

/-- Append records, each padded to a whole byte if they are scopes. -/
def writeRecords (scopes : Bool) (s : σ) : List (List Value) → Traced σ
  | [] => pure s
  | r :: rs => do
    let s ← Value.writeAll s r
    let s ← if scopes then IntWriter.align s else pure s
    writeRecords scopes s rs

def encode (codec : Codec) (records : List (List Value)) (scopes : Bool) : Traced (Array UInt8) := do
  let s ← writeRecords scopes (codec.writer Limits.initialCapacity) records
  IntWriter.finish s

inductive InputFault where
  | cannotOpen (fault : Fault)
  | cannotRead (fault : Fault)
  | refused (fault : Csv.Fault)
  deriving DecidableEq

def InputFault.message : InputFault → String
  | cannotOpen fault => "Failed to open CSV: " ++ fault.message
  | cannotRead fault => "Failed to read line 1: " ++ fault.message
  | refused fault => fault.message

section

variable {m : Type → Type} [Monad m]

/-- Read all of the file that a path leads to. -/
def fetch (storage : Storage m) (path : String) : m (Except InputFault (Array UInt8)) := do
  match ← storage.openInput path with
  | .error fault => pure (.error (.cannotOpen fault))
  | .ok input => return (← storage.readAll input).mapError .cannotRead

/-- The bytes of the file that is named, if one is. -/
def inputOf (storage : Storage m) (o : Options) : m (Except InputFault (Array UInt8)) :=
  match o.csv with
  | some path => fetch storage path
  | none => pure (.ok #[])

end

/-- The records to encode: those of the file that is named, or samples. -/
def recordsOf (o : Options) (input : String → Except InputFault (Array UInt8)) :
    Except InputFault (List (List Value)) :=
  match o.csv with
  | some path => do
    let bytes ← input path
    (Csv.records o.schema bytes).mapError .refused
  | none => .ok (Sample.records o.schema.kinds o.records (Random.Keystream.ofSeed o.seed))

/-- What is encoded, and everything that is said about it. -/
structure Encoded where
  bytes : Array UInt8
  /-- Bytes that the other codec would take. -/
  otherSize : Nat
  records : Nat
  events : List Event

/-- Encode records with the chosen codec, and with the other one to compare. -/
def encodeBoth (o : Options) (records : List (List Value)) : Encoded :=
  let run : Traced (Array UInt8 × Array UInt8) := do
    let bytes ← encode o.codec records o.scopes
    let others ← encode o.codec.other records o.scopes
    Traced.report (.encoded records.length bytes.size o.csv.isSome)
    pure (bytes, others)
  ⟨run.value.1, run.value.2.size, records.length, run.events⟩

/-- What is printed once the records of a file are read. -/
def opening (o : Options) (count : Nat) : String :=
  if o.csv.isSome then "Reading " ++ count.repr ++ " records from CSV...\n" else ""

def closing (o : Options) (e : Encoded) : String :=
  let values := e.records * o.schema.kinds.length
  let verb := if o.csv.isSome then "Encoded " else "Generated "
  let size := e.bytes.size
  Outcome.linesOf
    ([verb ++ e.records.repr ++ " records (schema " ++ o.schema.text ++ ")",
      "Output: " ++ o.output ++ " (" ++ size.repr ++ " bytes, " ++ o.codec.label ++ ")"]
    ++ (if values = 0 then []
      else ["Bits per value: " ++ String.ofList (Decimal.quotient 2 (size * 8) values)])
    ++ ["Same records with " ++ o.codec.other.label ++ ": " ++ e.otherSize.repr ++ " bytes"])

def inputFailure (fault : InputFault) : Outcome :=
  .failure "" ("Error: " ++ fault.message) []

def createFailure (o : Options) (e : Encoded) (fault : Fault) : Outcome :=
  .failure (opening o e.records)
    ("Error: Failed to create " ++ o.output ++ ": " ++ fault.message) e.events

def writeFailure (o : Options) (e : Encoded) (fault : Fault) : Outcome :=
  .failure (opening o e.records) ("Error: Failed to write data: " ++ fault.message) e.events

def success (o : Options) (e : Encoded) : Outcome :=
  ⟨0, opening o e.records ++ closing o e, [], e.events⟩

/-- A run, step by step: all of the input is read and encoded before the output is made. -/
def steps {m : Type → Type} [Monad m] (storage : Storage m) (o : Options) : m Outcome := do
  let input ← inputOf storage o
  match recordsOf o (fun _ => input) with
  | .error fault => pure (inputFailure fault)
  | .ok records =>
    let e := encodeBoth o records
    match ← storage.create o.output with
    | .error fault => pure (createFailure o e fault)
    | .ok output =>
      match ← storage.write output e.bytes with
      | .error fault => pure (writeFailure o e fault)
      | .ok () => pure (success o e)

/-- A run over files, and the files after it. -/
def run (o : Options) (files : Files) : Outcome × Files := (steps Files.storage o).run files

end Generate

end ValueStream.Tool
