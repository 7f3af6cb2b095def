import ValueStream.Schema

/-!
Reading records from a file of lines.

A line ends at a line feed; the last one need not. A carriage return before
the line feed is a blank like any other and is trimmed away. Lines that are
blank or begin with `#` hold no record. The first line at fault, counted from
1 over all lines, decides the error.
-/

namespace ValueStream.Csv

inductive Cause where
  /-- The bytes of the line are not UTF-8. -/
  | notText
  /-- The line is no record of the schema. -/
  | notRecord (e : ParseError)
  deriving DecidableEq

structure Fault where
  line : Nat
  cause : Cause
  deriving DecidableEq

def Fault.message (f : Fault) : String :=
  match f.cause with
  | .notText =>
    "Failed to read line " ++ f.line.repr ++ ": stream did not contain valid UTF-8"
  | .notRecord e => "Line " ++ f.line.repr ++ ": " ++ e.message

/-- The lines of a file without their line feeds. -/
def lines : List UInt8 → List (List UInt8)
  | [] => []
  | b :: bs =>
    if b = 10 then [] :: lines bs
    else
      match lines bs with
      | [] => [[b]]
      | line :: rest => (b :: line) :: rest

/-- The characters of a line without the blanks around them. -/
def textOf (line : List UInt8) : Option (List Char) :=
  (String.fromUTF8? ⟨line.toArray⟩).map (fun s => Text.trim s.toList)

def isRecord : List Char → Bool
  | [] => false
  | c :: _ => c != '#'

/-- The record on a line, if it holds one. -/
def recordOf (schema : Schema) (line : List UInt8) : Except Cause (Option (List Value)) :=
  match textOf line with
  | none => .error .notText
  | some cs =>
    if isRecord cs then
      match schema.recordOfChars cs with
      | .ok r => .ok (some r)
      | .error e => .error (.notRecord e)
    else .ok none

/-- The records on lines numbered from `number` on. -/
def recordsFrom (schema : Schema) : (number : Nat) → List (List UInt8) →
    Except Fault (List (List Value))
  | _, [] => .ok []
  | number, line :: rest =>
    match recordOf schema line with
    | .error cause => .error ⟨number, cause⟩
    | .ok none => recordsFrom schema (number + 1) rest
    | .ok (some r) => (recordsFrom schema (number + 1) rest).map (r :: ·)

def records (schema : Schema) (file : Array UInt8) : Except Fault (List (List Value)) :=
  recordsFrom schema 1 (lines file.toList)

end ValueStream.Csv
