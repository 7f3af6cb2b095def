import ValueStream.Text.Fields
import ValueStream.Value.Text
import ValueStream.Value.Wire

/-!
Schemas: the kinds that make up one record.

A schema is written as the names of its kinds with commas between them.
Reading one ignores parts that are blank, so an empty text is a schema of no
kinds, which is refused.
-/

namespace ValueStream

structure Schema where
  kinds : List Kind
  deriving DecidableEq

namespace Schema

def ofKinds : List Kind → Except ParseError Schema
  | [] => .error .emptySchema
  | kinds => .ok ⟨kinds⟩

/-- The kinds that the parts name, or the first fault. -/
def kindsOf : List (List Char) → Except ParseError (List Kind)
  | [] => .ok []
  | part :: parts => do
    let kind ← Kind.ofChars part
    let kinds ← kindsOf parts
    pure (kind :: kinds)

def ofChars (cs : List Char) : Except ParseError Schema := do
  let parts := (Text.split ',' cs).filter (fun part => !(Text.trim part).isEmpty)
  let kinds ← kindsOf parts
  ofKinds kinds

def ofText (text : String) : Except ParseError Schema := ofChars text.toList

def chars (s : Schema) : List Char := Text.join ',' (s.kinds.map (fun k => k.name.toList))

/-- The names of the kinds with commas between them. -/
def text (s : Schema) : String := String.ofList s.chars

/-- A value of each kind in turn, or the first fault. Both lists have one length. -/
def valuesOf : List Kind → List (List Char) → Except ParseError (List Value)
  | kind :: kinds, field :: fields => do
    let v ← Value.ofChars kind field
    let vs ← valuesOf kinds fields
    pure (v :: vs)
  | _, _ => .ok []

/-- Read one record; the number of fields is checked before their values. -/
def recordOfChars (s : Schema) (line : List Char) : Except ParseError (List Value) :=
  let fields := Text.split ',' line
  if fields.length = s.kinds.length then valuesOf s.kinds fields
  else .error (.columnCount s.kinds.length fields.length)

def recordOfText (s : Schema) (line : String) : Except ParseError (List Value) :=
  s.recordOfChars line.toList

def read {ρ : Type} [IntReader ρ] (s : Schema) (r : ρ) : List Value × ρ := Kind.readAll s.kinds r

end Schema

end ValueStream
