import ValueStream.Text.Fields
import ValueStream.Text.Numeral

/-!
The seven kinds of value and their names.
-/

namespace ValueStream

inductive Kind where
  | int
  | sint
  | float
  | double
  | long
  | bool
  | byte
  deriving DecidableEq, Repr

namespace Kind

/-- Every kind, in the order in which they are listed. -/
def all : List Kind := [int, sint, float, double, long, bool, byte]

def name : Kind → String
  | int => "int"
  | sint => "sint"
  | float => "float"
  | double => "double"
  | long => "long"
  | bool => "bool"
  | byte => "byte"

theorem mem_all (k : Kind) : k ∈ all := by cases k <;> decide

end Kind

inductive ParseError where
  /-- The text names no kind. -/
  | unknownKind (text : String)
  /-- A schema has at least one kind. -/
  | emptySchema
  /-- The text is no value of the kind. -/
  | invalidValue (kind : Kind) (text : String)
  /-- A record has as many fields as its schema has kinds. -/
  | columnCount (expected actual : Nat)
  deriving DecidableEq, Repr

def ParseError.message : ParseError → String
  | unknownKind text => "unknown value kind '" ++ text ++ "'"
  | emptySchema => "schema is empty"
  | invalidValue kind text => "invalid " ++ kind.name ++ " value '" ++ text ++ "'"
  | columnCount expected actual =>
    "expected " ++ expected.repr ++ " fields, got " ++ actual.repr

namespace Kind

def ofName? (name : String) : Option Kind := all.find? (fun k => k.name == name)

/-- The kind of this name, letters of either case. -/
def ofAnyCase? (name : List Char) : Option Kind :=
  all.find? (fun k => Text.sameLetters k.name.toList name)

/-- The kind a text names, blanks around it and the case of letters aside. -/
def ofChars (text : List Char) : Except ParseError Kind :=
  let name := Text.trim text
  match ofAnyCase? name with
  | some kind => .ok kind
  | none => .error (.unknownKind (String.ofList name))

def ofText (text : String) : Except ParseError Kind := ofChars text.toList

end Kind

end ValueStream
