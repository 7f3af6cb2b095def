import ValueStream.Codec
import ValueStream.Json.Library
import ValueStream.Schema

/-!
Values, kinds, codecs and schemas as JSON.

A value is an object of its kind and its content, or, when read, also an array
of the two. Names are strings of exactly the name or, when read, objects whose
only member has the name and is null. Not-a-number and the infinities have no
JSON form and are written as null, which is refused when read.

Values and schemas are written and read with any library. With the standard one
floating numbers are put together quickly rather than precisely.
-/

namespace ValueStream

open Binary Json

namespace Value

/-- Doubles from 10^-5 to below 10^16 are written in full; exponents always
have a sign; the even one of two equally near numerals is written. -/
def jsonDoubleLayout : Decimal.Layout := ⟨-5, 15, true, .even⟩

/-- Floats from 10^-6 to below 10^13 are written in full. -/
def jsonSingleLayout : Decimal.Layout := ⟨-6, 12, true, .even⟩

def jsonFloating (l : Decimal.Layout) (f : Format) (pattern : Nat) : List Char :=
  if f.isFinite pattern then l.finite f pattern else ['n', 'u', 'l', 'l']

end Value

/-- The library with which everything is written and read. -/
def Json.Library.standard : Json.Library where
  single := Value.jsonSingleLayout
  double := Value.jsonDoubleLayout
  document? := Json.ofChars?
  worth? := Json.Number.worth?

namespace Json.Library

variable (lib : Json.Library)

/-- The content of a value. -/
def content : Value → List Char
  | .float v => Value.jsonFloating lib.single .single v.bits.toNat
  | .double v => Value.jsonFloating lib.double .double v.bits.toNat
  | v => v.chars

/-- A value as an object of its kind and its content. -/
def text (v : Value) : String :=
  "\x7b\"kind\":\"" ++ v.kind.name ++ "\",\"value\":" ++ String.ofList (lib.content v) ++ "\x7d"

end Json.Library

namespace Value

def jsonContent : Value → List Char := Json.Library.standard.content

def json (v : Value) : String := Json.Library.standard.text v

end Value

def Json.Document.name? : Document → Option String
  | .string text => text.map String.ofList
  | .object [(key, .null)] => key.map String.ofList
  | _ => none

namespace Kind

def json (k : Kind) : String := "\"" ++ k.name ++ "\""

def ofJson? (document : Document) : Option Kind := document.name?.bind ofName?

def ofJsonText? (text : String) : Option Kind := (Json.ofChars? text.toList).bind ofJson?

end Kind

namespace Codec

def json (c : Codec) : String := "\"" ++ c.name ++ "\""

def ofName? (name : String) : Option Codec := all.find? (fun c => c.name == name)

/-- The codec of this name, letters of either case. -/
def ofAnyCase? (name : List Char) : Option Codec :=
  all.find? (fun c => Text.sameLetters c.name.toList name)

def ofJson? (document : Document) : Option Codec := document.name?.bind ofName?

def ofJsonText? (text : String) : Option Codec := (Json.ofChars? text.toList).bind ofJson?

end Codec

namespace Schema

def json (s : Schema) : String :=
  "[" ++ ",".intercalate (s.kinds.map Kind.json) ++ "]"

/-- Any list of kinds, the empty one included. -/
def ofJson? : Document → Option Schema
  | .array elements => (elements.mapM Kind.ofJson?).map Schema.mk
  | _ => none

end Schema

/-- The schema that a text is read as. -/
def Json.Library.schema? (lib : Json.Library) (text : String) : Option Schema :=
  (lib.document? text.toList).bind Schema.ofJson?

def Schema.ofJsonText? (text : String) : Option Schema := Json.Library.standard.schema? text

namespace Value

/-- A whole number within a range; a floating number is none. -/
def wholeWithin? (lo hi : Int) : Worth → Option Int
  | .natural n => if (n : Int) ≤ hi then some n else none
  | .negative n => if lo ≤ -(n : Int) then some (-(n : Int)) else none
  | .floating _ => none

/-- The double nearest to what a number is worth. -/
def toDouble : Worth → Nat
  | .natural n => Format.double.ofNat n
  | .negative n => Format.double.signed true (Format.double.ofNat n)
  | .floating pattern => pattern

/-- The float nearest to what a number is worth. -/
def toFloat : Worth → Nat
  | .natural n => Format.single.ofNat n
  | .negative n => Format.single.signed true (Format.single.ofNat n)
  | .floating pattern => toSingle pattern

/-- The value of the kind that a number stands for. -/
def ofWorth? (kind : Kind) (w : Worth) : Option Value :=
  match kind with
  | .int => (wholeWithin? 0 0xFFFFFFFF w).map (fun i => .int (UInt32.ofNat i.toNat))
  | .sint => (wholeWithin? (-0x80000000) 0x7FFFFFFF w).map (fun i => .sint (Int32.ofInt i))
  | .float => some (.float ⟨UInt32.ofNat (toFloat w)⟩)
  | .double => some (.double ⟨UInt64.ofNat (toDouble w)⟩)
  | .long => (wholeWithin? (-0x8000000000000000) 0x7FFFFFFFFFFFFFFF w).map (fun i => .long (Int64.ofInt i))
  | .bool => none
  | .byte => (wholeWithin? (-128) 127 w).map (fun i => .byte (Int8.ofInt i))

def membersAt (key : List Char) (members : List (Option (List Char) × Document)) :
    List Document :=
  (members.filter (fun m => m.1 == some key)).map Prod.snd

end Value

namespace Json.Library

variable (lib : Json.Library)

/-- The value of the kind that a document stands for. -/
def ofContent? (kind : Kind) : Document → Option Value
  | .number n => (lib.worth? n).bind (Value.ofWorth? kind)
  | .bool b => if kind = .bool then some (.bool b) else none
  | _ => none

/-- An object with exactly one kind and one content, and any other members
whose keys can be read, or an array of a kind's name and a content. -/
def ofDocument? : Document → Option Value
  | .array [.string (some name), content] =>
    (Kind.ofName? (String.ofList name)).bind (fun k => lib.ofContent? k content)
  | .object members =>
    if members.any (fun m => m.1.isNone) then none
    else
      match Value.membersAt "kind".toList members, Value.membersAt "value".toList members with
      | [kind], [content] => (Kind.ofJson? kind).bind (fun k => lib.ofContent? k content)
      | _, _ => none
  | _ => none

/-- The value that a text is read as. -/
def value? (text : String) : Option Value := (lib.document? text.toList).bind lib.ofDocument?

end Json.Library

def Value.ofJsonText? (text : String) : Option Value := Json.Library.standard.value? text

end ValueStream
