import ValueStream.Decimal.Layout
import ValueStream.Text.Fields
import ValueStream.Value.Basic

/-!
Values as text.

A value is written so that reading it back gives the same bits: whole numbers
in decimal, finite floating numbers with the shortest digits, and a
not-a-number as its pattern in base sixteen behind `0x`, which the reader takes
for any floating value.
-/

namespace ValueStream

open Binary

namespace Value

/-- Numbers from 0.0001 to below 10^16 are written in full; an exponent has no
plus sign; the upper of two equally near numerals is written. -/
def textLayout : Decimal.Layout := ⟨-4, 15, false, .up⟩

def floatingText (f : Format) (pattern : Nat) : List Char :=
  if f.isNaN pattern then
    '0' :: 'x' :: Text.padLeft f.hexDigits '0' (Nat.toDigits 16 pattern)
  else if f.isInfinite pattern then
    if f.isNegative pattern then ['-', 'i', 'n', 'f'] else ['i', 'n', 'f']
  else textLayout.finite f pattern

def chars : Value → List Char
  | int v => Text.natural v.toNat
  | sint v => Text.integer v.toInt
  | float v => floatingText .single v.bits.toNat
  | double v => floatingText .double v.bits.toNat
  | long v => Text.integer v.toInt
  | bool true => ['t', 'r', 'u', 'e']
  | bool false => ['f', 'a', 'l', 's', 'e']
  | byte v => Text.integer v.toInt

def text (v : Value) : String := String.ofList v.chars

def lineOf (vs : List Value) : String := String.ofList (Text.join ',' (vs.map chars))

/-- The magnitude of a numeral without a sign, or of `inf`, `infinity` or
`nan` in any case. -/
def magnitude? (f : Format) (cs : List Char) : Option Nat :=
  match Decimal.ofText? cs with
  | some d => some (d.toMagnitude f)
  | none =>
    if Text.sameLetters cs ['i', 'n', 'f'] then some f.infinity
    else if Text.sameLetters cs ['i', 'n', 'f', 'i', 'n', 'i', 't', 'y'] then some f.infinity
    else if Text.sameLetters cs ['n', 'a', 'n'] then some f.quiet
    else none

/-- A floating pattern: `0x` and the pattern itself, or an optional sign and a
magnitude. -/
def floating? (f : Format) : List Char → Option Nat
  | '0' :: 'x' :: cs => (Text.natural? 16 cs).filter (· < 2 * f.signWeight)
  | '-' :: cs => (magnitude? f cs).map (f.signed true)
  | '+' :: cs => magnitude? f cs
  | cs => magnitude? f cs

def within? (lo hi : Int) (cs : List Char) : Option Int :=
  (Text.integer? cs).filter (fun i => lo ≤ i ∧ i ≤ hi)

/-- The value of the kind that a text without blanks around it stands for. -/
def ofTrimmed? (kind : Kind) (cs : List Char) : Option Value :=
  match kind with
  | .int => ((Text.natural? 10 cs).filter (· < UInt32.size)).map (fun n => .int (UInt32.ofNat n))
  | .sint => (within? (-0x80000000) 0x7FFFFFFF cs).map (fun i => .sint (Int32.ofInt i))
  | .float => (floating? .single cs).map (fun n => .float ⟨UInt32.ofNat n⟩)
  | .double => (floating? .double cs).map (fun n => .double ⟨UInt64.ofNat n⟩)
  | .long => (within? (-0x8000000000000000) 0x7FFFFFFFFFFFFFFF cs).map (fun i => .long (Int64.ofInt i))
  | .bool =>
    if cs = ['t', 'r', 'u', 'e'] ∨ cs = ['1'] then some (.bool true)
    else if cs = ['f', 'a', 'l', 's', 'e'] ∨ cs = ['0'] then some (.bool false)
    else none
  | .byte => (within? (-128) 127 cs).map (fun i => .byte (Int8.ofInt i))

/-- Read a value of the kind, blanks around it aside. -/
def ofChars (kind : Kind) (cs : List Char) : Except ParseError Value :=
  let trimmed := Text.trim cs
  match ofTrimmed? kind trimmed with
  | some v => .ok v
  | none => .error (.invalidValue kind (String.ofList trimmed))

def ofText (kind : Kind) (text : String) : Except ParseError Value := ofChars kind text.toList

end Value

end ValueStream
