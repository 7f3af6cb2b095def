import ValueStream.Binary.Format
import ValueStream.Text.Numeral

/-!
Decimal numerals and the floating numbers nearest to them.

A numeral is digits with at most one point, at least one digit in all, and an
optional exponent. It is rounded straight to the format, to the nearest number
and to the even one of two that are equally near.
-/

namespace ValueStream

/-- The number `coefficient * 10 ^ exponent`. -/
structure Decimal where
  coefficient : Nat
  exponent : Int
  deriving DecidableEq

namespace Decimal

open Binary

def ratio (d : Decimal) : Ratio := (Ratio.ofNat d.coefficient).scale 10 d.exponent

def isDigit (c : Char) : Bool := '0' ≤ c && c ≤ '9'

/-- An exponent: nothing, or `e` in either case before a whole number. -/
def exponent? : List Char → Option Int
  | [] => some 0
  | c :: cs => if c = 'e' ∨ c = 'E' then Text.integer? cs else none

/-- The digits after a point, if there is a point, and the text behind them. -/
def fractionOf : List Char → List Char × List Char
  | '.' :: cs => cs.span isDigit
  | cs => ([], cs)

def ofText? (cs : List Char) : Option Decimal :=
  let (whole, cs) := cs.span isDigit
  let (fraction, cs) := fractionOf cs
  match Text.digits? 10 (whole ++ fraction), exponent? cs with
  | some coefficient, some exponent => some ⟨coefficient, exponent - fraction.length⟩
  | _, _ => none

/-- Where the first digit of the coefficient stands: the numeral is below
`10 ^ top`, and at least `10 ^ (top - 1)` unless it is zero. -/
def top (d : Decimal) : Int := (Text.natural d.coefficient).length + d.exponent

/-- The magnitude nearest to the numeral. Numerals far beyond the largest and
far below the smallest number are settled by their size alone. -/
def toMagnitude (d : Decimal) (f : Format) : Nat :=
  if d.coefficient = 0 then 0
  else if (f.bias : Int) < d.top - 1 then f.infinity
  else if d.top < -(f.bias : Int) then 0
  else f.ofRatio d.ratio

/-- The numeral without the zeros at the end of its coefficient. -/
def strip (d : Decimal) : Decimal :=
  if h : d.coefficient ≠ 0 ∧ d.coefficient % 10 = 0 then
    strip ⟨d.coefficient / 10, d.exponent + 1⟩
  else d
termination_by d.coefficient
decreasing_by omega

example : ofText? "12.50e3".toList = some ⟨1250, 1⟩ := by decide +kernel

example : [".".toList, "e5".toList, "1e".toList, "1.2.3".toList].map ofText?
    = [none, none, none, none] := by decide +kernel

end Decimal

end ValueStream
