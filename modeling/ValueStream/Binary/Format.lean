import ValueStream.Binary.Ratio
import ValueStream.Word

/-!
Binary floating formats with exact rounding.

A pattern is a sign bit above a magnitude. The magnitudes, as whole numbers,
are in the order of the values they stand for: first zero and the numbers
below the least normal one, then the normal numbers, then infinity, then the
patterns that are not a number. `ofRatio` rounds any ratio to the nearest
magnitude, the even one of two that are equally near.
-/

namespace ValueStream.Binary

/-- A format is given by the widths of its exponent and its fraction. -/
structure Format where
  exponentBits : Nat
  fractionBits : Nat
  deriving DecidableEq

namespace Format

def single : Format := ⟨8, 23⟩

def double : Format := ⟨11, 52⟩

variable (f : Format)

/-- What an exponent field is reduced by. -/
def bias : Nat := Nat.pow 2 (f.exponentBits - 1) - 1

/-- The exponent of the last place of the smallest numbers. -/
def leastExponent : Int := 1 - (f.bias : Int) - f.fractionBits

/-- The weight of the sign bit; magnitudes are below it. -/
def signWeight : Nat := Nat.pow 2 (f.exponentBits + f.fractionBits)

/-- The weight of the lowest exponent bit; fractions are below it. -/
def fractionWeight : Nat := Nat.pow 2 f.fractionBits

def infinity : Nat := (Nat.pow 2 f.exponentBits - 1) * f.fractionWeight

/-- The magnitude that the text `nan` stands for. -/
def quiet : Nat := f.infinity + f.fractionWeight / 2

/-- Digits of the pattern in base sixteen. -/
def hexDigits : Nat := (1 + f.exponentBits + f.fractionBits) / 4

def magnitude (pattern : Nat) : Nat := pattern % f.signWeight

def isNegative (pattern : Nat) : Bool := f.signWeight ≤ pattern

def signed (negative : Bool) (magnitude : Nat) : Nat :=
  if negative then f.signWeight + magnitude else magnitude

def isNaN (pattern : Nat) : Bool := f.infinity < f.magnitude pattern

def isInfinite (pattern : Nat) : Bool := f.magnitude pattern == f.infinity

def isFinite (pattern : Nat) : Bool := f.magnitude pattern < f.infinity

/-- The significand and the exponent of a finite magnitude, which is worth
`significand * 2 ^ exponent`. -/
def decode (magnitude : Nat) : Nat × Int :=
  let field := magnitude / f.fractionWeight
  let fraction := magnitude % f.fractionWeight
  if field = 0 then (fraction, f.leastExponent)
  else (fraction + f.fractionWeight, f.leastExponent + (field - 1 : Nat))

def value (magnitude : Nat) : Ratio :=
  let (significand, exponent) := f.decode magnitude
  (Ratio.ofNat significand).scale 2 exponent

/-- The magnitude nearest to a ratio. The significand is rounded at the place
that the size of the ratio calls for; one that is rounded up to the next power
of two carries into the exponent field by itself, and what lies beyond the
largest number becomes infinity. -/
def ofRatio (r : Ratio) : Nat :=
  if r.num = 0 then 0
  else
    let exponent := max f.leastExponent (r.floorLog2 - f.fractionBits)
    let significand := (r.scale 2 (-exponent)).roundHalfEven
    min ((exponent - f.leastExponent).toNat * f.fractionWeight + significand) f.infinity

/-- Equality of values: not-a-number equals nothing, and the zeros of both
signs are equal. -/
def equal (a b : Nat) : Bool :=
  !f.isNaN a && !f.isNaN b && (a == b || (f.magnitude a == 0 && f.magnitude b == 0))

example : (single.infinity, single.quiet) = (0x7F800000, 0x7FC00000) := by decide

example : (double.infinity, double.quiet) = (0x7FF0000000000000, 0x7FF8000000000000) := by
  decide +kernel

example : [⟨1, 1⟩, ⟨1, 10⟩, ⟨3, 2⟩, ⟨16777217, 1⟩].map single.ofRatio
    = [0x3F800000, 0x3DCCCCCD, 0x3FC00000, 0x4B800000] := by decide +kernel

end Format

/-- The single precision pattern nearest to a double precision pattern, of the
same sign. -/
def toSingle (pattern : Nat) : Nat :=
  let rounded :=
    if Format.double.isFinite pattern then
      Format.single.ofRatio (Format.double.value (Format.double.magnitude pattern))
    else if Format.double.isInfinite pattern then Format.single.infinity
    else Format.single.quiet
  Format.single.signed (Format.double.isNegative pattern) rounded

end ValueStream.Binary
