import ValueStream.Binary.Arithmetic
import ValueStream.Json.Document

/-!
What a JSON number is worth.

A number without point and exponent that fits 64 bits is that whole number,
except that minus zero is a floating number. Every other number is a double,
put together quickly rather than precisely: digits are gathered while they fit
64 bits, further ones only move the point, and the gathered number is rounded
and then multiplied or divided by a rounded power of ten. The result may differ
from the nearest double in its last place, and a number that becomes infinite
on the way is refused.
-/

namespace ValueStream.Json

open Binary

inductive Worth where
  /-- A whole number that is not negative. -/
  | natural (n : Nat)
  /-- A negative whole number, by its absolute value. -/
  | negative (n : Nat)
  /-- A double precision pattern. -/
  | floating (pattern : Nat)
  deriving DecidableEq

/-- Append digits while the number fits 64 bits; also the count of digits left over. -/
def gather : (n : Nat) → List Nat → Nat × Nat
  | n, [] => (n, 0)
  | n, d :: ds => if n * 10 + d < UInt64.size then gather (n * 10 + d) ds else (n, ds.length + 1)

/-- The greatest power of ten that is a double. -/
def greatestPower : Nat := 308

def power (e : Nat) : Nat := Format.double.ofNat (Nat.pow 10 e)

/-- A double magnitude times a power of ten; `none` if it becomes infinite. A
far negative exponent takes several divisions. -/
def scale? (magnitude : Nat) (exponent : Int) : Option Nat :=
  if 0 ≤ exponent then
    if exponent.toNat ≤ greatestPower then
      let product := Format.double.multiply magnitude (power exponent.toNat)
      if product = Format.double.infinity then none else some product
    else if magnitude = 0 then some 0
    else none
  else if (-exponent).toNat ≤ greatestPower then
    some (Format.double.divide magnitude (power (-exponent).toNat))
  else if magnitude = 0 then some 0
  else scale? (Format.double.divide magnitude (power greatestPower)) (exponent + greatestPower)
termination_by (-exponent).toNat
decreasing_by simp only [greatestPower] at *; omega

/-- Gathered digits times a power of ten, under a sign. -/
def floating? (negative : Bool) (n : Nat) (exponent : Int) : Option Worth :=
  (scale? (Format.double.ofNat n) exponent).map
    (fun magnitude => .floating (Format.double.signed negative magnitude))

/-- A whole number of at most 64 bits, under a sign. -/
def wholeWorth (negative : Bool) (n : Nat) : Worth :=
  if !negative then .natural n
  else if n = 0 ∨ 0x8000000000000000 < n then .floating (Format.double.signed true (Format.double.ofNat n))
  else .negative n

/-- What the number is worth; `none` if it is out of range. -/
def Number.worth? (x : Number) : Option Worth :=
  let (n, left) := gather 0 x.whole
  if x.fraction.isEmpty && x.exponent.isNone && left == 0 then some (wholeWorth x.negative n)
  else
    let (n, leftBehind) := gather n x.fraction
    let places : Int := left - (x.fraction.length - leftBehind : Nat)
    floating? x.negative n (places + x.exponent.getD 0)

end ValueStream.Json
