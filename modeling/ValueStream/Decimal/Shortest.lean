import ValueStream.Decimal.Numeral

/-!
The shortest decimal numeral that reads back to a floating number.

For one digit, two digits and so on, the value has two neighbours among the
numerals with that many digits. The first count for which a neighbour rounds
back to the number is taken; of two such neighbours the nearer one, and `Tie`
says which of two that are equally near.
-/

namespace ValueStream.Decimal

open Binary

/-- Which of two neighbours at equal distance is taken. -/
inductive Tie where
  | up
  | even
  deriving DecidableEq

/-- Whether the upper neighbour of a value between `lower` and `lower + 1` is taken. -/
def Tie.takesUpper (tie : Tie) (r : Ratio) : Bool :=
  match r.compareHalf with
  | .lt => false
  | .gt => true
  | .eq => tie == .up || r.floor % 2 == 1

/-- Whether the numeral rounds to the magnitude. -/
def readsBack (f : Format) (magnitude : Nat) (d : Decimal) : Bool := d.toMagnitude f == magnitude

/-- The neighbour of the magnitude among the multiples of `10 ^ exponent` that
reads back, if there is one. -/
def neighbour? (f : Format) (tie : Tie) (magnitude : Nat) (exponent : Int) : Option Decimal :=
  let r := (f.value magnitude).scale 10 (-exponent)
  let lower : Decimal := ⟨r.floor, exponent⟩
  let upper : Decimal := ⟨r.floor + 1, exponent⟩
  match readsBack f magnitude lower, readsBack f magnitude upper with
  | true, true => some (if tie.takesUpper r then upper else lower)
  | true, false => some lower
  | false, true => some upper
  | false, false => none

/-- Every digit of a magnitude: a power of two has a finite decimal form. -/
def exact (f : Format) (magnitude : Nat) : Decimal :=
  let (significand, exponent) := f.decode magnitude
  if 0 ≤ exponent then ⟨significand * Nat.pow 2 exponent.toNat, 0⟩
  else ⟨significand * Nat.pow 5 (-exponent).toNat, exponent⟩

/-- A count of digits with which every number of the format can be told from
all others: 9 for single, 17 for double precision. -/
def enoughDigits (f : Format) : Nat := (f.fractionBits + 1) * 30103 / 100000 + 2

/-- The shortest numeral for a finite magnitude other than zero. The search
ends within `enoughDigits`; the exact numeral stands behind it. -/
def shortest (f : Format) (tie : Tie) (magnitude : Nat) : Decimal :=
  let first := (f.value magnitude).floorLog10
  let found := (List.range (enoughDigits f)).findSome?
    (fun (places : Nat) => neighbour? f tie magnitude (first - places))
  (found.getD (exact f magnitude)).strip

example : (enoughDigits .single, enoughDigits .double) = (9, 17) := by decide

example : shortest .double .up 1 = ⟨5, -324⟩ := by decide +kernel

example : shortest .single .up 0x3DCCCCCD = ⟨1, -1⟩ := by decide +kernel

example : (shortest .single .up 0x4A000001, shortest .single .even 0x4A000001)
    = (⟨20971523, -1⟩, ⟨20971522, -1⟩) := by decide +kernel

end ValueStream.Decimal
