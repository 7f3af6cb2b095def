import ValueStream.Decimal.Shortest

/-!
How the digits of a floating number are laid out.

A layout says which sizes are written in full and how an exponent is written
otherwise. Numbers in full always have a point with a digit on both sides;
with an exponent there is one digit before the point, and no point if that
digit is the only one.
-/

namespace ValueStream.Decimal

open Binary

/-- The decisions of a written form. The size of a number is the exponent of
its first digit. -/
structure Layout where
  /-- Least size written in full. -/
  least : Int
  /-- Greatest size written in full. -/
  greatest : Int
  /-- Whether an exponent that is not negative has a plus sign. -/
  plus : Bool
  /-- Which of two equally near shortest numerals is written. -/
  tie : Tie
  deriving DecidableEq

namespace Layout

/-- Digits in full, the first of them worth `10 ^ size`. -/
def inFull (digits : List Char) (size : Int) : List Char :=
  if size < 0 then
    '0' :: '.' :: (List.replicate (-size - 1).toNat '0' ++ digits)
  else
    let count := size.toNat + 1
    let whole := digits.take count ++ List.replicate (count - digits.length) '0'
    let fraction := digits.drop count
    whole ++ '.' :: (if fraction.isEmpty then ['0'] else fraction)

/-- Digits with an exponent, the first of them worth `10 ^ size`. -/
def withExponent (plus : Bool) (digits : List Char) (size : Int) : List Char :=
  let fraction := digits.drop 1
  let mantissa := digits.take 1 ++ (if fraction.isEmpty then [] else '.' :: fraction)
  mantissa ++ 'e' :: ((if plus ∧ 0 ≤ size then ['+'] else []) ++ Text.integer size)

/-- A numeral other than zero. -/
def numeral (l : Layout) (d : Decimal) : List Char :=
  let digits := Text.natural d.coefficient
  let size := d.exponent + digits.length - 1
  if l.least ≤ size ∧ size ≤ l.greatest then inFull digits size
  else withExponent l.plus digits size

/-- A finite pattern: a minus sign if it is negative, then its digits. -/
def finite (l : Layout) (f : Format) (pattern : Nat) : List Char :=
  let magnitude := f.magnitude pattern
  let text :=
    if magnitude = 0 then ['0', '.', '0'] else l.numeral (shortest f l.tie magnitude)
  if f.isNegative pattern then '-' :: text else text

end Layout

end ValueStream.Decimal
