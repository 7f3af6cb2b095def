import ValueStream.Binary.Format
import ValueStream.Text.Numeral

/-!
Quotients with a fixed number of decimal places.

The quotient of two whole numbers is first rounded to a double and that double
is then rounded to the places, each time to nearest and to even on a tie. The
second rounding sees the double exactly, so 1.015, whose double lies below it,
becomes 1.01.
-/

namespace ValueStream.Decimal

open Binary

def fixed (places : Nat) (r : Ratio) : List Char :=
  let n := (r.scale 10 places).roundHalfEven
  let fraction := Text.padLeft places '0' (Text.natural (n % Nat.pow 10 places))
  Text.natural (n / Nat.pow 10 places) ++ '.' :: fraction

/-- The quotient of two whole numbers, the second positive, with decimal places. -/
def quotient (places a b : Nat) : List Char :=
  fixed places (Format.double.value (Format.double.ofRatio ⟨a, b⟩))

example : [quotient 2 9 8, quotient 2 11 8, quotient 2 203 200, quotient 2 8 1].map String.ofList
    = ["1.12", "1.38", "1.01", "8.00"] := by decide +kernel

end ValueStream.Decimal
