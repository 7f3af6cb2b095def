import ValueStream.Binary.Format

/-!
Multiplying and dividing finite magnitudes, rounded to nearest even.
-/

namespace ValueStream.Binary.Format

variable (f : Format)

def ofNat (n : Nat) : Nat := f.ofRatio (Ratio.ofNat n)

/-- The magnitude nearest to the product of two finite magnitudes. -/
def multiply (a b : Nat) : Nat :=
  let x := f.value a
  let y := f.value b
  f.ofRatio ⟨x.num * y.num, x.den * y.den⟩

/-- The magnitude nearest to the quotient of two finite magnitudes, the second
of which is not zero. -/
def divide (a b : Nat) : Nat :=
  let x := f.value a
  let y := f.value b
  f.ofRatio ⟨x.num * y.den, x.den * y.num⟩

example : double.multiply (double.ofNat 3) (double.ofNat 5) = double.ofNat 15 := by decide +kernel

example : double.divide (double.ofNat 1) (double.ofNat 10) = 0x3FB999999999999A := by
  decide +kernel

end ValueStream.Binary.Format
