/-!
Non-negative ratios of whole numbers, exactly.

Decimal numerals and floating patterns meet here: both are a whole number
times a power, and comparing, rounding and measuring them needs no more than
whole-number arithmetic.
-/

namespace ValueStream.Binary

/-- The ratio `num / den`; every ratio built here has a positive `den`. -/
structure Ratio where
  num : Nat
  den : Nat
  deriving DecidableEq

namespace Ratio

def ofNat (c : Nat) : Ratio := ⟨c, 1⟩

def scale (r : Ratio) (base : Nat) (e : Int) : Ratio :=
  if 0 ≤ e then ⟨r.num * Nat.pow base e.toNat, r.den⟩ else ⟨r.num, r.den * Nat.pow base (-e).toNat⟩

def atLeastOne (r : Ratio) : Bool := r.den ≤ r.num

def floor (r : Ratio) : Nat := r.num / r.den

/-- How the part after the whole part compares with one half. -/
def compareHalf (r : Ratio) : Ordering := compare (2 * (r.num % r.den)) r.den

/-- The nearest whole number, the even one of two that are equally near. -/
def roundHalfEven (r : Ratio) : Nat :=
  match r.compareHalf with
  | .lt => r.floor
  | .eq => r.floor + r.floor % 2
  | .gt => r.floor + 1

/-- The greatest `k` with `2 ^ k ≤ r`, for a positive `r`. The lengths of the
two parts leave two candidates. -/
def floorLog2 (r : Ratio) : Int :=
  let k : Int := (r.num.log2 : Int) - r.den.log2
  if (r.scale 2 (-k)).atLeastOne then k else k - 1

/-- The greatest `k` with `10 ^ k ≤ r`, for a positive `r` of moderate size.
0.30103 is the logarithm of 2, and the estimate is off by at most one. -/
def floorLog10 (r : Ratio) : Int :=
  let k := (r.floorLog2 * 30103).fdiv 100000
  if (r.scale 10 (-(k + 1))).atLeastOne then k + 1
  else if (r.scale 10 (-k)).atLeastOne then k
  else k - 1

example : [⟨1, 2⟩, ⟨3, 2⟩, ⟨5, 2⟩, ⟨9, 4⟩, ⟨11, 4⟩].map roundHalfEven = [0, 2, 2, 2, 3] := by decide

example : [⟨1, 3⟩, ⟨1, 1⟩, ⟨7, 2⟩, ⟨8, 1⟩].map floorLog2 = [-2, 0, 1, 3] := by decide +kernel

example : [⟨1, 11⟩, ⟨1, 10⟩, ⟨999, 100⟩, ⟨10, 1⟩, ⟨12345, 1⟩].map floorLog10 = [-2, -1, 0, 1, 4] := by
  decide +kernel

end Ratio

end ValueStream.Binary
