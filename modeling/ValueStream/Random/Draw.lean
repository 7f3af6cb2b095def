import ValueStream.Random.Keystream

/-!
Numbers drawn from a stream of words.

A whole number below a bound is the upper half of a word times the bound. When
the lower half is so large that the product of a longer word might carry into
the upper half, one more word decides about the carry.
-/

namespace ValueStream.Random

/-- How a word is taken from a stream, and the bound that all words are below. -/
structure Words where
  size : Nat
  take : Keystream → Nat × Keystream

def shortWords : Words :=
  ⟨UInt32.size, fun s => let (w, s) := s.next; (w.toNat, s)⟩

def longWords : Words :=
  ⟨UInt64.size, fun s => let (w, s) := s.nextLong; (w.toNat, s)⟩

/-- A number below a bound, which is not above the bound of the words. -/
def Words.below (words : Words) (bound : Nat) (s : Keystream) : Nat × Keystream :=
  let (w, s) := words.take s
  let upper := w * bound / words.size
  let lower := w * bound % words.size
  if words.size - bound < lower then
    let (w, s) := words.take s
    (if words.size ≤ lower + w * bound / words.size then upper + 1 else upper, s)
  else (upper, s)

/-- A whole number from `lo` on, `width` many. -/
def Words.between (words : Words) (lo : Int) (width : Nat) (s : Keystream) : Int × Keystream :=
  let (n, s) := words.below width s
  (lo + n, s)

/-- Whether something of a probability happens; the probability is given in
parts of the bound of long words. -/
def happens (probability : UInt64) (s : Keystream) : Bool × Keystream :=
  let (w, s) := s.nextLong
  (w < probability, s)

end ValueStream.Random
