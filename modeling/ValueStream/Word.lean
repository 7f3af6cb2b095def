/-!
Words on their way to an integer codec.

Signed words are folded, small magnitudes first: 0, -1, 1, -2, 2, … become 0, 1,
2, 3, 4, …, so a number near zero of either sign has a short encoding. `unfold`
undoes `fold`.

A floating number is its bit pattern; a stream carries the pattern and nothing
else, so the payload of a not-a-number and the sign of zero survive. What a
pattern is worth is said in `ValueStream.Binary.Format`. It is written with its
bits reversed: numbers that are whole or short binary fractions end in a long run
of zero bits, which reversal turns into leading zeros that cost nothing. A 64-bit
pattern travels as two halves.
-/

namespace ValueStream

/-- A single precision pattern: a sign bit, 8 exponent bits, 23 fraction bits. -/
structure Binary32 where
  bits : UInt32
  deriving DecidableEq

/-- A double precision pattern: a sign bit, 11 exponent bits, 52 fraction bits. -/
structure Binary64 where
  bits : UInt64
  deriving DecidableEq

namespace Word

/-! ## Signs -/

/-- Double the number and flip every bit of a negative one. -/
def fold (v : Int32) : UInt32 := ((v <<< 1) ^^^ (v >>> 31)).toUInt32

/-- Halve the word and flip every bit of an odd one. -/
def unfold (w : UInt32) : Int32 := (w >>> 1).toInt32 ^^^ -(w &&& 1).toInt32

example : [0, -1, 1, -2, 2147483647, -2147483648].map fold
    = [0, 1, 2, 3, 4294967294, 4294967295] := by decide

example : [0, 1, 2, 3, 4294967294, 4294967295].map unfold
    = [0, -1, 1, -2, 2147483647, -2147483648] := by decide

/-! ## Patterns -/

/-- The word with bit `i` moved to bit `31 - i`. -/
def reverse (w : UInt32) : UInt32 := ⟨w.toBitVec.reverse⟩

def high (p : UInt64) : UInt32 := (p >>> 32).toUInt32

def low (p : UInt64) : UInt32 := p.toUInt32

/-- The pattern with the given upper and lower halves. -/
def join (upper lower : UInt32) : UInt64 := (upper.toUInt64 <<< 32) ||| lower.toUInt64

example : reverse 0x3FC00000 = 0x3FC := by decide +kernel

example : (high 0x0123456789ABCDEF, low 0x0123456789ABCDEF) = (0x01234567, 0x89ABCDEF) := by decide

end Word

end ValueStream
