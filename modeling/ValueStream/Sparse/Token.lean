/-!
Tokens of the sparse codec.

Zero is the single bit 0. Any other integer is cut into groups of six bits,
leading zero groups are skipped, and each group becomes an eight-bit token,
the most significant first: tag 11 and the group while more follow, tag 10 and
the group at the end. A token starts with the bit 1, so it is never taken for
a zero.
-/

namespace ValueStream.Sparse

def tagMask : UInt8 := 0xC0

/-- Tag 11: more tokens follow. -/
def continuationTag : UInt8 := 0xC0

/-- Tag 10: the last token of an integer. -/
def terminalTag : UInt8 := 0x80

def dataMask : UInt32 := 0x3F

/-- Data bits carried by a token. -/
def dataBits : UInt32 := 6

/-- The groups that a continuation token may carry, most significant first. -/
def upperGroups : List UInt32 := [5, 4, 3, 2, 1]

def fromGroup (v i : UInt32) : UInt32 := v >>> (dataBits * i)

/-- Group `i` of the integer under a tag. -/
def token (tag : UInt8) (v i : UInt32) : UInt8 := tag ||| (fromGroup v i &&& dataMask).toUInt8

/-- The tokens of an integer other than zero, in the order they are written. -/
def tokens (v : UInt32) : List UInt8 :=
  (upperGroups.filter (fun i => fromGroup v i ≠ 0)).map (token continuationTag v)
    ++ [token terminalTag v 0]

/-- Bits up to and including the highest bit that is set. -/
def significantBits (v : UInt32) : Nat := if v = 0 then 0 else v.toNat.log2 + 1

/-- Bits the codec spends on an integer: one for zero, eight for each group of
six significant bits begun. -/
def bitLength (v : UInt32) : Nat :=
  if v = 0 then 1 else (significantBits v + 5) / 6 * 8

example : tokens 1 = [0x81] := by decide

example : tokens 4095 = [0xFF, 0xBF] := by decide

example : tokens 0xFFFFFFFF = [0xC3, 0xFF, 0xFF, 0xFF, 0xFF, 0xBF] := by decide

end ValueStream.Sparse
