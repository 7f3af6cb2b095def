import ValueStream.Word

/-!
Reading typed values from any integer codec.

The other side of `ValueStream.Stream.Writer`. Reading never fails: past the end
of the bytes everything reads as zero, and it is the caller who knows how many
values there are.
-/

namespace ValueStream

/-- A cursor over bytes that unsigned 32-bit integers are read from. -/
class IntReader (ρ : Type) where
  /-- Read the next integer and move past it. -/
  readInt : ρ → UInt32 × ρ
  /-- The byte the cursor is in. -/
  position : ρ → Nat
  /-- Move to the first bit of a byte. -/
  seek : ρ → (position : Nat) → ρ

namespace IntReader

variable {ρ : Type} [IntReader ρ]

def readSigned (r : ρ) : Int32 × ρ :=
  let (w, r) := readInt r
  (Word.unfold w, r)

def readFloat (r : ρ) : Binary32 × ρ :=
  let (w, r) := readInt r
  (⟨Word.reverse w⟩, r)

def readDouble (r : ρ) : Binary64 × ρ :=
  let (upper, r) := readInt r
  let (lower, r) := readInt r
  (⟨Word.join (Word.reverse upper) (Word.reverse lower)⟩, r)

def readLong (r : ρ) : Int64 × ρ :=
  let (lower, r) := readSigned r
  let (upper, r) := readSigned r
  ((Word.join upper.toUInt32 lower.toUInt32).toInt64, r)

/-- Every integer but zero reads as true. -/
def readBool (r : ρ) : Bool × ρ :=
  let (w, r) := readInt r
  (w != 0, r)

/-- Only the lowest eight bits of the integer count. -/
def readByte (r : ρ) : Int8 × ρ :=
  let (w, r) := readInt r
  (w.toUInt8.toInt8, r)

end IntReader

end ValueStream
