import ValueStream.Trace.Traced
import ValueStream.Word

/-!
Writing typed values to any integer codec.

A codec supplies one primitive, appending an unsigned 32-bit integer, together
with flushing and rolling back. Everything else is layered on it here, once:
signed integers are sign-folded, floating patterns are reversed, a double goes
upper half first, a long goes lower half first with both halves sign-folded,
and booleans and bytes are written as their own small integers.
-/

namespace ValueStream

open Trace

/-- A stream that unsigned 32-bit integers are appended to. -/
class IntWriter (σ : Type) where
  /-- Append one integer. -/
  writeInt : σ → UInt32 → Traced σ
  /-- Pad what is pending to a whole byte with zero bits and commit it. -/
  flush : σ → Traced σ
  /-- Give up everything from byte `position` on, pending bits included. -/
  rollBack : σ → (position : Nat) → Traced σ
  /-- The number of committed bytes. -/
  length : σ → Nat
  /-- The committed bytes; pending bits are not among them. -/
  bytes : σ → Array UInt8

namespace IntWriter

variable {σ : Type} [IntWriter σ]

/-- Flush, and give the committed length. -/
def position (s : σ) : Traced (Nat × σ) := do
  let s ← flush s
  pure (length s, s)

/-- Flush, and give the offset at which the next scope starts. -/
def startScope (s : σ) : Traced (Nat × σ) := position s

/-- Pad to the next byte boundary. -/
def align (s : σ) : Traced σ := flush s

/-- Flush, and take the encoded bytes. -/
def finish (s : σ) : Traced (Array UInt8) := do
  let s ← flush s
  pure (bytes s)

def writeSigned (s : σ) (v : Int32) : Traced σ := writeInt s (Word.fold v)

def writeFloat (s : σ) (v : Binary32) : Traced σ := writeInt s (Word.reverse v.bits)

def writeDouble (s : σ) (v : Binary64) : Traced σ := do
  let s ← writeInt s (Word.reverse (Word.high v.bits))
  writeInt s (Word.reverse (Word.low v.bits))

def writeLong (s : σ) (v : Int64) : Traced σ := do
  let s ← writeSigned s (Word.low v.toUInt64).toInt32
  writeSigned s (Word.high v.toUInt64).toInt32

def writeBool (s : σ) (v : Bool) : Traced σ := writeInt s v.toUInt32

/-- A byte is carried as its 8-bit pattern, so it takes at most two tokens. -/
def writeByte (s : σ) (v : Int8) : Traced σ := writeInt s v.toUInt8.toUInt32

end IntWriter

end ValueStream
