import ValueStream.Buffer
import ValueStream.Sparse.Token
import ValueStream.Stream.Writer

/-!
The sparse writer: tokens at any bit offset.

Bits that do not yet fill a byte wait in `pending`. A token completes the
waiting byte with its upper bits and leaves its lower bits waiting, so the
number of waiting bits changes only when a zero is written or the stream is
flushed or rolled back.
-/

namespace ValueStream.Sparse

open Trace

/-- A buffer, and the bits written after it that do not fill a byte yet. The
lowest `pendingBits` bits of `pending` are waiting, oldest first; the others
are zero. -/
structure Writer where
  buffer : Buffer
  pending : UInt8
  pendingBits : UInt8
  deriving DecidableEq

namespace Writer

/-- An empty stream over a block of `capacity` bytes. -/
def ofCapacity (capacity : Nat) : Writer := ⟨Buffer.ofCapacity capacity, 0, 0⟩

def capacity (w : Writer) : Nat := w.buffer.capacity

/-- Append the bit 0. -/
def writeZero : Writer → Traced Writer
  | ⟨buffer, pending, pendingBits⟩ =>
    if pendingBits + 1 = 8 then do
      let buffer ← buffer.write (pending <<< 1)
      pure ⟨buffer, 0, 0⟩
    else
      pure ⟨buffer, pending <<< 1, pendingBits + 1⟩

/-- The byte that the waiting bits and the upper bits of a token fill. The
shifts are on 32 bits, so with nothing waiting the waiting byte vanishes. -/
def filledByte (pending pendingBits token : UInt8) : UInt8 :=
  let waiting := pendingBits.toUInt32
  ((pending.toUInt32 <<< (8 - waiting)) ||| (token.toUInt32 >>> waiting)).toUInt8

/-- The lower bits of a token, as many as were waiting. -/
def keptBits (pendingBits token : UInt8) : UInt8 :=
  ((0xFF >>> (8 - pendingBits.toUInt32)) &&& token.toUInt32).toUInt8

/-- Append eight bits: the waiting bits and the upper bits of the token fill a
byte, and the lower bits of the token wait instead. -/
def writeToken : Writer → UInt8 → Traced Writer
  | ⟨buffer, pending, pendingBits⟩, token => do
    let buffer ← buffer.write (filledByte pending pendingBits token)
    pure ⟨buffer, keptBits pendingBits token, pendingBits⟩

def writeInt (w : Writer) (v : UInt32) : Traced Writer :=
  if v = 0 then w.writeZero else (tokens v).foldlM writeToken w

/-- Commit the waiting bits as a byte, padded with zero bits on the right. -/
def flush : Writer → Traced Writer
  | ⟨buffer, pending, pendingBits⟩ =>
    if pendingBits = 0 then pure ⟨buffer, pending, pendingBits⟩
    else do
      Traced.report (.flushing pendingBits.toNat buffer.length)
      let buffer ← buffer.write (pending <<< (8 - pendingBits))
      pure ⟨buffer, 0, 0⟩

def rollBack : Writer → (position : Nat) → Traced Writer
  | ⟨buffer, _, _⟩, position => do
    Traced.report (.rollingBack .sparse buffer.length position)
    let buffer ← buffer.setLength position
    pure ⟨buffer, 0, 0⟩

instance : IntWriter Writer where
  writeInt := writeInt
  flush := flush
  rollBack := rollBack
  length w := w.buffer.length
  bytes w := w.buffer.bytes

end Writer

end ValueStream.Sparse
