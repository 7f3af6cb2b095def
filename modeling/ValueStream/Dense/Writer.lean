import ValueStream.Buffer
import ValueStream.Stream.Writer

/-!
The dense writer: base 128, whole bytes.

Seven bits go into a byte, the least significant first, and the top bit is set
on every byte but the last. Nothing is ever pending, so there is nothing to
flush.
-/

namespace ValueStream.Dense

open Trace

/-- The top bit of a byte: more bytes follow. -/
def continuation : UInt8 := 0x80

/-- The seven data bits of a byte. -/
def payloadMask : UInt8 := 0x7F

def byteLength (v : UInt32) : Nat :=
  if v < 0x80 then 1
  else if v < 0x4000 then 2
  else if v < 0x200000 then 3
  else if v < 0x10000000 then 4
  else 5

theorem toNat_shiftRight_seven (v : UInt32) : (v >>> 7).toNat = v.toNat / 128 := by
  rw [UInt32.toNat_shiftRight]
  exact Nat.shiftRight_eq_div_pow _ _

/-- Dropping the seven lowest bits of a word that has more makes it smaller. -/
theorem toNat_shiftRight_seven_lt {v : UInt32} (h : ¬v >>> 7 = 0) :
    (v >>> 7).toNat < v.toNat := by
  have hne : (v >>> 7).toNat ≠ 0 := fun hz => h (UInt32.toNat_inj.mp hz)
  rw [toNat_shiftRight_seven] at hne ⊢
  omega

structure Writer where
  buffer : Buffer
  deriving DecidableEq

namespace Writer

/-- An empty stream over a block of `capacity` bytes. -/
def ofCapacity (capacity : Nat) : Writer := ⟨Buffer.ofCapacity capacity⟩

def capacity (w : Writer) : Nat := w.buffer.capacity

def writeByte : Writer → UInt8 → Traced Writer
  | ⟨buffer⟩, byte => do
    let buffer ← buffer.write byte
    pure ⟨buffer⟩

def writeInt (w : Writer) (v : UInt32) : Traced Writer :=
  if _h : v >>> 7 = 0 then w.writeByte (v.toUInt8 &&& payloadMask)
  else do
    let w ← w.writeByte ((v.toUInt8 &&& payloadMask) ||| continuation)
    w.writeInt (v >>> 7)
termination_by v.toNat
decreasing_by exact toNat_shiftRight_seven_lt _h

def rollBack : Writer → (position : Nat) → Traced Writer
  | ⟨buffer⟩, position => do
    Traced.report (.rollingBack .dense buffer.length position)
    let buffer ← buffer.setLength position
    pure ⟨buffer⟩

instance : IntWriter Writer where
  writeInt := writeInt
  flush := pure
  rollBack := rollBack
  length w := w.buffer.length
  bytes w := w.buffer.bytes

end Writer

end ValueStream.Dense
