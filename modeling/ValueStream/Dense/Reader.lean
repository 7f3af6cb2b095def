import ValueStream.Dense.Writer
import ValueStream.Limits
import ValueStream.Stream.Reader

/-!
The dense reader: a byte cursor over bytes that are followed by endless zeros.

Bytes are read until one has its top bit clear or five have been read; bits
beyond the 32nd are dropped.
-/

namespace ValueStream.Dense

structure Reader where
  data : Array UInt8
  position : Nat
  deriving DecidableEq

namespace Reader

def ofBytes (data : Array UInt8) (position : Nat) : Reader := ⟨data, position⟩

/-- The next byte, zero past the end, and the reader after it. -/
def readByte (r : Reader) : UInt8 × Reader :=
  (r.data[r.position]?.getD 0, { r with position := r.position + 1 })

/-- Add the data bits of at most `count` bytes to `result`, from bit `shift` up. -/
def readBytes : (count : Nat) → (shift : UInt32) → (result : UInt32) → Reader → UInt32 × Reader
  | 0, _, result, r => (result, r)
  | count + 1, shift, result, r =>
    let (byte, r) := r.readByte
    let result := result ||| ((byte &&& payloadMask).toUInt32 <<< shift)
    if byte &&& continuation = 0 then (result, r) else readBytes count (shift + 7) result r

def readInt (r : Reader) : UInt32 × Reader := readBytes Limits.denseBytes 0 0 r

def seek (r : Reader) (position : Nat) : Reader := { r with position }

instance : IntReader Reader where
  readInt := readInt
  position := Reader.position
  seek := seek

end Reader

end ValueStream.Dense
