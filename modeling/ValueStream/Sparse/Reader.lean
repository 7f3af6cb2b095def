import ValueStream.Limits
import ValueStream.Sparse.Token
import ValueStream.Stream.Reader

/-!
The sparse reader: a bit cursor over bytes that are followed by endless zeros.

A first bit 0 is the integer zero. Otherwise tokens of eight bits are read and
their groups joined until one has a tag other than 11 or six have been read,
so every input is some integer and reading always stops.
-/

namespace ValueStream.Sparse

/-- Bytes and a cursor at bit `bit`, counted from the top, of byte `position`. -/
structure Reader where
  data : Array UInt8
  position : Nat
  bit : UInt8
  deriving DecidableEq

namespace Reader

/-- A reader at the first bit of byte `position`. -/
def ofBytes (data : Array UInt8) (position : Nat) : Reader := ⟨data, position, 0⟩

/-- A byte of the input; past the end all bytes are zero. -/
def byteAt (r : Reader) (index : Nat) : UInt8 := r.data[index]?.getD 0

def atZero (r : Reader) : Bool := r.byteAt r.position &&& (0x80 >>> r.bit) == 0

def skipBit (r : Reader) : Reader :=
  if r.bit + 1 = 8 then { r with position := r.position + 1, bit := 0 }
  else { r with bit := r.bit + 1 }

/-- The eight bits from the cursor on, and the reader after them. -/
def readToken (r : Reader) : UInt8 × Reader :=
  let first := r.byteAt r.position
  let second := r.byteAt (r.position + 1)
  let token := if r.bit = 0 then first else (first <<< r.bit) ||| (second >>> (8 - r.bit))
  (token, { r with position := r.position + 1 })

/-- Join the groups of at most `count` tokens to `result`. -/
def readTokens : (count : Nat) → (result : UInt32) → Reader → UInt32 × Reader
  | 0, result, r => (result, r)
  | count + 1, result, r =>
    let (token, r) := r.readToken
    let result := (result <<< dataBits) ||| (token.toUInt32 &&& dataMask)
    if token &&& tagMask = continuationTag then readTokens count result r else (result, r)

def readInt (r : Reader) : UInt32 × Reader :=
  if r.atZero then (0, r.skipBit) else readTokens Limits.sparseTokens 0 r

def seek (r : Reader) (position : Nat) : Reader := { r with position, bit := 0 }

instance : IntReader Reader where
  readInt := readInt
  position := Reader.position
  seek := seek

end Reader

end ValueStream.Sparse
