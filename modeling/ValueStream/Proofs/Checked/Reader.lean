import ValueStream.Proofs.Checked.Machine
import ValueStream.Proofs.Codec
import ValueStream.Proofs.Dense.Base128
import ValueStream.Proofs.Value.Path

/-!
Reading with every step checked.

A read stream of either codec, and the typed values off it, with the shifts and
the places of the machine. The bytes that are read are never at fault: past the
end they are zero, and whatever they are, an integer ends after six of them. So a
reader stops nowhere as long as its bit offset is inside a byte, which every read
and every seek keeps (`sound_perform`), and its place is not at the end of the
numbers (`performChecked_eq`).
-/

namespace ValueStream

open Trace Checked

/-! ## Sparse streams -/

namespace Sparse.Reader

def atZeroChecked (r : Reader) : Checked Bool := do
  let mask ← shiftRight (0x80 : UInt8) r.bit
  pure (r.byteAt r.position &&& mask == 0)

def skipBitChecked (r : Reader) : Checked Reader := do
  let bit ← add r.bit 1
  if bit = 8 then do
    let position ← add r.position 1
    pure { r with position := position, bit := 0 }
  else pure { r with bit := bit }

def readTokenChecked (r : Reader) : Checked (UInt8 × Reader) := do
  let first := r.byteAt r.position
  let position ← add r.position 1
  if r.bit = 0 then pure (first, { r with position := position })
  else do
    let second := r.byteAt position
    let upper ← shiftLeft first r.bit
    let room ← sub 8 r.bit
    let lower ← shiftRight second room
    pure (upper ||| lower, { r with position := position })

def readTokensChecked : (count : Nat) → (result : UInt32) → Reader → Checked (UInt32 × Reader)
  | 0, result, r => pure (result, r)
  | count + 1, result, r => do
    let (token, r) ← r.readTokenChecked
    let moved ← shiftLeft result dataBits
    let result := moved ||| (token.toUInt32 &&& dataMask)
    if token &&& tagMask = continuationTag then readTokensChecked count result r
    else pure (result, r)

def readIntChecked (r : Reader) : Checked (UInt32 × Reader) := do
  let zero ← r.atZeroChecked
  if zero then do
    let r ← r.skipBitChecked
    pure (0, r)
  else readTokensChecked Limits.sparseTokens 0 r

variable {r : Reader}

theorem atZeroChecked_eq (h : r.bit.toNat < 8) : r.atZeroChecked = pure r.atZero := by
  rw [atZeroChecked, shiftRight_of (shifts_byte h), pure_bind, atZero]

theorem skipBitChecked_eq (h : r.bit.toNat < 8) (hnear : r.position + 1 ≤ 0xFFFFFFFFFFFFFFFF) :
    r.skipBitChecked = pure r.skipBit := by
  have hcount : add r.bit 1 = pure (r.bit + 1) := by
    apply add_byte
    show r.bit.toNat + 1 ≤ 0xFF
    omega
  rw [skipBitChecked, hcount, pure_bind, add_size hnear, pure_bind, skipBit]
  split <;> rfl

/-- A token is shifted by the offset and by the rest of the byte only where there is an
offset, so neither shift is by eight. -/
theorem readTokenChecked_eq (h : r.bit.toNat < 8) (hnear : r.position + 1 ≤ 0xFFFFFFFFFFFFFFFF) :
    r.readTokenChecked = pure r.readToken := by
  rw [readTokenChecked, add_size hnear, pure_bind, readToken]
  dsimp only
  split
  · rfl
  · next hinside =>
    have hrest : sub 8 r.bit = pure (8 - r.bit) := sub_byte (Nat.le_of_lt h)
    have hdown : Shifts (8 - r.bit) := shifts_rest hinside h
    rw [shiftLeft_of (shifts_byte h), pure_bind, hrest, pure_bind, shiftRight_of hdown, pure_bind]

theorem readTokensChecked_eq (count : Nat) (result : UInt32) (h : r.bit.toNat < 8)
    (hnear : r.position + count ≤ 0xFFFFFFFFFFFFFFFF) :
    readTokensChecked count result r = pure (readTokens count result r) := by
  induction count generalizing result r with
  | zero => rfl
  | succ count ih =>
    have hone : r.position + 1 ≤ 0xFFFFFFFFFFFFFFFF := by omega
    have hmove : shiftLeft result dataBits = pure (result <<< dataBits) := shiftLeft_of (by decide) _
    have hnext : r.readToken.2.position + count ≤ 0xFFFFFFFFFFFFFFFF := by
      show r.position + 1 + count ≤ 0xFFFFFFFFFFFFFFFF
      omega
    rw [readTokensChecked, readTokenChecked_eq h hone, pure_bind, readTokens]
    dsimp only
    rw [hmove, pure_bind]
    split
    · exact ih _ h hnext
    · rfl

theorem readIntChecked_eq (h : r.bit.toNat < 8) (hnear : r.position + 6 ≤ 0xFFFFFFFFFFFFFFFF) :
    r.readIntChecked = pure r.readInt := by
  have hone : r.position + 1 ≤ 0xFFFFFFFFFFFFFFFF := by omega
  rw [readIntChecked, atZeroChecked_eq h, pure_bind, readInt]
  split
  · rw [skipBitChecked_eq h hone, pure_bind]
  · exact readTokensChecked_eq 6 0 h hnear

theorem position_readInt_le (h : r.bit.toNat < 8) : r.readInt.2.position ≤ r.position + 6 := by
  have hsound : r.Sound r.data := ⟨rfl, h⟩
  have hnext := (readInt_spec hsound).1.bit
  have hmoved := (readInt_advance hsound).2
  unfold cursor at hmoved
  omega

end Sparse.Reader

/-! ## Dense streams -/

namespace Dense.Reader

def readByteChecked (r : Reader) : Checked (UInt8 × Reader) := do
  let position ← add r.position 1
  pure (r.data[r.position]?.getD 0, { r with position := position })

def readBytesChecked :
    (count : Nat) → (shift : UInt32) → (result : UInt32) → Reader → Checked (UInt32 × Reader)
  | 0, _, result, r => pure (result, r)
  | count + 1, shift, result, r => do
    let (byte, r) ← r.readByteChecked
    let digit ← shiftLeft (byte &&& payloadMask).toUInt32 shift
    let result := result ||| digit
    if byte &&& continuation = 0 then pure (result, r)
    else do
      let shift ← add shift 7
      readBytesChecked count shift result r

def readIntChecked (r : Reader) : Checked (UInt32 × Reader) :=
  readBytesChecked Limits.denseBytes 0 0 r

variable {r : Reader}

/-- The shift of the byte that is read last is the greatest, and is by 28. -/
theorem readBytesChecked_eq (count : Nat) (shift result : UInt32)
    (hshift : shift.toNat + 7 * count ≤ 35) (hnear : r.position + count ≤ 0xFFFFFFFFFFFFFFFF) :
    readBytesChecked count shift result r = pure (readBytes count shift result r) := by
  induction count generalizing shift result r with
  | zero => rfl
  | succ count ih =>
    have hone : r.position + 1 ≤ 0xFFFFFFFFFFFFFFFF := by omega
    have hbyte : r.readByteChecked = pure r.readByte := by
      rw [readByteChecked, add_size hone, pure_bind, readByte]
    have hplace : Shifts shift := by
      apply shifts_word
      omega
    have hseven : (7 : UInt32).toNat = 7 := rfl
    have hcount : add shift 7 = pure (shift + 7) := by
      apply add_word
      omega
    have hsum : (shift + 7).toNat = shift.toNat + 7 := by
      rw [UInt32.toNat_add, hseven]
      exact Nat.mod_eq_of_lt (by omega)
    have hnext : r.readByte.2.position + count ≤ 0xFFFFFFFFFFFFFFFF := by
      show r.position + 1 + count ≤ 0xFFFFFFFFFFFFFFFF
      omega
    rw [readBytesChecked, hbyte, pure_bind, readBytes]
    dsimp only
    rw [shiftLeft_of hplace, pure_bind]
    split
    · rfl
    · rw [hcount, pure_bind]
      exact ih _ _ (by omega) hnext

theorem readIntChecked_eq (hnear : r.position + 5 ≤ 0xFFFFFFFFFFFFFFFF) :
    r.readIntChecked = pure r.readInt := readBytesChecked_eq 5 0 0 (by decide) hnear

theorem position_readBytes_le (count : Nat) (shift result : UInt32) :
    (readBytes count shift result r).2.position ≤ r.position + count := by
  induction count generalizing shift result r with
  | zero => exact Nat.le_refl _
  | succ count ih =>
    have hrest := ih (r := r.readByte.2) (shift + 7)
      (result ||| ((r.readByte.1 &&& payloadMask).toUInt32 <<< shift))
    have hnext : r.readByte.2.position = r.position + 1 := rfl
    rw [readBytes]
    dsimp only
    split
    · show r.readByte.2.position ≤ r.position + (count + 1)
      omega
    · omega

end Dense.Reader

/-! ## Streams of either codec -/

/-- What a read stream is asked for. -/
inductive Request where
  /-- The next value, taken as one of a kind. -/
  | read (path : Path) (k : Kind)
  | seek (position : Nat)
  deriving DecidableEq

/-- Do what is asked; reading gives a value. -/
def Request.perform {ρ : Type} [IntReader ρ] (r : ρ) : Request → Option Value × ρ
  | read p k => (p.read k r).map some id
  | seek p => (none, IntReader.seek r p)

namespace Codec.Reader

def readIntChecked : Reader → Checked (UInt32 × Reader)
  | sparse r => do
    let (v, r) ← r.readIntChecked
    pure (v, sparse r)
  | dense r => do
    let (v, r) ← r.readIntChecked
    pure (v, dense r)

def readSignedChecked (r : Reader) : Checked (Int32 × Reader) := do
  let (w, r) ← r.readIntChecked
  let v ← Word.unfoldChecked w
  pure (v, r)

def readDoubleChecked (r : Reader) : Checked (Binary64 × Reader) := do
  let (upper, r) ← r.readIntChecked
  let (lower, r) ← r.readIntChecked
  let bits ← Word.joinChecked (Word.reverse upper) (Word.reverse lower)
  pure (⟨bits⟩, r)

def readLongChecked (r : Reader) : Checked (Int64 × Reader) := do
  let (lower, r) ← r.readSignedChecked
  let (upper, r) ← r.readSignedChecked
  let bits ← Word.joinChecked upper.toUInt32 lower.toUInt32
  pure (bits.toInt64, r)

def readChecked (r : Reader) : Kind → Checked (Value × Reader)
  | .int => do
    let (w, r) ← r.readIntChecked
    pure (.int w, r)
  | .sint => do
    let (v, r) ← r.readSignedChecked
    pure (.sint v, r)
  | .float => do
    let (w, r) ← r.readIntChecked
    pure (.float ⟨Word.reverse w⟩, r)
  | .double => do
    let (v, r) ← r.readDoubleChecked
    pure (.double v, r)
  | .long => do
    let (v, r) ← r.readLongChecked
    pure (.long v, r)
  | .bool => do
    let (w, r) ← r.readIntChecked
    pure (.bool (w != 0), r)
  | .byte => do
    let (w, r) ← r.readIntChecked
    pure (.byte w.toUInt8.toInt8, r)

/-- Do what is asked; a seek only puts the place, and makes no step that could stop. -/
def performChecked (r : Reader) : Request → Checked (Option Value × Reader)
  | .read _ k => do
    let (v, r) ← r.readChecked k
    pure (some v, r)
  | .seek p => pure (none, IntReader.seek r p)

variable {data : Array UInt8} {c : Codec} {r : Reader}

theorem sound_readInt (h : Sound data c r) : Sound data c (IntReader.readInt r).2 := by
  match c, r, h with
  | .sparse, sparse r, h => exact (Sparse.Reader.readInt_spec h).1
  | .dense, dense r, h => exact ((Dense.Reader.follows data).readInt r h).1

theorem position_readInt_le (h : Sound data c r) :
    IntReader.position (IntReader.readInt r).2 ≤ IntReader.position r + 6 := by
  match c, r, h with
  | .sparse, sparse r, h => exact Sparse.Reader.position_readInt_le h.bit
  | .dense, dense r, _ =>
    exact Nat.le_succ_of_le (Dense.Reader.position_readBytes_le 5 0 0)

theorem readIntChecked_eq (h : Sound data c r)
    (hnear : IntReader.position r + 6 ≤ 0xFFFFFFFFFFFFFFFF) :
    r.readIntChecked = pure (IntReader.readInt r) := by
  match c, r, h with
  | .sparse, sparse r, h =>
    rw [readIntChecked, Sparse.Reader.readIntChecked_eq h.bit hnear]
    rfl
  | .dense, dense r, _ =>
    have hfive : r.position + 5 ≤ 0xFFFFFFFFFFFFFFFF := Nat.le_of_succ_le hnear
    rw [readIntChecked, Dense.Reader.readIntChecked_eq hfive]
    rfl

theorem readSignedChecked_eq (h : Sound data c r)
    (hnear : IntReader.position r + 6 ≤ 0xFFFFFFFFFFFFFFFF) :
    r.readSignedChecked = pure (IntReader.readSigned r) := by
  rw [readSignedChecked, readIntChecked_eq h hnear, pure_bind]
  dsimp only
  rw [Word.unfoldChecked_eq, pure_bind]
  rfl

/-- A value is one or two integers, each of at most six bytes. -/
theorem readChecked_eq (h : Sound data c r)
    (hnear : IntReader.position r + 12 ≤ 0xFFFFFFFFFFFFFFFF) (k : Kind) :
    r.readChecked k = pure (k.read r) := by
  have hmoved := position_readInt_le h
  have hone : IntReader.position r + 6 ≤ 0xFFFFFFFFFFFFFFFF := by omega
  have hfirst := readIntChecked_eq h hone
  have hsecond : (IntReader.readInt r).2.readIntChecked
      = pure (IntReader.readInt (IntReader.readInt r).2) :=
    readIntChecked_eq (sound_readInt h) (by omega)
  have hsigned := readSignedChecked_eq h hone
  have hsignedSecond : (IntReader.readSigned r).2.readSignedChecked
      = pure (IntReader.readSigned (IntReader.readInt r).2) :=
    readSignedChecked_eq (r := (IntReader.readInt r).2) (sound_readInt h) (by omega)
  cases k with
  | sint =>
    rw [readChecked, hsigned, pure_bind]
    rfl
  | double =>
    rw [readChecked, readDoubleChecked, hfirst, pure_bind]
    dsimp only
    rw [hsecond, pure_bind, Word.joinChecked_eq, pure_bind]
    rfl
  | long =>
    rw [readChecked, readLongChecked, hsigned, pure_bind]
    dsimp only
    rw [hsignedSecond, pure_bind, Word.joinChecked_eq, pure_bind]
    rfl
  | _ =>
    rw [readChecked, hfirst, pure_bind]
    rfl

/-- The bytes that are read do not matter, nor what they are read as. -/
theorem sound_perform (h : Sound data c r) (q : Request) : Sound data c (q.perform r).2 := by
  cases q with
  | read p k =>
    have hone := sound_readInt h
    have htwo := sound_readInt hone
    rw [Request.perform, Path.read_eq]
    cases k with
    | double => exact htwo
    | long => exact htwo
    | _ => exact hone
  | seek p => exact ((c.recalls data).seek r p h).1

/-- A reader whose offset is inside a byte does what it is asked for without a stop. -/
theorem performChecked_eq (h : Sound data c r)
    (hnear : IntReader.position r + 12 ≤ 0xFFFFFFFFFFFFFFFF) (q : Request) :
    r.performChecked q = pure (q.perform r) := by
  cases q with
  | read p k =>
    rw [performChecked, readChecked_eq h hnear, pure_bind, Request.perform, Path.read_eq]
    rfl
  | seek p => rfl

/-- The offset is inside a byte. -/
theorem bit_le (h : Sound data c r) : ∀ b ∈ r.bit?, b.toNat ≤ 7 := by
  match c, r, h with
  | .sparse, sparse r, h =>
    intro b hb
    obtain rfl := Option.some.inj hb
    exact Nat.le_of_lt_succ h.bit
  | .dense, dense r, _ =>
    intro b hb
    cases hb

end Codec.Reader

end ValueStream
