import ValueStream.Codec
import ValueStream.Proofs.Dense.Reader
import ValueStream.Proofs.Sparse.Reader
import ValueStream.Proofs.Sparse.Writer

/-!
Both codecs at once.

What the two writers and the two readers have been shown to do is put together
for the sums of them, so that whatever follows is proved once for either codec:
`Codec.code` is what an integer is in bits, `Codec.tracks` says that the writer
keeps track of a bit list, and `Codec.recalls` that the reader gives back codes
that lie at its cursor.
-/

namespace ValueStream.Codec

open Bits

/-- The code of an integer. -/
def code : Codec → UInt32 → List Bool
  | sparse, v => Sparse.code v
  | dense, v => ofBytes (Dense.code v)

/-- Bits the codec spends on an integer. -/
def cost : Codec → UInt32 → Nat
  | sparse, v => Sparse.bitLength v
  | dense, v => 8 * Dense.byteLength v

theorem length_code (c : Codec) (v : UInt32) : (c.code v).length = c.cost v := by
  cases c with
  | sparse => exact Sparse.length_code v
  | dense => rw [code, length_ofBytes, Dense.length_code, cost]

/-- The codes of many integers are as long as what the codec spends on them. -/
theorem length_flatMap_code (c : Codec) (ws : List UInt32) :
    (ws.flatMap c.code).length = (ws.map c.cost).sum := by
  rw [List.length_flatMap]
  exact congrArg List.sum (List.map_congr_left (fun w _ => c.length_code w))

/-- Nothing is written in no bits at all. -/
theorem cost_pos (c : Codec) (v : UInt32) : 0 < c.cost v := by
  cases c with
  | sparse =>
    simp only [cost, Sparse.bitLength, Sparse.significantBits]
    split
    · exact Nat.one_pos
    · omega
  | dense =>
    have hbyte : 0 < Dense.byteLength v := by
      unfold Dense.byteLength
      split_ifs <;> decide
    exact Nat.mul_pos (by decide) hbyte

theorem length_le_cost (c : Codec) (ws : List UInt32) : ws.length ≤ (ws.map c.cost).sum := by
  induction ws with
  | nil => exact Nat.le_refl 0
  | cons w ws ih =>
    have hpos := c.cost_pos w
    rw [List.length_cons, List.map_cons, List.sum_cons]
    omega

/-- Whole bytes have no bits missing. -/
theorem padding_dense (ws : List UInt32) : padding (ws.map dense.cost).sum = 0 := by
  have hwhole : (ws.map dense.cost).sum % 8 = 0 := by
    induction ws with
    | nil => rfl
    | cons w ws ih =>
      rw [List.map_cons, List.sum_cons, cost]
      omega
  rw [padding, hwhole]

/-- Bits up to a byte boundary are zeros on the stream: the sparse codec has a code of
one zero bit, and the dense codec never leaves any. -/
theorem flatMap_code_padding (c : Codec) (ws : List UInt32) :
    (List.replicate (padding (ws.map c.cost).sum) 0).flatMap c.code
      = List.replicate (padding (ws.map c.cost).sum) false := by
  cases c with
  | sparse => simp [code, Sparse.code_zero, List.flatMap_replicate]
  | dense =>
    rw [padding_dense]
    rfl

namespace Writer

/-- The stream is of the codec, and as sound as the codec's streams are. -/
def Sound : Codec → Writer → Prop
  | .sparse, sparse w => w.Sound
  | .dense, dense w => w.Sound
  | _, _ => False

/-- The bits written so far. -/
def bits : Writer → List Bool
  | sparse w => w.bits
  | dense w => w.bits

end Writer

theorem sound_writer (c : Codec) (capacity : Nat) : Writer.Sound c (c.writer capacity) := by
  cases c with
  | sparse => exact Sparse.Writer.sound_ofCapacity capacity
  | dense => exact Dense.Writer.sound_ofCapacity capacity

theorem bits_writer (c : Codec) (capacity : Nat) : (c.writer capacity).bits = [] := by
  cases c with
  | sparse => exact Sparse.Writer.bits_ofCapacity capacity
  | dense => exact Dense.Writer.bits_ofCapacity capacity

/-- A write stream of either codec stands for the bits written so far. -/
theorem tracks (c : Codec) : Tracks IntWriter.writeInt c.code (Writer.Sound c) Writer.bits where
  put w v h := by
    match c, w, h with
    | .sparse, .sparse w, h => exact Sparse.Writer.tracks.put w v h
    | .dense, .dense w, h => exact Dense.Writer.tracks.put w v h
  flush w h := by
    match c, w, h with
    | .sparse, .sparse w, h => exact Sparse.Writer.tracks.flush w h
    | .dense, .dense w, h => exact Dense.Writer.tracks.flush w h
  rollBack w p h hle := by
    match c, w, h with
    | .sparse, .sparse w, h => exact Sparse.Writer.tracks.rollBack w p h hle
    | .dense, .dense w, h => exact Dense.Writer.tracks.rollBack w p h hle
  length w h := by
    match c, w, h with
    | .sparse, .sparse w, h => exact Sparse.Writer.tracks.length w h
    | .dense, .dense w, h => exact Dense.Writer.tracks.length w h
  bytes w h := by
    match c, w, h with
    | .sparse, .sparse w, h => exact Sparse.Writer.tracks.bytes w h
    | .dense, .dense w, h => exact Dense.Writer.tracks.bytes w h

namespace Reader

/-- The reader is of the codec, over `data`, and its cursor is in a byte. -/
def Sound (data : Array UInt8) : Codec → Reader → Prop
  | .sparse, sparse r => r.Sound data
  | .dense, dense r => r.Sound data
  | _, _ => False

/-- The cursor in bits. -/
def cursor : Reader → Nat
  | sparse r => r.cursor
  | dense r => 8 * r.position

end Reader

theorem sound_reader (c : Codec) (data : Array UInt8) (position : Nat) :
    Reader.Sound data c (c.reader data position) := by
  cases c with
  | sparse => exact Sparse.Reader.sound_ofBytes data position
  | dense => rfl

theorem cursor_reader (c : Codec) (data : Array UInt8) (position : Nat) :
    (c.reader data position).cursor = 8 * position := by
  cases c <;> rfl

/-- The byte of a read stream is the one that its cursor is in. -/
theorem position_eq (c : Codec) {data : Array UInt8} {r : Reader} (h : Reader.Sound data c r) :
    IntReader.position r = r.cursor / 8 := by
  match c, r, h with
  | .sparse, .sparse r, h => exact (Sparse.Reader.follows data).position r h
  | .dense, .dense r, _ => exact (Nat.mul_div_cancel_left r.position (by decide)).symm

/-- A read stream of either codec gives back the codes at its cursor. -/
theorem recalls (c : Codec) (data : Array UInt8) :
    Recalls (endless data) c.code (Reader.Sound data c) Reader.cursor where
  readInt r v h hcode := by
    match c, r, h with
    | .sparse, .sparse r, h => exact (Sparse.Reader.recalls data).readInt r v h hcode
    | .dense, .dense r, h => exact (Dense.Reader.recalls data).readInt r v h hcode
  seek r p h := by
    match c, r, h with
    | .sparse, .sparse r, h => exact (Sparse.Reader.recalls data).seek r p h
    | .dense, .dense r, h => exact (Dense.Reader.recalls data).seek r p h

end ValueStream.Codec
