import ValueStream.Proofs.Dense.Canonical
import ValueStream.Proofs.Sparse.Canonical
import ValueStream.Proofs.Sparse.Writer

/-!
Reading an integer and writing it again.

On any input a reader takes at least as much as the writer takes for the integer
that is read. What it takes is what the writer writes just where it is canonical,
which the sparse codec shows in its first and last tokens and the dense codec in
its last byte (`readInt_canonical_iff`).
-/

namespace ValueStream

open Bits

namespace Sparse.Reader

/-- The bits that a read takes, and the integer that it takes them for. -/
theorem readInt_taken {r : Reader} (h : r.bit.toNat < 8) :
    r.readInt.1 = (decode (endless r.data) r.cursor).1
      ∧ window (endless r.data) r.cursor (r.readInt.2.cursor - r.cursor)
        = taken (endless r.data) r.cursor := by
  have hsound : r.Sound r.data := ⟨rfl, h⟩
  obtain ⟨-, hdecode⟩ := readInt_spec hsound
  rw [taken, hdecode]
  exact ⟨rfl, rfl⟩

end Sparse.Reader

namespace Dense.Reader

/-- The bytes that a read takes, and the integer that it takes them for. -/
theorem readInt_taken (r : Reader) :
    r.readInt.1 = (decode (endlessBytes r.data) r.position).1
      ∧ (List.range (r.readInt.2.position - r.position)).map
          (fun i => endlessBytes r.data (r.position + i))
        = taken (endlessBytes r.data) 5 r.position := by
  have hsound : r.Sound r.data := rfl
  obtain ⟨-, hdecode⟩ := readInt_spec hsound
  have hposition : (decode (endlessBytes r.data) r.position).2 = r.readInt.2.position := by
    rw [hdecode]
  have hend : r.readInt.2.position - r.position
      = (taken (endlessBytes r.data) 5 r.position).length := by
    rw [← hposition, decode, Nat.add_sub_cancel_left]
  refine ⟨by rw [hdecode], ?_⟩
  rw [hend, taken_eq_map, List.length_map, List.length_range]

end Dense.Reader

/-- Whatever a reader is over and wherever it stands, it takes as much as the integer that it
reads needs or more. Writing the integer gives back the bits or the bytes that were taken just
where they are canonical. -/
theorem readInt_canonical_iff :
    (∀ r : Sparse.Reader, r.bit.toNat < 8 →
        let v := r.readInt.1
        let bits := window (endless r.data) r.cursor (r.readInt.2.cursor - r.cursor)
        Sparse.bitLength v ≤ r.readInt.2.cursor - r.cursor
          ∧ ∀ w : Sparse.Writer, w.Sound →
            ((w.writeInt v).value.bits = w.bits ++ bits ↔ Sparse.IsCanonical bits))
      ∧ ∀ r : Dense.Reader,
        let v := r.readInt.1
        let bytes := (List.range (r.readInt.2.position - r.position)).map
          (fun i => Dense.endlessBytes r.data (r.position + i))
        Dense.byteLength v ≤ r.readInt.2.position - r.position
          ∧ ∀ w : Dense.Writer, w.Sound →
            ((w.writeInt v).value.buffer.bytes.toList = w.buffer.bytes.toList ++ bytes
              ↔ Dense.IsCanonical bytes) := by
  constructor
  · intro r hbit v bits
    obtain ⟨hvalue, hbits⟩ : v = _ ∧ bits = _ := Sparse.Reader.readInt_taken hbit
    have hlength : bits.length = r.readInt.2.cursor - r.cursor := length_window _ _ _
    constructor
    · rw [← hlength, hbits, hvalue]
      exact Sparse.bitLength_le _ _
    · intro w hw
      rw [(Sparse.Writer.writeInt_spec hw v).2, List.append_cancel_left_eq, eq_comm, hbits, hvalue]
      exact Sparse.eq_code_iff _ _
  · intro r v bytes
    obtain ⟨hvalue, hbytes⟩ : v = _ ∧ bytes = _ := Dense.Reader.readInt_taken r
    have hlength : bytes.length = r.readInt.2.position - r.position := by
      rw [List.length_map, List.length_range]
    constructor
    · rw [← hlength, hbytes, hvalue]
      exact Dense.byteLength_le _ _
    · intro w hw
      rw [(Dense.Writer.bytes_writeInt hw v).2, List.append_cancel_left_eq, eq_comm, hbytes,
        hvalue]
      exact Dense.eq_code_iff _ _

/-- Five with a group of zeros before it, three bits into a byte, and then five as it is written;
and the same in bytes. -/
theorem readInt_canonical_iff_of_padding :
    let data : Array UInt8 := #[0xB8, 0x10, 0xB0, 0xA0]
    let padded : Sparse.Reader := ⟨data, 0, 3⟩
    let least : Sparse.Reader := ⟨data, 2, 3⟩
    let ended : Dense.Reader := ⟨#[0x85, 0x00, 0x05], 0⟩
    let w := Sparse.Writer.ofCapacity 0
    let w' := Dense.Writer.ofCapacity 0
    padded.bit.toNat < 8 ∧ least.bit.toNat < 8 ∧ w.Sound ∧ w'.Sound
      ∧ padded.readInt = (5, least) ∧ least.readInt = (5, ⟨data, 3, 3⟩)
      ∧ Sparse.bitLength 5 ≤ 16
      ∧ (w.writeInt 5).value.bits ≠ w.bits ++ window (endless data) 3 16
      ∧ (w.writeInt 5).value.bits = w.bits ++ window (endless data) 19 8
      ∧ ended.readInt = (5, ⟨ended.data, 2⟩) ∧ Dense.byteLength 5 ≤ 2
      ∧ (w'.writeInt 5).value.buffer.bytes.toList
        ≠ w'.buffer.bytes.toList ++ [0x85, 0x00] := by
  intro data padded least ended w w'
  have hpadded : padded.readInt = (5, least) := by decide
  have hleast : least.readInt = (5, ⟨data, 3, 3⟩) := by decide
  have hended : ended.readInt = (5, ⟨ended.data, 2⟩) := by decide
  have hw : w.Sound := Sparse.Writer.sound_ofCapacity 0
  have hw' : w'.Sound := Dense.Writer.sound_ofCapacity 0
  obtain ⟨hsparse, hdense⟩ := readInt_canonical_iff
  obtain ⟨hlength, hnot⟩ := hsparse padded (by decide)
  obtain ⟨-, hback⟩ := hsparse least (by decide)
  obtain ⟨hbytes, hnone⟩ := hdense ended
  simp only [hpadded] at hlength hnot
  simp only [hleast] at hback
  simp only [hended] at hbytes hnone
  exact ⟨by decide, by decide, hw, hw', hpadded, hleast, hlength,
    fun h => absurd ((hnot w hw).mp h) (by decide), (hback w hw).mpr (by decide), hended, hbytes,
    fun h => absurd ((hnone w' hw').mp h) (by decide)⟩

end ValueStream
