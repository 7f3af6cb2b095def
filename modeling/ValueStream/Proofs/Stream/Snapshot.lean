import ValueStream.Proofs.Stream.Padding
import ValueStream.Proofs.Value.Path

/-!
Snapshots of a stream that is still written to.

Without a flush the committed bytes may end inside a code, the rest of which
still waits. They are the first bits of the stream all the same
(`ofBytes_wholeBytes_eq_take`), so the integers whose codes are wholly in them
are read from them (`Recalls.readInts_of_front`). Writes and flushes only add
behind the bits that are there, the waiting ones included
(`Tracks.prefix_run`), so what was committed once stays what the stream begins
with, and is read from whatever comes of it (`snapshot_reads_back`).
-/

namespace ValueStream

open Trace Traced Bits

/-! ## Bytes at the front -/

/-- The bits of the whole bytes are the first bits. -/
theorem Bits.ofBytes_wholeBytes_eq_take (bits : List Bool) :
    ofBytes (wholeBytes bits) = bits.take (8 * (bits.length / 8)) := by
  generalize hfront : bits.take (8 * (bits.length / 8)) = front
  generalize hrest : bits.drop (8 * (bits.length / 8)) = rest
  have hbits : bits = front ++ rest := by rw [← hfront, ← hrest, List.take_append_drop]
  have haligned : front.length % 8 = 0 := by
    rw [← hfront, List.length_take, Nat.min_eq_left (by omega), Nat.mul_mod_right]
  have hshort : rest.length < 8 := by
    rw [← hrest, List.length_drop]
    omega
  have hnone : wholeBytes rest = [] := wholeBytes_ofBytes [] rest hshort
  rw [hbits, wholeBytes_append haligned, hnone, List.append_nil, ofBytes_wholeBytes haligned]

theorem Bits.length_wholeBytes (bits : List Bool) : (wholeBytes bits).length = bits.length / 8 := by
  rw [wholeBytes, List.length_map, List.length_range]

/-- More bits leave the whole bytes that there are. -/
theorem Bits.prefix_wholeBytes {bits more : List Bool} (h : bits <+: more) :
    wholeBytes bits <+: wholeBytes more := by
  obtain ⟨rest, rfl⟩ := h
  have hsplit := List.take_append_drop (8 * (bits.length / 8)) bits
  have haligned : (bits.take (8 * (bits.length / 8))).length % 8 = 0 := by
    rw [List.length_take, Nat.min_eq_left (by omega), Nat.mul_mod_right]
  have hfront : wholeBytes (bits.take (8 * (bits.length / 8))) = wholeBytes bits := by
    rw [← ofBytes_wholeBytes_eq_take, ← List.append_nil (ofBytes _),
      wholeBytes_ofBytes _ [] (by decide)]
  conv_rhs => rw [← hsplit, List.append_assoc, wholeBytes_append haligned, hfront]
  exact List.prefix_append _ _

theorem Bits.LiesAt.of_front {z : Nat → Bool} {c : Nat} {bits more : List Bool}
    (hz : LiesAt z c more) (h : bits <+: more) : LiesAt z c bits := by
  obtain ⟨rest, rfl⟩ := h
  exact (liesAt_append.mp hz).1

/-- Bytes lie at the front of themselves. -/
theorem Bits.liesAt_zero (data : Array UInt8) : LiesAt (endless data) 0 (ofBytes data.toList) := by
  have hlies := liesAt_bytes #[] #[] data.toList
  rwa [Array.toArray_toList, Array.empty_append, Array.append_empty] at hlies

/-! ## Bits that stay -/

/-- A call that does not roll back adds bits behind those that are there. -/
theorem Call.prefix_onBits {α : Type} (code : α → List Bool) (bits : List Bool) {c : Call α}
    (hc : ∀ p, c ≠ .rollBack p) : bits <+: (c.onBits code bits).2 := by
  obtain ⟨a, rfl⟩ | hflush := write_or_flushes hc
  · exact List.prefix_append _ _
  · rw [onBits_of_flushes hflush]
    exact prefix_pad bits

theorem Call.prefix_runOnBits {α : Type} (code : α → List Bool) (bits : List Bool)
    {cs : List (Call α)} (h : ∀ p, rollBack p ∉ cs) : bits <+: (runOnBits code bits cs).2 := by
  induction cs generalizing bits with
  | nil => exact List.prefix_rfl
  | cons c cs ih =>
    obtain ⟨hc, hcs⟩ := forward_cons h
    rw [runOnBits_cons]
    exact (prefix_onBits code bits hc).trans (ih _ hcs)

/-- Without a roll-back a stream keeps its bits, and the bytes that were committed. -/
theorem Tracks.prefix_run {σ α : Type} [IntWriter σ] {put : σ → α → Traced σ}
    {code : α → List Bool} {Sound : σ → Prop} {bits : σ → List Bool}
    (T : Tracks put code Sound bits) {s : σ} (hs : Sound s) {cs : List (Call α)}
    (h : ∀ p, Call.rollBack p ∉ cs) :
    bits s <+: bits (Call.run put s cs).value.2
      ∧ (IntWriter.bytes s).toList <+: (IntWriter.bytes (Call.run put s cs).value.2).toList := by
  obtain ⟨hend, hrun⟩ := T.run hs (Call.backward_of_forward h put s)
  have hfront := Call.prefix_runOnBits code (bits s) h
  rw [hrun] at hfront
  refine ⟨hfront, ?_⟩
  rw [T.bytes s hs, T.bytes _ hend]
  exact prefix_wholeBytes hfront

/-! ## Reading the front -/

/-- Of the integers whose codes lie at the cursor one after the other, as many are read as there
are codes in the bits that are there. -/
theorem Recalls.readInts_of_front {ρ : Type} [IntReader ρ] {z : Nat → Bool}
    {code : UInt32 → List Bool} {Sound : ρ → Prop} {cursor : ρ → Nat}
    (R : Recalls z code Sound cursor) {r : ρ} (hr : Sound r) {ws : List UInt32} {n m : Nat}
    (hz : LiesAt z (cursor r) ((ws.flatMap code).take n)) (hm : m ≤ ws.length)
    (hfit : ((ws.take m).flatMap code).length ≤ n) :
    (IntReader.readInts r m).1 = ws.take m
      ∧ cursor (IntReader.readInts r m).2 = cursor r + ((ws.take m).flatMap code).length := by
  have hfront : (ws.take m).flatMap code <+: (ws.flatMap code).take n := by
    refine List.prefix_take_iff.mpr ⟨?_, hfit⟩
    conv_rhs => rw [← List.take_append_drop m ws, List.flatMap_append]
    exact List.prefix_append _ _
  have hlength : (ws.take m).length = m := List.length_take_of_le hm
  obtain ⟨-, hread, hcursor⟩ := R.readInts hr (hz.of_front hfront)
  rw [hlength] at hread hcursor
  exact ⟨hread, hcursor⟩

/-- The committed bytes of a stream that was never flushed hold the integers whose codes fit into
them, and give them back, then and after whatever is written and flushed later. Fewer than eight
bits are not in them, with the dense codec none. -/
theorem snapshot_reads_back (c : Codec) (capacity : Nat) (ws : List UInt32)
    (calls : List (Call (Path × Value))) (h : ∀ p, Call.rollBack p ∉ calls) :
    let s := (ws.foldlM IntWriter.writeInt (c.writer capacity)).value
    let snapshot := IntWriter.bytes s
    let later := IntWriter.bytes (Call.run Path.put s calls).value.2
    let cost := fun ws : List UInt32 => (ws.map c.cost).sum
    8 * snapshot.size ≤ cost ws ∧ cost ws < 8 * snapshot.size + 8
      ∧ (c = .dense → cost ws = 8 * snapshot.size)
      ∧ snapshot.toList <+: later.toList
      ∧ ∀ m ≤ ws.length, cost (ws.take m) ≤ 8 * snapshot.size →
        (IntReader.readInts (c.reader snapshot 0) m).1 = ws.take m
          ∧ (IntReader.readInts (c.reader snapshot 0) m).2.cursor = cost (ws.take m)
          ∧ (IntReader.readInts (c.reader later 0) m).1 = ws.take m
          ∧ (IntReader.readInts (c.reader later 0) m).2.cursor = cost (ws.take m) := by
  intro s snapshot later cost
  obtain ⟨hsound, hbits⟩ := c.tracks.putAll (c.sound_writer capacity) ws
  rw [c.bits_writer, List.nil_append] at hbits
  obtain ⟨-, hfront⟩ := c.tracks.paths.prefix_run hsound h
  have hbytes : snapshot.toList = wholeBytes (ws.flatMap c.code) := by
    rw [← hbits]
    exact c.tracks.bytes s hsound
  have hsize : snapshot.size = cost ws / 8 := by
    rw [← Array.length_toList, hbytes, length_wholeBytes, c.length_flatMap_code]
  have hsnapshot : ofBytes snapshot.toList = (ws.flatMap c.code).take (8 * snapshot.size) := by
    rw [hbytes, ofBytes_wholeBytes_eq_take, c.length_flatMap_code, hsize]
  -- what lies at the front of the snapshot lies at the front of all that comes of it
  have hreads : ∀ data : Array UInt8, snapshot.toList <+: data.toList → ∀ m ≤ ws.length,
      cost (ws.take m) ≤ 8 * snapshot.size →
      (IntReader.readInts (c.reader data 0) m).1 = ws.take m
        ∧ (IntReader.readInts (c.reader data 0) m).2.cursor = cost (ws.take m) := by
    intro data hdata m hm hfit
    obtain ⟨rest, hrest⟩ := hdata
    have hfront : LiesAt (endless data) (c.reader data 0).cursor
        ((ws.flatMap c.code).take (8 * snapshot.size)) := by
      have hlies := liesAt_zero data
      rw [← hrest, ofBytes_append, hsnapshot] at hlies
      rw [c.cursor_reader]
      exact (liesAt_append.mp hlies).1
    obtain ⟨hread, hcursor⟩ := (c.recalls data).readInts_of_front (c.sound_reader data 0) hfront hm
      ((c.length_flatMap_code _).trans_le hfit)
    rw [c.cursor_reader, Nat.mul_zero, Nat.zero_add, c.length_flatMap_code] at hcursor
    exact ⟨hread, hcursor⟩
  refine ⟨by omega, by omega, ?_, hfront, ?_⟩
  · rintro rfl
    have hpadding : padding (cost ws) = 0 := Codec.padding_dense ws
    rw [padding] at hpadding
    omega
  · intro m hm hfit
    obtain ⟨hread, hcursor⟩ := hreads snapshot List.prefix_rfl m hm hfit
    obtain ⟨hreadLater, hcursorLater⟩ := hreads later hfront m hm hfit
    exact ⟨hread, hcursor, hreadLater, hcursorLater⟩

/-- All but two bits of the last code are committed; a flush and another value come behind them. -/
theorem snapshot_reads_back_inside_a_code :
    let ws : List UInt32 := [0, 5, 0, 70000]
    let s := (ws.foldlM IntWriter.writeInt (Codec.sparse.writer 0)).value
    let calls : List (Call (Path × Value)) := [.align, .write (.word, .double ⟨1⟩), .startScope]
    (∀ p, Call.rollBack p ∉ calls)
      ∧ (IntWriter.bytes s).toList = [0x42, 0xB4, 0x71, 0x6C]
      ∧ (ws.map Codec.sparse.cost).sum = 34
      ∧ (IntReader.readInts (Codec.sparse.reader (IntWriter.bytes s) 0) 3).1 = [0, 5, 0]
      ∧ (IntReader.readInts (Codec.sparse.reader
          (IntWriter.bytes (Call.run Path.put s calls).value.2) 0) 3).1 = [0, 5, 0] := by
  intro ws s calls
  have hforward : ∀ p, Call.rollBack p ∉ calls := by simp [calls]
  have hbytes : (IntWriter.bytes s).toList = [0x42, 0xB4, 0x71, 0x6C] := by decide +kernel
  have hcost : (ws.map Codec.sparse.cost).sum = 34 := by decide +kernel
  have hsize : (IntWriter.bytes s).size = 4 := by rw [← Array.length_toList, hbytes]; rfl
  have hthree : 3 ≤ ws.length := by simp [ws]
  have hfit : ((ws.take 3).map Codec.sparse.cost).sum ≤ 8 * (IntWriter.bytes s).size := by
    rw [hsize]
    decide +kernel
  have htake : ws.take 3 = [0, 5, 0] := rfl
  obtain ⟨-, -, -, -, hreads⟩ := snapshot_reads_back .sparse 0 ws calls hforward
  obtain ⟨hread, -, hreadLater, -⟩ := hreads 3 hthree hfit
  rw [htake] at hread hreadLater
  subst s
  exact ⟨hforward, hbytes, hcost, hread, hreadLater⟩

end ValueStream
