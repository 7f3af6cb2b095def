import ValueStream.Proofs.Codec
import ValueStream.Proofs.Value.Record

/-!
Readers with the same bits ahead.

What a read gives and how far it moves depends on the bits from the cursor on
and on nothing else, so two readers with the same bits ahead stay abreast of each
other, whatever stands behind them (`Abreast.readInt`, `Abreast.readInts`). And
however the bits are mangled, every read moves on, by a bit or more with the
sparse codec and by a byte or more with the dense one (`leastMove`).
-/

namespace ValueStream

open Bits

/-- What stands behind the first bytes is all there is without them. -/
theorem Bits.endless_extract (data : Array UInt8) (p i : Nat) :
    endless data (8 * p + i) = endless (data.extract p data.size) i := by
  have hbyte : (8 * p + i) / 8 = p + i / 8 := Nat.mul_add_div (by decide) p i
  have hplace : (8 * p + i) % 8 = i % 8 := Nat.mul_add_mod 8 p i
  rw [endless, endless, hbyte, hplace, Array.getElem?_extract, Nat.min_self]
  split
  · rfl
  · next hbehind => rw [Array.getElem?_eq_none (by omega)]

namespace Dense

theorem length_taken_pos (z : Nat → UInt8) (count p : Nat) : 0 < (taken z (count + 1) p).length := by
  rw [taken]
  split <;> exact Nat.zero_lt_succ _

theorem taken_congr {z z' : Nat → UInt8} {p p' : Nat} (h : ∀ i, z (p + i) = z' (p' + i))
    (count : Nat) : taken z count p = taken z' count p' := by
  induction count generalizing p p' with
  | zero => rfl
  | succ count ih =>
    have hfirst : z p = z' p' := h 0
    have hrest : ∀ i, z (p + 1 + i) = z' (p' + 1 + i) := by
      intro i
      rw [Nat.add_assoc, h, ← Nat.add_assoc]
    rw [taken, taken, hfirst, ih hrest]

/-- Equal bytes ahead give equal integers and equal distances, of a byte or more. -/
theorem decode_congr {z z' : Nat → UInt8} {p p' : Nat} (h : ∀ i, z (p + i) = z' (p' + i)) :
    ∃ v n, decode z p = (v, p + n) ∧ decode z' p' = (v, p' + n) ∧ 1 ≤ n := by
  refine ⟨_, _, rfl, ?_, length_taken_pos z 4 p⟩
  rw [decode, taken_congr h]

/-- Bytes are equal where their bits are. -/
theorem endlessBytes_congr {data data' : Array UInt8} {p p' : Nat}
    (h : ∀ i, endless data (8 * p + i) = endless data' (8 * p' + i)) (i : Nat) :
    endlessBytes data (p + i) = endlessBytes data' (p' + i) := by
  have hbits : ∀ j, endless data (8 * (p + i) + j) = endless data' (8 * (p' + i) + j) := by
    intro j
    rw [Nat.mul_add, Nat.mul_add, Nat.add_assoc, h, ← Nat.add_assoc]
  apply ofByte_inj
  rw [endlessBytes, endlessBytes, ← window_byte, ← window_byte, window_congr hbits]

end Dense

/-- A record is as many integers as it has columns, or more. -/
theorem Kind.length_le_widthOf (ks : List Kind) : ks.length ≤ widthOf ks := by
  have hone : ∀ k : Kind, 1 ≤ k.width := by
    intro k
    cases k <;> decide
  induction ks with
  | nil => exact Nat.le_refl 0
  | cons k ks ih =>
    have hwidth : widthOf (k :: ks) = k.width + widthOf ks := rfl
    have hk := hone k
    rw [hwidth, List.length_cons]
    omega

namespace Codec

/-- Bits that a read moves on by at least, whatever it reads. -/
def leastMove : Codec → Nat
  | sparse => 1
  | dense => 8

/-- Readers of one codec that have the same bits ahead of them. -/
structure Abreast (c : Codec) (data data' : Array UInt8) (r r' : Reader) : Prop where
  left : Reader.Sound data c r
  right : Reader.Sound data' c r'
  ahead : ∀ i, endless data (r.cursor + i) = endless data' (r'.cursor + i)

namespace Abreast

variable {c : Codec} {data data' : Array UInt8} {r r' : Reader}

theorem refl (h : Reader.Sound data c r) : c.Abreast data data r r := ⟨h, h, fun _ => rfl⟩

/-- Without the bytes that stand before it a reader has the same ahead. -/
theorem extract (c : Codec) (data : Array UInt8) (p : Nat) :
    c.Abreast data (data.extract p data.size) (c.reader data p)
      (c.reader (data.extract p data.size) 0) where
  left := c.sound_reader data p
  right := c.sound_reader _ 0
  ahead i := by
    rw [c.cursor_reader, c.cursor_reader, endless_extract, Nat.mul_zero, Nat.zero_add]

/-- Readers that move on equally far stay abreast. -/
theorem moved (h : c.Abreast data data' r r') {s s' : Reader} (hs : Reader.Sound data c s)
    (hs' : Reader.Sound data' c s') {n : Nat} (hn : s.cursor = r.cursor + n)
    (hn' : s'.cursor = r'.cursor + n) : c.Abreast data data' s s' := by
  refine ⟨hs, hs', fun i => ?_⟩
  rw [hn, hn', Nat.add_assoc, h.ahead, ← Nat.add_assoc]

/-- Readers that are abreast read the same and move on equally far. -/
theorem readInt (h : c.Abreast data data' r r') :
    (IntReader.readInt r).1 = (IntReader.readInt r').1
      ∧ ∃ n, c.leastMove ≤ n ∧ (IntReader.readInt r).2.cursor = r.cursor + n
        ∧ (IntReader.readInt r').2.cursor = r'.cursor + n
        ∧ c.Abreast data data' (IntReader.readInt r).2 (IntReader.readInt r').2 := by
  obtain ⟨hs, hs', hahead⟩ := h
  match c, r, r', hs, hs' with
  | .sparse, .sparse r, .sparse r', hs, hs' =>
    obtain ⟨hnext, hdecode⟩ := Sparse.Reader.readInt_spec hs
    obtain ⟨hnext', hdecode'⟩ := Sparse.Reader.readInt_spec hs'
    obtain ⟨v, n, hv, hv', hpos, -⟩ := Sparse.decode_congr hahead
    obtain ⟨hread, hcursor⟩ := Prod.mk.inj (hdecode.symm.trans hv)
    obtain ⟨hread', hcursor'⟩ := Prod.mk.inj (hdecode'.symm.trans hv')
    exact ⟨hread.trans hread'.symm, n, hpos, hcursor, hcursor',
      moved ⟨hs, hs', hahead⟩ hnext hnext' hcursor hcursor'⟩
  | .dense, .dense r, .dense r', hs, hs' =>
    obtain ⟨hnext, hdecode⟩ := Dense.Reader.readInt_spec hs
    obtain ⟨hnext', hdecode'⟩ := Dense.Reader.readInt_spec hs'
    obtain ⟨v, n, hv, hv', hpos⟩ := Dense.decode_congr (Dense.endlessBytes_congr hahead)
    obtain ⟨hread, hposition⟩ := Prod.mk.inj (hdecode.symm.trans hv)
    obtain ⟨hread', hposition'⟩ := Prod.mk.inj (hdecode'.symm.trans hv')
    -- the cursor is counted in bits, eight to a byte
    have hcursor : 8 * r.readInt.2.position = 8 * r.position + 8 * n := by
      rw [hposition, Nat.mul_add]
    have hcursor' : 8 * r'.readInt.2.position = 8 * r'.position + 8 * n := by
      rw [hposition', Nat.mul_add]
    exact ⟨hread.trans hread'.symm, 8 * n, Nat.mul_le_mul_left 8 hpos, hcursor, hcursor',
      moved ⟨hs, hs', hahead⟩ hnext hnext' hcursor hcursor'⟩

/-- The same for integers one after the other, each of which moves the readers on. -/
theorem readInts (h : c.Abreast data data' r r') (count : Nat) :
    (IntReader.readInts r count).1 = (IntReader.readInts r' count).1
      ∧ ∃ n, count * c.leastMove ≤ n
        ∧ (IntReader.readInts r count).2.cursor = r.cursor + n
        ∧ (IntReader.readInts r' count).2.cursor = r'.cursor + n
        ∧ c.Abreast data data' (IntReader.readInts r count).2 (IntReader.readInts r' count).2 := by
  induction count generalizing r r' with
  | zero => exact ⟨rfl, 0, by simp, rfl, rfl, h⟩
  | succ count ih =>
    obtain ⟨hread, m, hm, hcursor, hcursor', hnext⟩ := h.readInt
    obtain ⟨hreads, n, hn, hlast, hlast', hend⟩ := ih hnext
    refine ⟨?_, m + n, ?_, ?_, ?_, hend⟩
    · simp only [IntReader.readInts, hread, hreads]
    · rw [Nat.succ_mul]
      omega
    · rw [IntReader.readInts, hlast, hcursor, Nat.add_assoc]
    · rw [IntReader.readInts, hlast', hcursor', Nat.add_assoc]

/-- The same for a record: each of its columns moves the readers on. -/
theorem readAll (h : c.Abreast data data' r r') (ks : List Kind) :
    (Kind.readAll ks r).1 = (Kind.readAll ks r').1
      ∧ ∃ n, ks.length * c.leastMove ≤ n
        ∧ (Kind.readAll ks r).2.cursor = r.cursor + n
        ∧ (Kind.readAll ks r').2.cursor = r'.cursor + n
        ∧ c.Abreast data data' (Kind.readAll ks r).2 (Kind.readAll ks r').2 := by
  obtain ⟨hread, n, hn, hcursor, hcursor', hnext⟩ := h.readInts (Kind.widthOf ks)
  have hcolumns : ks.length * c.leastMove ≤ Kind.widthOf ks * c.leastMove :=
    Nat.mul_le_mul_right _ (Kind.length_le_widthOf ks)
  rw [Kind.readAll_eq, Kind.readAll_eq, hread]
  exact ⟨rfl, n, hcolumns.trans hn, hcursor, hcursor', hnext⟩

end Abreast

end Codec

end ValueStream
