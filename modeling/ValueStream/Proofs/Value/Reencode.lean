import ValueStream.Proofs.Codec
import ValueStream.Proofs.Value.Record

/-!
Integers read as values of any kinds and written again.

Every integer is some value of every kind, and but for two kinds writing the value
gives the integer back (`Kind.ints_ofInts`): a boolean keeps whether it was zero
and a byte its lowest eight bits (`Kind.kept`). So whatever kinds a stream was
written with, it may be read with any others that are as wide, and writing what
was read changes integers in such columns only (`reencode_eq`).
-/

namespace ValueStream

open Trace Traced Bits

namespace Kind

/-- What is left of an integer that is read as a value of the kind and written again. -/
def kept : Kind → UInt32 → UInt32
  | bool, w => if w = 0 then 0 else 1
  | byte, w => w % 256
  | _, w => w

/-- The kinds that the integers of a record are read as, one for each integer. -/
def columns (ks : List Kind) : List Kind := ks.flatMap (fun k => List.replicate k.width k)

theorem ints_ofInts (k : Kind) {ws : List UInt32} (h : ws.length = k.width) :
    (k.ofInts ws).ints = ws.map k.kept := by
  cases k with
  | double =>
    obtain ⟨a, b, rfl⟩ := List.length_eq_two.mp h
    simp [ofInts, Value.ints, kept]
  | long =>
    obtain ⟨a, b, rfl⟩ := List.length_eq_two.mp h
    simp [ofInts, Value.ints, kept]
  | bool =>
    obtain ⟨a, rfl⟩ := List.length_eq_one_iff.mp h
    show [(a != 0).toUInt32] = [if a = 0 then 0 else 1]
    by_cases ha : a = 0
    · rw [ha]
      rfl
    · have htrue : (a != 0) = true := bne_iff_ne.mpr ha
      rw [htrue, if_neg ha]
      rfl
  | _ =>
    obtain ⟨a, rfl⟩ := List.length_eq_one_iff.mp h
    simp [ofInts, Value.ints, kept]

theorem columns_cons (k : Kind) (ks : List Kind) :
    columns (k :: ks) = List.replicate k.width k ++ columns ks := List.flatMap_cons

theorem length_columns (ks : List Kind) : (columns ks).length = widthOf ks := by
  rw [columns, List.length_flatMap, widthOf]
  simp

theorem mem_of_mem_columns {k : Kind} {ks : List Kind} (h : k ∈ columns ks) : k ∈ ks := by
  obtain ⟨k', hk', hmem⟩ := List.mem_flatMap.mp h
  rw [List.eq_of_mem_replicate hmem]
  exact hk'

theorem zipWith_kept_replicate (k : Kind) (ws : List UInt32) :
    List.zipWith kept (List.replicate ws.length k) ws = ws.map k.kept := by
  induction ws with
  | nil => rfl
  | cons w ws ih => rw [List.length_cons, List.replicate_succ, List.zipWith_cons_cons, ih, List.map_cons]

/-- The integers of the record that integers make are what is left of each of them. -/
theorem intsOf_recordOf {ks : List Kind} {ws : List UInt32} (h : ws.length = widthOf ks) :
    Value.intsOf (recordOf ks ws) = List.zipWith kept (columns ks) ws := by
  induction ks generalizing ws with
  | nil => rfl
  | cons k ks ih =>
    have hwidth : widthOf (k :: ks) = k.width + widthOf ks := rfl
    have hfirst : (ws.take k.width).length = k.width := by
      rw [List.length_take]
      omega
    have hrest : (ws.drop k.width).length = widthOf ks := by
      rw [List.length_drop]
      omega
    have hcolumn := zipWith_kept_replicate k (ws.take k.width)
    rw [hfirst] at hcolumn
    calc Value.intsOf (recordOf (k :: ks) ws)
        = (ws.take k.width).map k.kept ++ List.zipWith kept (columns ks) (ws.drop k.width) := by
          rw [recordOf, Value.intsOf_cons, ints_ofInts k hfirst, ih hrest]
      _ = List.zipWith kept (columns (k :: ks)) (ws.take k.width ++ ws.drop k.width) := by
          rw [columns_cons, List.zipWith_append (by rw [List.length_replicate, hfirst]), hcolumn]
      _ = List.zipWith kept (columns (k :: ks)) ws := by rw [List.take_append_drop]

/-- Without booleans and bytes all integers stay as they are. -/
theorem zipWith_kept_of_ne {ks : List Kind} (hks : ∀ k ∈ ks, k ≠ bool ∧ k ≠ byte) {ws : List UInt32}
    (h : ws.length = widthOf ks) : List.zipWith kept (columns ks) ws = ws := by
  have hsame : ∀ k ∈ ks, ∀ w, k.kept w = w := by
    intro k hk w
    obtain ⟨hbool, hbyte⟩ := hks k hk
    cases k with
    | bool => exact absurd rfl hbool
    | byte => exact absurd rfl hbyte
    | _ => rfl
  apply List.ext_getElem
  · rw [List.length_zipWith, length_columns, h, Nat.min_self]
  · intro i hi _
    rw [List.getElem_zipWith]
    exact hsame _ (mem_of_mem_columns (List.getElem_mem _)) _

end Kind

namespace Codec

/-- The bytes that integers are on a fresh stream. -/
def bytesOfInts (c : Codec) (capacity : Nat) (ws : List UInt32) : Array UInt8 :=
  (ws.foldlM IntWriter.writeInt (c.writer capacity) >>= IntWriter.finish).value

/-- The bytes that values are on a fresh stream. -/
def bytesOfValues (c : Codec) (capacity : Nat) (vs : List Value) : Array UInt8 :=
  (Value.writeAll (c.writer capacity) vs >>= IntWriter.finish).value

/-- Values are the same bytes as their integers. -/
theorem bytesOfValues_eq (c : Codec) (capacity capacity' : Nat) (vs : List Value) :
    c.bytesOfValues capacity vs = c.bytesOfInts capacity' (Value.intsOf vs) := by
  obtain ⟨hvalues, hvaluesBits⟩ := c.tracks.writeAll (c.sound_writer capacity) vs
  obtain ⟨hints, hintsBits⟩ := c.tracks.putAll (c.sound_writer capacity') (Value.intsOf vs)
  apply c.tracks.finish_congr hvalues hints
  rw [hvaluesBits, hintsBits, bits_writer, bits_writer]

/-- Integers are read back from their bytes. -/
theorem readInts_bytesOfInts (c : Codec) (capacity : Nat) (ws : List UInt32) :
    (IntReader.readInts (c.reader (c.bytesOfInts capacity ws) 0) ws.length).1 = ws := by
  obtain ⟨hs, hbits⟩ := c.tracks.putAll (c.sound_writer capacity) ws
  have hlies := c.tracks.liesAt_finish hs
  rw [hbits, bits_writer, List.nil_append] at hlies
  have hsound := c.sound_reader (c.bytesOfInts capacity ws) 0
  have hcursor := c.cursor_reader (c.bytesOfInts capacity ws) 0
  have hread := (c.recalls (c.bytesOfInts capacity ws)).readInts hsound (by rw [hcursor]; exact hlies)
  exact hread.2.1

/-- Integers that are written, read as values of any kinds of their width and written again come
out the same, but for those read as booleans and as bytes, of which `Kind.kept` is left. The
reader stands where it stands after the integers, and it makes no difference as values of which
kinds they were written. -/
theorem reencode_eq (c : Codec) {ks : List Kind} {ws : List UInt32}
    (h : Kind.widthOf ks = ws.length) (capacity capacity' : Nat) :
    let bytes := c.bytesOfInts capacity ws
    let r := c.reader bytes 0
    let vs := (Kind.readAll ks r).1
    (IntReader.readInts r ws.length).1 = ws
      ∧ (Kind.readAll ks r).2 = (IntReader.readInts r ws.length).2
      ∧ vs.map Value.kind = ks
      ∧ c.bytesOfValues capacity' vs
        = c.bytesOfInts capacity (List.zipWith Kind.kept (Kind.columns ks) ws)
      ∧ ((∀ k ∈ ks, k ≠ .bool ∧ k ≠ .byte) → c.bytesOfValues capacity' vs = bytes)
      ∧ ∀ us, Value.intsOf us = ws → c.bytesOfValues capacity' us = bytes := by
  intro bytes r vs
  have hread := Kind.readAll_eq ks r
  rw [h] at hread
  have hints : (IntReader.readInts r ws.length).1 = ws := c.readInts_bytesOfInts capacity ws
  have hvs : vs = Kind.recordOf ks ws := by
    show (Kind.readAll ks r).1 = _
    rw [hread, hints]
  have hkept : c.bytesOfValues capacity' vs
      = c.bytesOfInts capacity (List.zipWith Kind.kept (Kind.columns ks) ws) := by
    rw [c.bytesOfValues_eq capacity' capacity, hvs, Kind.intsOf_recordOf h.symm]
  refine ⟨hints, by rw [hread], by rw [hvs, Kind.map_kind_recordOf], hkept, ?_, ?_⟩
  · intro hks
    rw [hkept, Kind.zipWith_kept_of_ne hks h.symm]
  · intro us hus
    rw [c.bytesOfValues_eq capacity' capacity, hus]

/-- Seven integers read as five values: the boolean is 7 and the byte is 300, and with other
kinds all of them stay. -/
theorem reencode_eq_of_other_kinds :
    let c := Codec.sparse
    let ws : List UInt32 := [1, 0xFFFFFFFF, 7, 300, 0x80000000, 2, 3]
    let narrow : List Kind := [.double, .bool, .byte, .long, .sint]
    let wide : List Kind := [.long, .float, .int, .double, .sint]
    let r := c.reader (c.bytesOfInts 16 ws) 0
    Kind.widthOf narrow = ws.length ∧ Kind.widthOf wide = ws.length
      ∧ c.bytesOfValues 0 (Kind.readAll narrow r).1
        = c.bytesOfInts 16 [1, 0xFFFFFFFF, 1, 44, 0x80000000, 2, 3]
      ∧ c.bytesOfValues 0 (Kind.readAll wide r).1 = c.bytesOfInts 16 ws := by
  intro c ws narrow wide r
  have hnarrow : Kind.widthOf narrow = ws.length := by decide
  have hwide : Kind.widthOf wide = ws.length := by decide
  obtain ⟨-, -, -, hkept, -, -⟩ := c.reencode_eq hnarrow 16 0
  obtain ⟨-, -, -, -, hsame, -⟩ := c.reencode_eq hwide 16 0
  have hleft : List.zipWith Kind.kept (Kind.columns narrow) ws
      = [1, 0xFFFFFFFF, 1, 44, 0x80000000, 2, 3] := by decide
  rw [hleft] at hkept
  exact ⟨hnarrow, hwide, hkept, hsame (by decide)⟩

end Codec

end ValueStream
