import ValueStream.Proofs.Stream.Call
import ValueStream.Proofs.Stream.Recall
import ValueStream.Proofs.Word
import ValueStream.Value.Wire

/-!
Values as the integers they are on a stream.

Whatever its kind and whichever way it goes, a value is one or two integers
(`Value.ints`) that are written one after the other, and reading a kind is
reading as many integers and putting them together (`Kind.ofInts`). The two
undo each other (`ofInts_ints`), so what a codec has to show is about integers
only: a stream that keeps track of integers keeps track of values
(`Tracks.values`).
-/

namespace ValueStream

open Trace Traced Bits

/-- The integers that a value is on a stream, in the order they are written. -/
def Value.ints : Value → List UInt32
  | int v => [v]
  | sint v => [Word.fold v]
  | float v => [Word.reverse v.bits]
  | double v => [Word.reverse (Word.high v.bits), Word.reverse (Word.low v.bits)]
  | long v =>
    [Word.fold (Word.low v.toUInt64).toInt32, Word.fold (Word.high v.toUInt64).toInt32]
  | bool v => [v.toUInt32]
  | byte v => [v.toUInt8.toUInt32]

namespace Kind

/-- How many integers a value of the kind is on a stream. -/
def width : Kind → Nat
  | double | long => 2
  | _ => 1

/-- The value of a kind that the integers make; missing ones count as zero. -/
def ofInts (ws : List UInt32) : Kind → Value
  | int => .int (ws.getD 0 0)
  | sint => .sint (Word.unfold (ws.getD 0 0))
  | float => .float ⟨Word.reverse (ws.getD 0 0)⟩
  | double => .double ⟨Word.join (Word.reverse (ws.getD 0 0)) (Word.reverse (ws.getD 1 0))⟩
  | long =>
    .long (Word.join (Word.unfold (ws.getD 1 0)).toUInt32 (Word.unfold (ws.getD 0 0)).toUInt32).toInt64
  | bool => .bool (ws.getD 0 0 != 0)
  | byte => .byte (ws.getD 0 0).toUInt8.toInt8

end Kind

namespace Value

@[simp] theorem length_ints (v : Value) : v.ints.length = v.kind.width := by
  cases v <;> rfl

/-- The integers of a value make the value again. -/
@[simp] theorem ofInts_ints (v : Value) : v.kind.ofInts v.ints = v := by
  cases v with
  | int v => rfl
  | sint v => exact congrArg sint (Word.unfold_fold v)
  | float v => exact congrArg (fun w => float ⟨w⟩) (Word.reverse_reverse v.bits)
  | double v => simp [ints, kind, Kind.ofInts]
  | long v => simp [ints, kind, Kind.ofInts]
  | bool v => cases v <;> rfl
  | byte v => simp [ints, kind, Kind.ofInts]

@[simp] theorem bitsEq_self (v : Value) : v.bitsEq v = true := by
  cases v <;> simp [bitsEq, numEq]

theorem allBitsEq_self (vs : List Value) : allBitsEq vs vs = true := by
  induction vs with
  | nil => rfl
  | cons v vs ih => rw [allBitsEq, bitsEq_self, ih]; rfl

end Value

/-! ## Writing -/

section Writing

variable {σ : Type} [IntWriter σ]

/-- Writing a value is writing its integers. -/
theorem Value.write_eq (s : σ) (v : Value) : v.write s = v.ints.foldlM IntWriter.writeInt s := by
  cases v <;> simp [write, ints, IntWriter.writeSigned, IntWriter.writeFloat, IntWriter.writeDouble,
    IntWriter.writeLong, IntWriter.writeBool, IntWriter.writeByte]

namespace Tracks

/-- A stream that keeps track of integers keeps track of values. -/
theorem values {code : UInt32 → List Bool} {Sound : σ → Prop} {bits : σ → List Bool}
    (T : Tracks IntWriter.writeInt code Sound bits) :
    Tracks Value.write (fun v => v.ints.flatMap code) Sound bits where
  put s v hs := by
    rw [Value.write_eq]
    exact T.putAll hs v.ints
  flush := T.flush
  rollBack := T.rollBack
  length := T.length
  bytes := T.bytes

end Tracks

end Writing

/-! ## Reading -/

section Reading

variable {ρ : Type} [IntReader ρ]

/-- Reading a kind is reading as many integers as it is wide. -/
theorem Kind.read_eq (k : Kind) (r : ρ) :
    k.read r = (k.ofInts (IntReader.readInts r k.width).1, (IntReader.readInts r k.width).2) := by
  cases k <;> rfl

theorem Kind.readAll_cons (k : Kind) (ks : List Kind) (r : ρ) :
    Kind.readAll (k :: ks) r
      = ((k.read r).1 :: (Kind.readAll ks (k.read r).2).1, (Kind.readAll ks (k.read r).2).2) := rfl

namespace Recalls

variable {z : Nat → Bool} {code : UInt32 → List Bool} {Sound : ρ → Prop} {cursor : ρ → Nat}

/-- A value whose integers lie at the cursor is read back by its kind. -/
theorem read (R : Recalls z code Sound cursor) {r : ρ} (hr : Sound r) {v : Value}
    (h : LiesAt z (cursor r) (v.ints.flatMap code)) :
    Sound (v.kind.read r).2 ∧ (v.kind.read r).1 = v
      ∧ cursor (v.kind.read r).2 = cursor r + (v.ints.flatMap code).length := by
  obtain ⟨hsound, hread, hcursor⟩ := R.readInts hr h
  rw [Value.length_ints] at hsound hread hcursor
  rw [Kind.read_eq, hread, Value.ofInts_ints]
  exact ⟨hsound, rfl, hcursor⟩

/-- Values whose integers lie at the cursor are read back by their kinds. -/
theorem readAll (R : Recalls z code Sound cursor) {r : ρ} (hr : Sound r) {vs : List Value}
    (h : LiesAt z (cursor r) ((vs.flatMap Value.ints).flatMap code)) :
    Sound (Kind.readAll (vs.map Value.kind) r).2
      ∧ (Kind.readAll (vs.map Value.kind) r).1 = vs
      ∧ cursor (Kind.readAll (vs.map Value.kind) r).2
        = cursor r + ((vs.flatMap Value.ints).flatMap code).length := by
  induction vs generalizing r with
  | nil => exact ⟨hr, rfl, rfl⟩
  | cons v vs ih =>
    rw [List.flatMap_cons, List.flatMap_append, liesAt_append] at h
    obtain ⟨hfirst, hrest⟩ := h
    obtain ⟨hnext, hread, hcursor⟩ := R.read hr hfirst
    rw [← hcursor] at hrest
    obtain ⟨hend, hreads, hlast⟩ := ih hnext hrest
    refine ⟨hend, ?_, ?_⟩
    · rw [List.map_cons, Kind.readAll_cons, hread, hreads]
    · rw [List.flatMap_cons, List.flatMap_append, List.length_append, ← Nat.add_assoc, ← hcursor,
        ← hlast]
      rfl

end Recalls

end Reading

end ValueStream
