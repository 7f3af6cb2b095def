import ValueStream.Proofs.Codec
import ValueStream.Proofs.Word

/-!
What signed numbers cost.

Both codecs spend no fewer bits on a greater word (`Codec.cost_mono`), and folding
orders the signed numbers by their magnitude, a number below zero right before its
negative (`Word.fold_lt_fold_iff`). So a number of smaller magnitude costs no more,
whatever the signs, down to the least number, which has no negative
(`signed_costs_grow`).
-/

namespace ValueStream

open Trace

theorem Word.fold_lt_fold_iff {a b : Int32} :
    Word.fold a < Word.fold b
      ↔ a.toInt.natAbs < b.toInt.natAbs ∨ a.toInt.natAbs = b.toInt.natAbs ∧ a.toInt < b.toInt := by
  have ha := Word.toNat_fold a
  have hb := Word.toNat_fold b
  rw [UInt32.lt_iff_toNat_lt]
  split at ha <;> split at hb <;> omega

/-! ## Greater words -/

theorem Sparse.significantBits_mono {v w : UInt32} (h : v ≤ w) :
    significantBits v ≤ significantBits w := by
  have hle : v.toNat ≤ w.toNat := UInt32.le_iff_toNat_le.mp h
  unfold significantBits
  split
  · exact Nat.zero_le _
  · next hv =>
    have hpos : v.toNat ≠ 0 := fun hz => hv (UInt32.toNat_inj.mp hz)
    have hw : w ≠ 0 := by
      rintro rfl
      exact hpos (Nat.le_zero.mp hle)
    have hlog : v.toNat.log2 ≤ w.toNat.log2 := by
      rw [Nat.log2_eq_log_two, Nat.log2_eq_log_two]
      exact Nat.log_mono_right hle
    rw [if_neg hw]
    exact Nat.succ_le_succ hlog

/-- One bit for zero is fewer than the eight that any other word costs at least. -/
theorem Sparse.bitLength_mono {v w : UInt32} (h : v ≤ w) : bitLength v ≤ bitLength w := by
  have hbits := significantBits_mono h
  have hcost := Codec.cost_pos .sparse w
  unfold Codec.cost at hcost
  by_cases hv : v = 0
  · rw [hv]
    exact hcost
  · have hw : w ≠ 0 := by
      rintro rfl
      exact hv (UInt32.le_antisymm h (UInt32.le_iff_toNat_le.mpr (Nat.zero_le _)))
    rw [bitLength, bitLength, if_neg hv, if_neg hw]
    omega

theorem Dense.byteLength_mono {v w : UInt32} (h : v ≤ w) : byteLength v ≤ byteLength w := by
  rw [UInt32.le_iff_toNat_le] at h
  simp only [byteLength, UInt32.lt_iff_toNat_lt]
  split_ifs <;> omega

namespace Codec

theorem cost_mono (c : Codec) {v w : UInt32} (h : v ≤ w) : c.cost v ≤ c.cost w := by
  cases c with
  | sparse => exact Sparse.bitLength_mono h
  | dense => exact Nat.mul_le_mul_left 8 (Dense.byteLength_mono h)

/-- A signed number adds to a stream the bits that its folded word costs. -/
theorem length_bits_writeSigned {c : Codec} {w : Writer} (h : Writer.Sound c w) (v : Int32) :
    (IntWriter.writeSigned w v).value.bits.length = w.bits.length + c.cost (Word.fold v) := by
  have hbits : (IntWriter.writeSigned w v).value.bits = w.bits ++ c.code (Word.fold v) :=
    (c.tracks.put w (Word.fold v) h).2
  rw [hbits, List.length_append, c.length_code]

end Codec

/-- Folding is twice the number, or one less than twice its negative, and unfolding is its inverse.
What a signed number adds to a stream is what the codec accounts for its folded word, and with
either codec that is no more for a number of smaller magnitude. -/
theorem signed_costs_grow :
    (∀ v : Int32,
      ((Word.fold v).toNat : Int) = if 0 ≤ v.toInt then 2 * v.toInt else -2 * v.toInt - 1)
    ∧ (∀ v : Int32, Word.unfold (Word.fold v) = v)
    ∧ (∀ w : UInt32, Word.fold (Word.unfold w) = w)
    ∧ (∀ (c : Codec) (w : Codec.Writer), Codec.Writer.Sound c w → ∀ v : Int32,
      (IntWriter.writeSigned w v).value.bits.length = w.bits.length + c.cost (Word.fold v))
    ∧ ∀ a b : Int32, a.toInt.natAbs < b.toInt.natAbs →
      Sparse.bitLength (Word.fold a) ≤ Sparse.bitLength (Word.fold b)
      ∧ Dense.byteLength (Word.fold a) ≤ Dense.byteLength (Word.fold b)
      ∧ ∀ c : Codec, c.cost (Word.fold a) ≤ c.cost (Word.fold b) := by
  refine ⟨Word.toNat_fold, Word.unfold_fold, Word.fold_unfold, ?_, ?_⟩
  · intro c w hw v
    exact Codec.length_bits_writeSigned hw v
  · intro a b h
    have hfold : Word.fold a ≤ Word.fold b := UInt32.le_of_lt (Word.fold_lt_fold_iff.mpr (.inl h))
    exact ⟨Sparse.bitLength_mono hfold, Dense.byteLength_mono hfold, fun c => c.cost_mono hfold⟩

/-- The greatest number costs no more than the least, whose magnitude is one more; and of two
numbers of one magnitude the greater can cost more. -/
theorem signed_costs_grow_to_the_least :
    let greatest : Int32 := 0x7FFFFFFF
    let least : Int32 := -0x80000000
    (Word.fold least).toNat = 0xFFFFFFFF
      ∧ greatest.toInt.natAbs < least.toInt.natAbs
      ∧ Sparse.bitLength (Word.fold greatest) ≤ Sparse.bitLength (Word.fold least)
      ∧ Dense.byteLength (Word.fold greatest) ≤ Dense.byteLength (Word.fold least)
      ∧ (IntWriter.writeSigned (Codec.sparse.writer 0) least).value.bits.length = 48
      ∧ Sparse.bitLength (Word.fold (-32)) = 8 ∧ Sparse.bitLength (Word.fold 32) = 16 := by
  intro greatest least
  have hleast : (Word.fold least).toNat = 0xFFFFFFFF := by decide +kernel
  have hmagnitude : greatest.toInt.natAbs < least.toInt.natAbs := by decide +kernel
  have hbelow : Sparse.bitLength (Word.fold (-32)) = 8 := by decide +kernel
  have habove : Sparse.bitLength (Word.fold 32) = 16 := by decide +kernel
  have hcost : (Codec.sparse.writer 0).bits.length + Codec.sparse.cost (Word.fold least) = 48 := by
    decide +kernel
  obtain ⟨-, -, -, hadded, hcosts⟩ := signed_costs_grow
  obtain ⟨hsparse, hdense, -⟩ := hcosts greatest least hmagnitude
  have hbits := hadded .sparse _ (Codec.sound_writer .sparse 0) least
  exact ⟨hleast, hmagnitude, hsparse, hdense, hbits.trans hcost, hbelow, habove⟩

end ValueStream
