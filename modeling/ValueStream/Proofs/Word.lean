import ValueStream.Proofs.Bits
import ValueStream.Word

/-!
The transforms of words undo each other.

Folding is twice the number, or one less than twice its negative
(`toNat_fold`), and unfolding halves (`toInt_unfold`); so each is the inverse
of the other. Reversing twice is doing nothing, and a pattern is the join of
its halves.
-/

namespace ValueStream.Word

/-! ## Sign folding -/

theorem sshiftRight_of_nonneg {v : Int32} (h : 0 ≤ v.toInt) : v.toBitVec.sshiftRight 31 = 0#32 := by
  apply BitVec.eq_of_toInt_eq
  have hlt := v.toInt_lt
  rw [BitVec.toInt_sshiftRight, BitVec.toInt_zero, Int.shiftRight_eq_div_pow]
  show v.toInt / _ = 0
  omega

theorem sshiftRight_of_neg {v : Int32} (h : v.toInt < 0) :
    v.toBitVec.sshiftRight 31 = BitVec.allOnes 32 := by
  apply BitVec.eq_of_toInt_eq
  have hle := v.le_toInt
  rw [BitVec.toInt_sshiftRight, BitVec.toInt_allOnes, Int.shiftRight_eq_div_pow]
  show v.toInt / _ = _
  simp
  omega

theorem toBitVec_fold (v : Int32) :
    (fold v).toBitVec = (v.toBitVec <<< 1) ^^^ v.toBitVec.sshiftRight 31 := rfl

/-- Folding is the arithmetic zigzag. -/
theorem toNat_fold (v : Int32) :
    ((fold v).toNat : Int) = if 0 ≤ v.toInt then 2 * v.toInt else -2 * v.toInt - 1 := by
  have hlt := v.toInt_lt
  have hle := v.le_toInt
  have hint : v.toInt = if v.toBitVec.toNat < 2 ^ 31 then (v.toBitVec.toNat : Int)
      else (v.toBitVec.toNat : Int) - 2 ^ 32 := by
    show v.toBitVec.toInt = _
    rw [BitVec.toInt_eq_toNat_cond]
    split <;> split <;> omega
  have hword : v.toBitVec.toNat < 2 ^ 32 := v.toBitVec.isLt
  have hdouble : (v.toBitVec <<< 1).toNat = 2 * v.toBitVec.toNat % 2 ^ 32 := by
    rw [BitVec.toNat_shiftLeft, Nat.shiftLeft_eq, Nat.pow_one, Nat.mul_comm]
  show ((fold v).toBitVec.toNat : Int) = _
  rw [toBitVec_fold]
  -- the sign bit drawn over the word flips every bit or none
  split
  · next h =>
    rw [sshiftRight_of_nonneg h, BitVec.xor_zero, hdouble]
    split at hint <;> omega
  · next h =>
    rw [sshiftRight_of_neg (by omega), BitVec.xor_allOnes, BitVec.toNat_not, hdouble]
    split at hint <;> omega

theorem toBitVec_unfold (w : UInt32) :
    (unfold w).toBitVec = (w.toBitVec >>> 1) ^^^ -(w.toBitVec &&& 1#32) := rfl

/-- Unfolding halves, and takes odd words to the numbers below zero. -/
theorem toInt_unfold (w : UInt32) :
    (unfold w).toInt = if w.toNat % 2 = 0 then (w.toNat / 2 : Int) else -(w.toNat / 2 : Int) - 1 := by
  have hword : w.toNat < 2 ^ 32 := w.toNat_lt
  have hhalf : (w.toBitVec >>> 1).toNat = w.toNat / 2 := by
    rw [BitVec.toNat_ushiftRight, Nat.shiftRight_eq_div_pow]
    rfl
  have hlow : (w.toBitVec &&& 1#32).toNat = w.toNat % 2 := by
    rw [BitVec.toNat_and]
    exact Nat.and_two_pow_sub_one_eq_mod w.toNat 1
  show (unfold w).toBitVec.toInt = _
  rw [toBitVec_unfold]
  split
  · next h =>
    have hzero : w.toBitVec &&& 1#32 = 0#32 := BitVec.eq_of_toNat_eq (hlow.trans h)
    rw [hzero, BitVec.neg_zero, BitVec.xor_zero, BitVec.toInt_eq_toNat_cond, hhalf]
    split <;> omega
  · next h =>
    have hone : w.toBitVec &&& 1#32 = 1#32 :=
      BitVec.eq_of_toNat_eq (hlow.trans (by simp; omega))
    have hall : -1#32 = BitVec.allOnes 32 := by decide
    rw [hone, hall, BitVec.xor_allOnes, BitVec.toInt_eq_toNat_cond, BitVec.toNat_not, hhalf]
    split <;> omega

@[simp] theorem unfold_fold (v : Int32) : unfold (fold v) = v := by
  have hfold := toNat_fold v
  have hunfold := toInt_unfold (fold v)
  apply Int32.toInt_inj.mp
  split at hfold <;> split at hunfold <;> omega

@[simp] theorem fold_unfold (w : UInt32) : fold (unfold w) = w := by
  have hunfold := toInt_unfold w
  have hfold := toNat_fold (unfold w)
  apply UInt32.toNat_inj.mp
  split at hunfold <;> split at hfold <;> omega

/-! ## Patterns -/

@[simp] theorem reverse_reverse (w : UInt32) : reverse (reverse w) = w :=
  UInt32.toBitVec_inj.mp BitVec.reverse_reverse_eq

theorem toNat_high (p : UInt64) : (high p).toNat = p.toNat / 2 ^ 32 := by
  have hlt : p.toNat < 2 ^ 64 := p.toNat_lt
  have hshift : (p >>> 32).toNat = p.toNat / 2 ^ 32 := by
    rw [UInt64.toNat_shiftRight]
    exact Nat.shiftRight_eq_div_pow _ _
  rw [high, UInt64.toNat_toUInt32, hshift]
  omega

theorem toNat_low (p : UInt64) : (low p).toNat = p.toNat % 2 ^ 32 := UInt64.toNat_toUInt32 p

theorem toNat_join (upper lower : UInt32) :
    (join upper lower).toNat = 2 ^ 32 * upper.toNat + lower.toNat := by
  have hupper : upper.toNat < 2 ^ 32 := upper.toNat_lt
  have hlower : lower.toNat < 2 ^ 32 := lower.toNat_lt
  rw [join, UInt64.toNat_or, UInt64.toNat_shiftLeft, UInt32.toNat_toUInt64, UInt32.toNat_toUInt64]
  show upper.toNat <<< 32 % 2 ^ 64 ||| lower.toNat = _
  rw [Bits.shiftLeft_or _ (by decide) hlower]
  omega

@[simp] theorem join_high_low (p : UInt64) : join (high p) (low p) = p := by
  apply UInt64.toNat_inj.mp
  rw [toNat_join, toNat_high, toNat_low, Nat.div_add_mod]

@[simp] theorem high_join (upper lower : UInt32) : high (join upper lower) = upper := by
  have hlower : lower.toNat < 2 ^ 32 := lower.toNat_lt
  apply UInt32.toNat_inj.mp
  rw [toNat_high, toNat_join]
  omega

@[simp] theorem low_join (upper lower : UInt32) : low (join upper lower) = lower := by
  have hlower : lower.toNat < 2 ^ 32 := lower.toNat_lt
  apply UInt32.toNat_inj.mp
  rw [toNat_low, toNat_join]
  omega

/-! ## Zeros -/

@[simp] theorem fold_zero : fold 0 = 0 := by decide

@[simp] theorem unfold_zero : unfold 0 = 0 := by decide

@[simp] theorem reverse_zero : reverse 0 = 0 := by decide +kernel

@[simp] theorem high_zero : high 0 = 0 := by decide

@[simp] theorem low_zero : low 0 = 0 := by decide

@[simp] theorem join_zero : join 0 0 = 0 := by decide

end ValueStream.Word
