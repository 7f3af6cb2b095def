import ValueStream.Proofs.Value.Reencode

/-!
Values are equal bit by bit just where their bytes are.

Integers are read back from their bytes, and a record is cut out of its integers
by its kinds, so records of the same kinds and the same bytes are the same record
(`Codec.eq_of_bytes_eq`). What the patterns are worth plays no part in this: the two
zeros are worth the same and have different bytes, and a pattern that is not a
number is worth nothing and has the bytes that it has (`bytes_eq_iff_bitsEq`).
-/

namespace ValueStream

open Binary

namespace Value

/-- Equality of bits is an equivalence on all values, whatever their patterns are worth. -/
theorem bitsEq_equivalence : Equivalence (fun a b : Value => a.bitsEq b = true) where
  refl := bitsEq_self
  symm h := bitsEq_iff.mpr (bitsEq_iff.mp h).symm
  trans h h' := bitsEq_iff.mpr ((bitsEq_iff.mp h).trans (bitsEq_iff.mp h'))

theorem bitsEq_eq_false_iff {a b : Value} : a.bitsEq b = false ↔ a ≠ b := by
  rw [← Bool.not_eq_true, bitsEq_iff]

/-- Lists that differ at some place are not equal bit by bit. -/
theorem allBitsEq_eq_false {as bs : List Value} {i : Nat} {a b : Value} (ha : as[i]? = some a)
    (hb : bs[i]? = some b) (h : a.bitsEq b = false) : allBitsEq as bs = false := by
  rw [← Bool.not_eq_true, allBitsEq_iff]
  rintro rfl
  rw [ha] at hb
  exact bitsEq_eq_false_iff.mp h (Option.some.inj hb)

theorem numEq_float_of_isNaN {p : Binary32} (h : Format.single.isNaN p.bits.toNat = true) :
    (float p).numEq (float p) = false := by
  simp [numEq, Format.equal, h]

theorem numEq_double_of_isNaN {p : Binary64} (h : Format.double.isNaN p.bits.toNat = true) :
    (double p).numEq (double p) = false := by
  simp [numEq, Format.equal, h]

end Value

namespace Codec

/-- Values of the same kinds are known from their bytes. -/
theorem eq_of_bytes_eq (c : Codec) {capacity capacity' : Nat} {as bs : List Value}
    (hkinds : as.map Value.kind = bs.map Value.kind)
    (h : c.bytesOfValues capacity as = c.bytesOfValues capacity' bs) : as = bs := by
  rw [c.bytesOfValues_eq capacity 0, c.bytesOfValues_eq capacity' 0] at h
  have hlength : (Value.intsOf as).length = (Value.intsOf bs).length := by
    rw [Kind.length_intsOf, Kind.length_intsOf, hkinds]
  -- as many integers are read from the same bytes, and they are those of both
  have hints : Value.intsOf as = Value.intsOf bs := by
    rw [← c.readInts_bytesOfInts 0 (Value.intsOf as), h, hlength, c.readInts_bytesOfInts]
  have hrecord := Kind.recordOf_ints as []
  rw [hkinds, hints, Kind.recordOf_ints] at hrecord
  exact hrecord.symm

end Codec

/-- Equality of bits is an equivalence and keeps to one kind, and on values of the same kinds it is
equality of the bytes that they are on fresh streams. So values that differ in a bit give other
bytes whatever stands around them, the two zeros and patterns that are not a number included; and
such a pattern gives the same bytes as itself, although it is worth nothing that equals it. -/
theorem bytes_eq_iff_bitsEq :
    Equivalence (fun a b : Value => a.bitsEq b = true)
      ∧ (∀ a b : Value, a.bitsEq b = true → a.kind = b.kind)
      ∧ (∀ (c : Codec) (capacity capacity' : Nat) (as bs : List Value),
        as.map Value.kind = bs.map Value.kind →
        (c.bytesOfValues capacity as = c.bytesOfValues capacity' bs
            ↔ Value.allBitsEq as bs = true)
          ∧ ∀ (i : Nat) (a b : Value), as[i]? = some a → bs[i]? = some b → a.bitsEq b = false →
            c.bytesOfValues capacity as ≠ c.bytesOfValues capacity' bs)
      ∧ (∀ p q : Binary32, p.bits ≠ q.bits → (Value.float p).bitsEq (.float q) = false)
      ∧ (∀ p q : Binary64, p.bits ≠ q.bits → (Value.double p).bitsEq (.double q) = false)
      ∧ (Value.float ⟨0⟩).numEq (.float ⟨0x80000000⟩) = true
      ∧ (Value.double ⟨0⟩).numEq (.double ⟨0x8000000000000000⟩) = true
      ∧ (∀ p : Binary32, Format.single.isNaN p.bits.toNat = true →
        (Value.float p).numEq (.float p) = false ∧ (Value.float p).bitsEq (.float p) = true)
      ∧ ∀ p : Binary64, Format.double.isNaN p.bits.toNat = true →
        (Value.double p).numEq (.double p) = false ∧ (Value.double p).bitsEq (.double p) = true := by
  refine ⟨Value.bitsEq_equivalence, ?_, ?_, ?_, ?_, by decide, by decide +kernel, ?_, ?_⟩
  · intro a b h
    rw [Value.bitsEq_iff.mp h]
  · intro c capacity capacity' as bs hkinds
    have hiff : c.bytesOfValues capacity as = c.bytesOfValues capacity' bs
        ↔ Value.allBitsEq as bs = true := by
      rw [Value.allBitsEq_iff]
      constructor
      · exact c.eq_of_bytes_eq hkinds
      · rintro rfl
        rw [c.bytesOfValues_eq capacity 0, c.bytesOfValues_eq capacity' 0]
    refine ⟨hiff, ?_⟩
    intro i a b ha hb h
    rw [Ne, hiff, Value.allBitsEq_eq_false ha hb h]
    exact Bool.false_ne_true
  · intro p q h
    rw [Value.bitsEq_eq_false_iff, Ne, Value.float.injEq, Binary32.mk.injEq]
    exact h
  · intro p q h
    rw [Value.bitsEq_eq_false_iff, Ne, Value.double.injEq, Binary64.mk.injEq]
    exact h
  · exact fun p h => ⟨Value.numEq_float_of_isNaN h, Value.bitsEq_self _⟩
  · exact fun p h => ⟨Value.numEq_double_of_isNaN h, Value.bitsEq_self _⟩

/-- The zeros behind a pattern that is not a number, and two such patterns before a zero. -/
theorem bytes_eq_iff_bitsEq_of_patterns :
    let c := Codec.sparse
    let nan : Value := .float ⟨0x7FC00000⟩
    let other : Value := .float ⟨0x7FC00001⟩
    let zero : Value := .double ⟨0⟩
    let negative : Value := .double ⟨0x8000000000000000⟩
    Format.single.isNaN 0x7FC00000 = true
      ∧ [nan, zero].map Value.kind = [nan, negative].map Value.kind
      ∧ [nan, zero].map Value.kind = [other, zero].map Value.kind
      ∧ zero.bitsEq negative = false ∧ zero.numEq negative = true
      ∧ nan.bitsEq nan = true ∧ nan.numEq nan = false
      ∧ c.bytesOfValues 0 [nan, zero] ≠ c.bytesOfValues 5 [nan, negative]
      ∧ c.bytesOfValues 0 [nan, zero] ≠ c.bytesOfValues 5 [other, zero]
      ∧ c.bytesOfValues 0 [nan, zero] = c.bytesOfValues 5 [nan, zero] := by
  intro c nan other zero negative
  obtain ⟨-, -, hbytes, hfloat, hdouble, -, hzeros, hnan, -⟩ := bytes_eq_iff_bitsEq
  have hsigns : zero.bitsEq negative = false := hdouble ⟨0⟩ ⟨0x8000000000000000⟩ (by decide)
  have hpayloads : nan.bitsEq other = false := hfloat ⟨0x7FC00000⟩ ⟨0x7FC00001⟩ (by decide)
  obtain ⟨hnone, hself⟩ := hnan ⟨0x7FC00000⟩ (by decide)
  exact ⟨by decide, rfl, rfl, hsigns, hzeros, hself, hnone,
    (hbytes c 0 5 [nan, zero] [nan, negative] rfl).2 1 zero negative rfl rfl hsigns,
    (hbytes c 0 5 [nan, zero] [other, zero] rfl).2 0 nan other rfl rfl hpayloads,
    (hbytes c 0 5 [nan, zero] [nan, zero] rfl).1.mpr (Value.allBitsEq_self _)⟩

end ValueStream
