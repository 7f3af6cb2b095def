import Mathlib.Data.Nat.Digits.Defs
import Mathlib.Data.Nat.Digits.Lemmas
import ValueStream.Dense.Writer
import ValueStream.Proofs.Buffer
import ValueStream.Proofs.Stream.Call

/-!
The dense code of an integer, and the dense writer as a list of bits.

`code` is stated on the base 128 digits of the number, least significant
first: there is at least one, and every byte but the last has its top bit set.
The writer's loop over shifted words produces it (`writeInt_spec`), so runs of
calls on a dense stream are runs on a bit list too (`tracks`); its length is
always a whole number of bytes.
-/

namespace ValueStream.Dense

open Bits Trace Traced

/-- The digits of a number in base 128, least significant first; zero has one. -/
def septets (n : Nat) : List Nat := if n = 0 then [0] else Nat.digits 128 n

/-- Digits as bytes, with the top bit set on every byte but the last. -/
def marked : List Nat → List UInt8
  | [] => []
  | [d] => [UInt8.ofNat d]
  | d :: ds => UInt8.ofNat (128 + d) :: marked ds

/-- The code of an integer. -/
def code (v : UInt32) : List UInt8 := marked (septets v.toNat)

/-! ## Digits -/

theorem septets_of_lt {n : Nat} (h : n < 128) : septets n = [n] := by
  unfold septets
  split
  · next hz => rw [hz]
  · next hz => exact Nat.digits_of_lt 128 n hz h

theorem septets_of_le {n : Nat} (h : 128 ≤ n) : septets n = n % 128 :: septets (n / 128) := by
  have hne : n ≠ 0 := by omega
  have hdiv : n / 128 ≠ 0 := by omega
  rw [septets, septets, if_neg hne, if_neg hdiv]
  exact Nat.digits_eq_cons_digits_div (by decide) hne

theorem septets_ne_nil (n : Nat) : septets n ≠ [] := by
  unfold septets
  split
  · exact List.cons_ne_nil _ _
  · next hz => exact Nat.digits_ne_nil_iff_ne_zero.mpr hz

theorem septets_lt {n d : Nat} (h : d ∈ septets n) : d < 128 := by
  unfold septets at h
  split at h
  · rw [List.mem_singleton.mp h]
    decide
  · exact Nat.digits_lt_base (by decide) h

theorem ofDigits_septets (n : Nat) : Nat.ofDigits 128 (septets n) = n := by
  unfold septets
  split
  · next hz => rw [hz]; rfl
  · exact Nat.ofDigits_digits 128 n

theorem marked_cons (d : Nat) {ds : List Nat} (h : ds ≠ []) :
    marked (d :: ds) = UInt8.ofNat (128 + d) :: marked ds := by
  cases ds with
  | nil => exact absurd rfl h
  | cons e ds => rfl

theorem length_marked (ds : List Nat) : (marked ds).length = ds.length := by
  fun_induction marked ds with
  | case1 => rfl
  | case2 d => rfl
  | case3 d ds _ ih => rw [List.length_cons, List.length_cons, ih]

/-- Each further byte of the code takes a factor of 128. -/
theorem length_septets {n : Nat} (h : n < 2 ^ 32) :
    (septets n).length = if n < 0x80 then 1 else if n < 0x4000 then 2
      else if n < 0x200000 then 3 else if n < 0x10000000 then 4 else 5 := by
  -- one digit is taken off for each bound the number is not below
  have hlast : ∀ {m : Nat}, m < 128 → (septets m).length = 1 := by
    intro m hm
    rw [septets_of_lt hm, List.length_singleton]
  have hstep : ∀ {m : Nat}, 128 ≤ m → (septets m).length = (septets (m / 128)).length + 1 := by
    intro m hm
    rw [septets_of_le hm, List.length_cons]
  split
  · rw [hlast (by omega)]
  · split
    · rw [hstep (by omega), hlast (by omega)]
    · split
      · rw [hstep (by omega), hstep (by omega), hlast (by omega)]
      · split
        · rw [hstep (by omega), hstep (by omega), hstep (by omega), hlast (by omega)]
        · rw [hstep (by omega), hstep (by omega), hstep (by omega), hstep (by omega),
            hlast (by omega)]

/-- Five digits are enough for a word. -/
theorem length_septets_word (v : UInt32) : (septets v.toNat).length ≤ 5 := by
  rw [length_septets v.toNat_lt]
  split_ifs <;> decide

theorem length_code (v : UInt32) : (code v).length = byteLength v := by
  rw [code, length_marked, length_septets v.toNat_lt, byteLength]
  simp only [UInt32.lt_iff_toNat_lt]
  rfl

theorem code_of_small {v : UInt32} (h : v >>> 7 = 0) : code v = [v.toUInt8 &&& payloadMask] := by
  have hlt : v.toNat < 128 := by
    have hz : v.toNat / 128 = 0 := by rw [← toNat_shiftRight_seven, h]; rfl
    omega
  have hbyte : v.toUInt8 &&& payloadMask = UInt8.ofNat v.toNat := by
    apply UInt8.toNat_inj.mp
    rw [UInt8.toNat_and, UInt32.toNat_toUInt8, UInt8.toNat_ofNat']
    exact (Nat.and_two_pow_sub_one_eq_mod _ 7).trans (by omega)
  rw [code, septets_of_lt hlt, hbyte]
  rfl

theorem code_of_large {v : UInt32} (h : ¬v >>> 7 = 0) :
    code v = ((v.toUInt8 &&& payloadMask) ||| continuation) :: code (v >>> 7) := by
  have hle : 128 ≤ v.toNat := by
    have hne : v.toNat / 128 ≠ 0 := by
      rw [← toNat_shiftRight_seven]
      exact fun hz => h (UInt32.toNat_inj.mp hz)
    omega
  have hlow : v.toNat % 128 < 2 ^ 7 := Nat.mod_lt _ (by decide)
  have hbyte : (v.toUInt8 &&& payloadMask) ||| continuation = UInt8.ofNat (128 + v.toNat % 128) := by
    have hpayload : (v.toUInt8 &&& payloadMask).toNat = v.toNat % 128 := by
      rw [UInt8.toNat_and, UInt32.toNat_toUInt8]
      exact (Nat.and_two_pow_sub_one_eq_mod _ 7).trans (by omega)
    have hsum : v.toNat % 128 ||| 128 = 128 + v.toNat % 128 := by
      rw [Nat.or_comm]
      exact (Nat.two_pow_add_eq_or_of_lt hlow 1).symm
    apply UInt8.toNat_inj.mp
    rw [UInt8.toNat_or, hpayload, UInt8.toNat_ofNat']
    exact hsum.trans (Nat.mod_eq_of_lt (by omega)).symm
  rw [code, septets_of_le hle, marked_cons _ (septets_ne_nil _), hbyte, code, toNat_shiftRight_seven]

namespace Writer

/-! ## The writer's loop -/

/-- The committed bytes are allocated. -/
def Sound (w : Writer) : Prop := w.buffer.Sound

/-- The bits written so far. -/
def bits (w : Writer) : List Bool := ofBytes w.buffer.bytes.toList

theorem sound_ofCapacity (capacity : Nat) : (ofCapacity capacity).Sound :=
  Buffer.sound_ofCapacity capacity

theorem bits_ofCapacity (capacity : Nat) : (ofCapacity capacity).bits = [] := by
  rw [bits, ofCapacity, Buffer.bytes_ofCapacity, ofBytes_nil]

theorem length_bits {w : Writer} (h : w.Sound) : w.bits.length = 8 * w.buffer.length := by
  rw [bits, length_ofBytes, Buffer.length_bytes h]

/-- An integer appends the bytes of its code. -/
theorem bytes_writeInt {w : Writer} (h : w.Sound) (v : UInt32) :
    (w.writeInt v).value.Sound
      ∧ (w.writeInt v).value.buffer.bytes.toList = w.buffer.bytes.toList ++ code v := by
  -- on the number: each turn of the loop drops its seven lowest bits
  induction hn : v.toNat using Nat.strongRecOn generalizing w v with
  | ind n ih =>
    subst hn
    rw [writeInt]
    split
    · next hz =>
      rw [code_of_small hz]
      exact ⟨Buffer.sound_write h _, Buffer.bytes_write h _⟩
    · next hz =>
      obtain ⟨hsound, hrest⟩ := ih _ (toNat_shiftRight_seven_lt hz)
        (w := (w.writeByte ((v.toUInt8 &&& payloadMask) ||| continuation)).value)
        (Buffer.sound_write h _) (v >>> 7) rfl
      refine ⟨hsound, ?_⟩
      have hfirst : (w.writeByte ((v.toUInt8 &&& payloadMask) ||| continuation)).value.buffer.bytes.toList
          = w.buffer.bytes.toList ++ [(v.toUInt8 &&& payloadMask) ||| continuation] :=
        Buffer.bytes_write h _
      rw [value_bind, hrest, hfirst, code_of_large hz, List.append_assoc, List.singleton_append]

theorem rollBack_spec {w : Writer} (h : w.Sound) {position : Nat} (hle : position ≤ w.buffer.length) :
    (w.rollBack position).value.Sound
      ∧ (w.rollBack position).value.bits = w.bits.take (8 * position) := by
  refine ⟨Buffer.sound_setLength _ _, ?_⟩
  have hcut : (w.rollBack position).value.buffer.bytes.toList = w.buffer.bytes.toList.take position :=
    Buffer.bytes_setLength h hle
  rw [bits, hcut, bits, take_ofBytes]

/-- The dense writer stands for the bits written so far. -/
theorem tracks : Tracks IntWriter.writeInt (fun v => ofBytes (code v)) Sound bits where
  put w v h := by
    obtain ⟨hsound, hbytes⟩ := bytes_writeInt h v
    refine ⟨hsound, ?_⟩
    show ofBytes (w.writeInt v).value.buffer.bytes.toList = _
    rw [hbytes, ofBytes_append]
    rfl
  flush w h := by
    refine ⟨h, (pad_of_aligned ?_).symm⟩
    show w.bits.length % 8 = 0
    rw [length_bits h, Nat.mul_mod_right]
  rollBack _ _ h hle := rollBack_spec h hle
  length w h := by
    show w.buffer.length = w.bits.length / 8
    rw [length_bits h, Nat.mul_div_cancel_left _ (by decide)]
  bytes w h := by
    have hwhole := wholeBytes_ofBytes w.buffer.bytes.toList [] (by decide)
    rw [List.append_nil] at hwhole
    exact hwhole.symm

end Writer

end ValueStream.Dense
