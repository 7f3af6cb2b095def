import ValueStream.Proofs.Buffer
import ValueStream.Proofs.Sparse.Code
import ValueStream.Proofs.Stream.Call
import ValueStream.Sparse.Writer

/-!
The sparse writer as a list of bits.

`Writer.bits` reads a stream as the bits of its committed bytes with the
waiting bits behind them. Each operation is followed at whatever offset the
stream is at: a zero appends one bit, a token appends its eight bits though it
is written as the rest of one byte and the beginning of the next, and flushing
pads. `Sound` is what carries through all of them: fewer than eight bits wait,
and the waiting byte holds nothing above them. With that, every run of calls
does to the stream what it does to a bit list (`run_inStep`).
-/

namespace ValueStream.Sparse.Writer

open Trace Traced Bits

/-- Fewer than eight bits wait, nothing stands above them, and the committed
bytes are allocated. -/
structure Sound (w : Writer) : Prop where
  buffer : w.buffer.Sound
  few : w.pendingBits.toNat < 8
  clean : w.pending.toNat < 2 ^ w.pendingBits.toNat

/-- The bits written so far: the committed bytes, then the waiting bits. -/
def bits (w : Writer) : List Bool :=
  ofBytes w.buffer.bytes.toList ++ ofNat w.pendingBits.toNat w.pending.toNat

theorem sound_settled {buffer : Buffer} (h : buffer.Sound) : Sound ⟨buffer, 0, 0⟩ :=
  ⟨h, Nat.zero_lt_succ 7, Nat.zero_lt_one⟩

theorem bits_settled (buffer : Buffer) : bits ⟨buffer, 0, 0⟩ = ofBytes buffer.bytes.toList :=
  List.append_nil _

theorem sound_ofCapacity (capacity : Nat) : (ofCapacity capacity).Sound :=
  sound_settled (Buffer.sound_ofCapacity capacity)

theorem bits_ofCapacity (capacity : Nat) : (ofCapacity capacity).bits = [] := by
  rw [ofCapacity, bits_settled, Buffer.bytes_ofCapacity, ofBytes_nil]

theorem length_bits {w : Writer} (h : w.Sound) :
    w.bits.length = 8 * w.buffer.length + w.pendingBits.toNat := by
  rw [bits, List.length_append, length_ofBytes, Buffer.length_bytes h.buffer, length_ofNat]

/-- Waiting bits moved up keep their value as long as they stay in the byte. -/
theorem toNat_moveUp {x s : UInt8} {p k : Nat} (hx : x.toNat < 2 ^ p) (hs : s.toNat = k)
    (hk : k < 8) (hp : p + k ≤ 8) : (x <<< s).toNat = x.toNat * 2 ^ k := by
  have hfit : x.toNat * 2 ^ k < 2 ^ 8 :=
    calc x.toNat * 2 ^ k < 2 ^ p * 2 ^ k := Nat.mul_lt_mul_of_pos_right hx (Nat.two_pow_pos k)
      _ = 2 ^ (p + k) := (Nat.pow_add 2 p k).symm
      _ ≤ 2 ^ 8 := Nat.pow_le_pow_right (by decide) hp
  rw [UInt8.toNat_shiftLeft, hs, Nat.mod_eq_of_lt hk, Nat.shiftLeft_eq, Nat.mod_eq_of_lt hfit]

/-! ## A zero -/

theorem value_writeZero (w : Writer) :
    w.writeZero.value = if w.pendingBits + 1 = 8
      then ⟨(w.buffer.write (w.pending <<< 1)).value, 0, 0⟩
      else ⟨w.buffer, w.pending <<< 1, w.pendingBits + 1⟩ := by
  obtain ⟨buffer, pending, pendingBits⟩ := w
  simp only [writeZero]
  split <;> rfl

/-- A zero appends the bit 0. -/
theorem writeZero_spec {w : Writer} (h : w.Sound) :
    w.writeZero.value.Sound ∧ w.writeZero.value.bits = w.bits ++ [false] := by
  have hmove : (w.pending <<< 1).toNat = w.pending.toNat * 2 ^ 1 :=
    toNat_moveUp h.clean rfl (by decide) h.few
  have hcode : ofNat (w.pendingBits.toNat + 1) (w.pending <<< 1).toNat
      = ofNat w.pendingBits.toNat w.pending.toNat ++ [false] := by
    rw [hmove]
    exact (ofNat_append _ 1 _ 0 (by decide)).symm
  have hnext : (w.pendingBits + 1).toNat = w.pendingBits.toNat + 1 := by
    have hfew := h.few
    rw [UInt8.toNat_add]
    exact Nat.mod_eq_of_lt (by simp; omega)
  rw [value_writeZero]
  split
  · next hfull =>
    -- the eighth bit: the byte is committed and nothing waits any more
    have h7 : w.pendingBits.toNat + 1 = 8 := by rw [← hnext, hfull]; rfl
    refine ⟨sound_settled (Buffer.sound_write h.buffer _), ?_⟩
    have hbyte : ofByte (w.pending <<< 1) = ofNat w.pendingBits.toNat w.pending.toNat ++ [false] := by
      rw [← hcode, h7]
      rfl
    rw [bits_settled, bits, Buffer.bytes_write h.buffer, ofBytes_append, ofBytes_cons, hbyte,
      ofBytes_nil, List.append_nil, List.append_assoc]
  · next hnot =>
    have hne : w.pendingBits.toNat + 1 ≠ 8 := fun h8 =>
      hnot (UInt8.toNat_inj.mp (hnext.trans h8))
    have hfew := h.few
    refine ⟨⟨h.buffer, ?_, ?_⟩, ?_⟩
    · show (w.pendingBits + 1).toNat < 8
      rw [hnext]
      omega
    · show (w.pending <<< 1).toNat < 2 ^ (w.pendingBits + 1).toNat
      have hclean := h.clean
      rw [hmove, hnext, Nat.pow_succ]
      omega
    · show ofBytes w.buffer.bytes.toList ++ ofNat (w.pendingBits + 1).toNat (w.pending <<< 1).toNat
        = w.bits ++ [false]
      rw [hnext, hcode, bits, List.append_assoc]

/-! ## A token -/

theorem value_writeToken (w : Writer) (token : UInt8) :
    (w.writeToken token).value
      = ⟨(w.buffer.write (filledByte w.pending w.pendingBits token)).value,
        keptBits w.pendingBits token, w.pendingBits⟩ := by
  cases w
  rfl

theorem toNat_eight_sub {p : UInt8} (h : p.toNat < 8) : (8 - p.toUInt32).toNat = 8 - p.toNat := by
  have hle : p.toUInt32 ≤ 8 := by
    rw [UInt32.le_iff_toNat_le, UInt8.toNat_toUInt32]
    exact Nat.le_of_lt h
  rw [UInt32.toNat_sub_of_le _ _ hle, UInt8.toNat_toUInt32]
  rfl

theorem toNat_filledByte {pending pendingBits token : UInt8} (hfew : pendingBits.toNat < 8)
    (hclean : pending.toNat < 2 ^ pendingBits.toNat) :
    (filledByte pending pendingBits token).toNat
      = pending.toNat * 2 ^ (8 - pendingBits.toNat) + token.toNat / 2 ^ pendingBits.toNat := by
  have hlow : token.toNat / 2 ^ pendingBits.toNat < 2 ^ (8 - pendingBits.toNat) := by
    apply Nat.div_lt_of_lt_mul
    rw [← Nat.pow_add, Nat.add_sub_cancel' (Nat.le_of_lt hfew)]
    exact token.toNat_lt
  have hsum : pending.toNat * 2 ^ (8 - pendingBits.toNat) + token.toNat / 2 ^ pendingBits.toNat
      < 2 ^ 8 :=
    calc _ < pending.toNat * 2 ^ (8 - pendingBits.toNat) + 2 ^ (8 - pendingBits.toNat) := by omega
      _ = (pending.toNat + 1) * 2 ^ (8 - pendingBits.toNat) := (Nat.succ_mul _ _).symm
      _ ≤ 2 ^ pendingBits.toNat * 2 ^ (8 - pendingBits.toNat) := Nat.mul_le_mul_right _ hclean
      _ = 2 ^ 8 := by rw [← Nat.pow_add, Nat.add_sub_cancel' (Nat.le_of_lt hfew)]
  have hwidth : 8 - pendingBits.toNat < 32 := by omega
  have hdown : (token.toUInt32 >>> pendingBits.toUInt32).toNat
      = token.toNat / 2 ^ pendingBits.toNat := by
    rw [UInt32.toNat_shiftRight, UInt8.toNat_toUInt32, UInt8.toNat_toUInt32,
      Nat.mod_eq_of_lt (by omega : pendingBits.toNat < 32), Nat.shiftRight_eq_div_pow]
  rw [filledByte, UInt32.toNat_toUInt8, UInt32.toNat_or, UInt32.toNat_shiftLeft,
    toNat_eight_sub hfew, Nat.mod_eq_of_lt hwidth, UInt8.toNat_toUInt32, hdown,
    shiftLeft_or _ (Nat.le_of_lt hwidth) hlow, Nat.mul_comm,
    Nat.mod_eq_of_lt (Nat.lt_trans hsum (by decide)), Nat.mod_eq_of_lt hsum]

theorem toNat_keptBits {pendingBits token : UInt8} (hfew : pendingBits.toNat < 8) :
    (keptBits pendingBits token).toNat = token.toNat % 2 ^ pendingBits.toNat := by
  have hmask : (0xFF >>> (8 - pendingBits.toUInt32) : UInt32).toNat = 2 ^ pendingBits.toNat - 1 := by
    rw [UInt32.toNat_shiftRight, toNat_eight_sub hfew]
    -- there are eight masks, and each is seen by computing it
    generalize pendingBits.toNat = p at hfew
    revert p
    decide
  have hsmall : token.toNat % 2 ^ pendingBits.toNat < 2 ^ 8 :=
    Nat.lt_of_le_of_lt (Nat.mod_le _ _) token.toNat_lt
  rw [keptBits, UInt32.toNat_toUInt8, UInt32.toNat_and, hmask, UInt8.toNat_toUInt32, Nat.and_comm,
    Nat.and_two_pow_sub_one_eq_mod, Nat.mod_eq_of_lt hsmall]

/-- The filled byte and the kept bits are the waiting bits and the token. -/
theorem filledByte_append_keptBits {pending pendingBits token : UInt8} (hfew : pendingBits.toNat < 8)
    (hclean : pending.toNat < 2 ^ pendingBits.toNat) :
    ofByte (filledByte pending pendingBits token)
        ++ ofNat pendingBits.toNat (keptBits pendingBits token).toNat
      = ofNat pendingBits.toNat pending.toNat ++ ofByte token := by
  have hpow : 2 ^ (8 - pendingBits.toNat) * 2 ^ pendingBits.toNat = 2 ^ 8 := by
    rw [← Nat.pow_add, Nat.sub_add_cancel (Nat.le_of_lt hfew)]
  have hkept : token.toNat % 2 ^ pendingBits.toNat < 2 ^ pendingBits.toNat :=
    Nat.mod_lt _ (Nat.two_pow_pos _)
  -- as one number of `pendingBits + 8` bits, the two sides cut the token at different places
  have hvalue : (pending.toNat * 2 ^ (8 - pendingBits.toNat) + token.toNat / 2 ^ pendingBits.toNat)
        * 2 ^ pendingBits.toNat + token.toNat % 2 ^ pendingBits.toNat
      = pending.toNat * 2 ^ 8 + token.toNat := by
    rw [Nat.add_mul, Nat.mul_assoc, hpow, Nat.add_assoc, Nat.div_add_mod']
  rw [ofByte, toNat_filledByte hfew hclean, toNat_keptBits hfew, ofNat_append _ _ _ _ hkept, hvalue,
    ofByte, ofNat_append _ _ _ _ token.toNat_lt, Nat.add_comm]

/-- A token appends its eight bits, at any offset. -/
theorem writeToken_spec {w : Writer} (h : w.Sound) (token : UInt8) :
    (w.writeToken token).value.Sound
      ∧ (w.writeToken token).value.bits = w.bits ++ ofByte token := by
  rw [value_writeToken]
  refine ⟨⟨Buffer.sound_write h.buffer _, h.few, ?_⟩, ?_⟩
  · show (keptBits w.pendingBits token).toNat < 2 ^ w.pendingBits.toNat
    rw [toNat_keptBits h.few]
    exact Nat.mod_lt _ (Nat.two_pow_pos _)
  · rw [bits, bits, Buffer.bytes_write h.buffer, ofBytes_append, ofBytes_cons, ofBytes_nil,
      List.append_nil, List.append_assoc, filledByte_append_keptBits h.few h.clean,
      List.append_assoc]

theorem writeTokens_spec {w : Writer} (h : w.Sound) (tokens : List UInt8) :
    (tokens.foldlM writeToken w).value.Sound
      ∧ (tokens.foldlM writeToken w).value.bits = w.bits ++ ofBytes tokens := by
  induction tokens generalizing w with
  | nil => exact ⟨h, (List.append_nil _).symm⟩
  | cons token tokens ih =>
    obtain ⟨hsound, hbits⟩ := writeToken_spec h token
    obtain ⟨hend, hrest⟩ := ih hsound
    refine ⟨hend, ?_⟩
    rw [ofBytes_cons, ← List.append_assoc, ← hbits, ← hrest]
    rfl

theorem writeInt_spec {w : Writer} (h : w.Sound) (v : UInt32) :
    (w.writeInt v).value.Sound ∧ (w.writeInt v).value.bits = w.bits ++ code v := by
  unfold writeInt
  split
  · next hv =>
    rw [hv, code_zero]
    exact writeZero_spec h
  · next hv =>
    rw [code_eq_tokens hv]
    exact writeTokens_spec h (tokens v)

/-! ## Flushing and rolling back -/

theorem value_flush (w : Writer) :
    w.flush.value = if w.pendingBits = 0 then w
      else ⟨(w.buffer.write (w.pending <<< (8 - w.pendingBits))).value, 0, 0⟩ := by
  obtain ⟨buffer, pending, pendingBits⟩ := w
  simp only [flush]
  split <;> rfl

theorem events_flush (w : Writer) :
    w.flush.events = if w.pendingBits = 0 then []
      else .flushing w.pendingBits.toNat w.buffer.length
        :: (w.buffer.write (w.pending <<< (8 - w.pendingBits))).events := by
  obtain ⟨buffer, pending, pendingBits⟩ := w
  simp only [flush]
  split
  · rfl
  · simp

/-- With nothing waiting there is nothing to flush, and nothing is reported. -/
theorem flush_settled {w : Writer} (h : w.pendingBits = 0) : w.flush = pure w := by
  obtain ⟨buffer, pending, pendingBits⟩ := w
  simp only [flush, if_pos h]

/-- Flushing pads the bits to a byte. -/
theorem flush_spec {w : Writer} (h : w.Sound) :
    w.flush.value.Sound ∧ w.flush.value.bits = pad w.bits ∧ w.flush.value.pendingBits = 0 := by
  have hfew := h.few
  have hlength := length_bits h
  rw [value_flush]
  split
  · next hp =>
    refine ⟨h, (pad_of_aligned ?_).symm, hp⟩
    rw [hlength, hp]
    simp
  · next hp =>
    -- the zeros that the shift brings in are the padding
    have hpos : w.pendingBits.toNat ≠ 0 := fun hz => hp (UInt8.toNat_inj.mp hz)
    have hroom : (8 - w.pendingBits).toNat = 8 - w.pendingBits.toNat :=
      UInt8.toNat_sub_of_le _ _ (UInt8.le_iff_toNat_le.mpr (Nat.le_of_lt hfew))
    have hmove := toNat_moveUp h.clean hroom (by omega) (by omega)
    have hwidth : 8 = w.pendingBits.toNat + (8 - w.pendingBits.toNat) := by omega
    have hpadding : padding w.bits.length = 8 - w.pendingBits.toNat := by
      rw [hlength, padding]
      omega
    have hbyte : ofByte (w.pending <<< (8 - w.pendingBits))
        = ofNat w.pendingBits.toNat w.pending.toNat
          ++ List.replicate (8 - w.pendingBits.toNat) false := by
      rw [← ofNat_zero, ofNat_append _ _ _ _ (Nat.two_pow_pos _), ← hwidth, ofByte, hmove,
        Nat.add_zero]
    refine ⟨sound_settled (Buffer.sound_write h.buffer _), ?_, rfl⟩
    rw [bits_settled, Buffer.bytes_write h.buffer, ofBytes_append, ofBytes_cons, hbyte, ofBytes_nil,
      List.append_nil, pad, hpadding, bits, List.append_assoc]

theorem value_rollBack (w : Writer) (position : Nat) :
    (w.rollBack position).value = ⟨(w.buffer.setLength position).value, 0, 0⟩ := by
  cases w
  rfl

/-- Rolling back to committed bytes cuts everything behind them off. -/
theorem rollBack_spec {w : Writer} (h : w.Sound) {position : Nat} (hle : position ≤ w.buffer.length) :
    (w.rollBack position).value.Sound
      ∧ (w.rollBack position).value.bits = w.bits.take (8 * position) := by
  have hcommitted : 8 * position ≤ (ofBytes w.buffer.bytes.toList).length := by
    rw [length_ofBytes, Buffer.length_bytes h.buffer]
    omega
  rw [value_rollBack]
  refine ⟨sound_settled (Buffer.sound_setLength _ _), ?_⟩
  rw [bits_settled, Buffer.bytes_setLength h.buffer hle, ← take_ofBytes, bits,
    List.take_append_of_le_length hcommitted]

/-! ## Runs -/

/-- The sparse writer stands for the bits written so far. -/
theorem tracks : Tracks IntWriter.writeInt code Sound bits where
  put _ v h := writeInt_spec h v
  flush _ h := ⟨(flush_spec h).1, (flush_spec h).2.1⟩
  rollBack _ _ h hle := rollBack_spec h hle
  length w h := by
    have hfew := h.few
    show w.buffer.length = w.bits.length / 8
    rw [length_bits h]
    omega
  bytes w h := (wholeBytes_ofBytes _ _ (by rw [length_ofNat]; exact h.few)).symm

/-- A stream and a bit list in step. The committed bytes are the whole bytes of
the list, the lowest bits of the waiting byte are the rest, the bytes taken in
the end are the list padded to a byte, and a second flush in a row does nothing. -/
structure InStep (w : Writer) (bs : List Bool) : Prop where
  bytes : w.buffer.bytes.toList = wholeBytes bs
  pendingBits : w.pendingBits.toNat = bs.length % 8
  pending : ofNat w.pendingBits.toNat w.pending.toNat = bs.drop (8 * (bs.length / 8))
  clean : w.pending.toNat < 2 ^ w.pendingBits.toNat
  finish : (IntWriter.finish w).value.toList = wholeBytes (pad bs)
  settled : IntWriter.position (IntWriter.position w).value.2 = pure (IntWriter.position w).value

theorem inStep_bits {w : Writer} (h : w.Sound) : InStep w w.bits where
  bytes := tracks.bytes w h
  pendingBits := by
    have hfew := h.few
    rw [length_bits h]
    omega
  pending := by
    have hfew := h.few
    -- the last byte boundary of the bits is where the committed bytes end
    have hwhole : 8 * (w.bits.length / 8) = (ofBytes w.buffer.bytes.toList).length := by
      rw [length_bits h, length_ofBytes, Buffer.length_bytes h.buffer]
      omega
    rw [hwhole, bits, List.drop_left]
  clean := h.clean
  finish := tracks.finish h
  settled := by
    have hsettled : IntWriter.flush w.flush.value = pure w.flush.value :=
      flush_settled (flush_spec h).2.2
    show IntWriter.position w.flush.value = _
    unfold IntWriter.position
    rw [hsettled]
    rfl

/-- Whatever is called on a fresh stream, it answers as a bit list does and stays
in step with it. -/
theorem run_inStep (capacity : Nat) (calls : List (Call UInt32))
    (h : Call.Backward IntWriter.writeInt (ofCapacity capacity) calls) :
    (Call.run IntWriter.writeInt (ofCapacity capacity) calls).value.1
        = (Call.runOnBits code [] calls).1
      ∧ InStep (Call.run IntWriter.writeInt (ofCapacity capacity) calls).value.2
        (Call.runOnBits code [] calls).2 := by
  obtain ⟨hsound, hrun⟩ := tracks.run (sound_ofCapacity capacity) h
  rw [bits_ofCapacity] at hrun
  rw [hrun]
  exact ⟨rfl, inStep_bits hsound⟩

/-- A block of one byte that has to grow, a scope given up in the middle of a
byte, and one bit left waiting. -/
theorem run_inStep_after_growth :
    let calls : List (Call UInt32) :=
      [.write 4096, .write 0, .startScope, .write 0, .write 63, .rollBack 4, .write 1, .write 0]
    Call.Backward IntWriter.writeInt (ofCapacity 1) calls
      ∧ (Call.run IntWriter.writeInt (ofCapacity 1) calls).value.1
        = [none, none, some 4, none, none, none, none, none]
      ∧ InStep (Call.run IntWriter.writeInt (ofCapacity 1) calls).value.2
        (ofBytes [0xC1, 0xC0, 0x80, 0x00, 0x81] ++ [false]) := by
  intro calls
  have hback : Call.Backward IntWriter.writeInt (ofCapacity 1) calls := by decide +kernel
  have hbits : Call.runOnBits code [] calls
      = ([none, none, some 4, none, none, none, none, none],
        ofBytes [0xC1, 0xC0, 0x80, 0x00, 0x81] ++ [false]) := by decide +kernel
  obtain ⟨hanswers, hstep⟩ := run_inStep 1 calls hback
  rw [hbits] at hanswers hstep
  exact ⟨hback, hanswers, hstep⟩

end ValueStream.Sparse.Writer
