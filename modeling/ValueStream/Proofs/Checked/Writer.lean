import ValueStream.Proofs.Checked.Buffer
import ValueStream.Proofs.Stream.Block

/-!
Writing with every step checked.

A write stream of either codec, and the typed values on it, with the shifts, the
counts and the places of the machine. A sparse stream may be shifted by what is
waiting only because less than a byte waits (`Sparse.Writer.Sound`), and its
block, like that of a dense stream, has to be ample for what is written. Under
these two conditions no call stops, and each does what it does without the
checks (`performChecked_eq`). The first condition holds after every run of calls,
roll-backs to any place among them (`sound_perform`).
-/

namespace ValueStream

open Trace Traced Checked Buffer

/-- What is committed leaves the block ample for as many bytes less. -/
theorem Commits.ample {σ : Type} {block : σ → Buffer} {s : σ} {x : Traced σ} {m n : Nat}
    (h : Commits block m s x) (hs : Ample (m + n) (block s)) : Ample n (block x.value) := by
  obtain ⟨bytes, hbytes, hvalue, -⟩ := h
  rw [hvalue]
  apply Ample.writes
  exact hs.mono (Nat.add_le_add_right hbytes n)

/-! ## Sparse streams -/

namespace Sparse.Writer

def writeZeroChecked : Writer → Checked Writer
  | ⟨buffer, pending, pendingBits⟩ => do
    let pending ← shiftLeft pending 1
    let pendingBits ← add pendingBits 1
    if pendingBits = 8 then do
      let buffer ← buffer.writeChecked pending
      pure ⟨buffer, 0, 0⟩
    else pure ⟨buffer, pending, pendingBits⟩

def writeTokenChecked : Writer → UInt8 → Checked Writer
  | ⟨buffer, pending, pendingBits⟩, token => do
    let room ← sub 8 pendingBits.toUInt32
    let upper ← shiftLeft pending.toUInt32 room
    let lower ← shiftRight token.toUInt32 pendingBits.toUInt32
    let buffer ← buffer.writeChecked (upper ||| lower).toUInt8
    let mask ← shiftRight 0xFF room
    pure ⟨buffer, (mask &&& token.toUInt32).toUInt8, pendingBits⟩

/-- Append the tokens of those groups that are not above the number. -/
def writeGroupsChecked (v : UInt32) : (groups : List UInt32) → Writer → Checked Writer
  | [], w => pure w
  | i :: groups, w => do
    let place ← mul dataBits i
    let group ← shiftRight v place
    if group ≠ 0 then do
      let w ← w.writeTokenChecked (continuationTag ||| (group &&& dataMask).toUInt8)
      writeGroupsChecked v groups w
    else writeGroupsChecked v groups w

def writeIntChecked (w : Writer) (v : UInt32) : Checked Writer :=
  if v = 0 then w.writeZeroChecked
  else do
    let w ← writeGroupsChecked v upperGroups w
    w.writeTokenChecked (terminalTag ||| (v &&& dataMask).toUInt8)

def flushChecked : Writer → Checked Writer
  | ⟨buffer, pending, pendingBits⟩ =>
    if pendingBits = 0 then pure ⟨buffer, pending, pendingBits⟩
    else do
      Traced.report (.flushing pendingBits.toNat buffer.length)
      let room ← sub 8 pendingBits
      let byte ← shiftLeft pending room
      let buffer ← buffer.writeChecked byte
      pure ⟨buffer, 0, 0⟩

def rollBackChecked : Writer → (position : Nat) → Checked Writer
  | ⟨buffer, _, _⟩, position => do
    Traced.report (.rollingBack .sparse buffer.length position)
    let buffer ← buffer.setLengthChecked position
    pure ⟨buffer, 0, 0⟩

variable {w : Writer}

/-- The eighth bit is counted before it is committed, so the count goes up to eight. -/
theorem writeZeroChecked_eq (h : w.Sound) (hroom : Ample 1 w.buffer) :
    w.writeZeroChecked = liftM w.writeZero := by
  obtain ⟨buffer, pending, pendingBits⟩ := w
  have hfew : pendingBits.toNat < 8 := h.few
  have hmove : shiftLeft pending 1 = pure (pending <<< 1) := shiftLeft_of (by decide) _
  have hcount : add pendingBits 1 = pure (pendingBits + 1) := by
    apply add_byte
    show pendingBits.toNat + 1 ≤ 0xFF
    omega
  rw [writeZeroChecked, hmove, pure_bind, hcount, pure_bind, writeZero]
  split
  · exact bind_eq_liftM (writeChecked_eq hroom _) rfl
  · rfl

/-- The shifts are on 32 bits, where eight places are not too many. -/
theorem writeTokenChecked_eq (h : w.Sound) (hroom : Ample 1 w.buffer) (token : UInt8) :
    w.writeTokenChecked token = liftM (w.writeToken token) := by
  obtain ⟨buffer, pending, pendingBits⟩ := w
  have hfew : pendingBits.toNat < 8 := h.few
  have hword : pendingBits.toUInt32.toNat = pendingBits.toNat := UInt8.toNat_toUInt32 _
  have hrest : sub 8 pendingBits.toUInt32 = pure (8 - pendingBits.toUInt32) := by
    apply sub_word
    rw [hword]
    exact Nat.le_of_lt hfew
  have hup : Shifts (8 - pendingBits.toUInt32) := by
    apply shifts_word
    rw [toNat_eight_sub hfew]
    omega
  have hdown : Shifts pendingBits.toUInt32 := by
    apply shifts_word
    rw [hword]
    omega
  rw [writeTokenChecked, hrest, pure_bind, shiftLeft_of hup, pure_bind, shiftRight_of hdown,
    pure_bind, writeToken]
  apply bind_eq_liftM (writeChecked_eq hroom _)
  rw [shiftRight_of hup, pure_bind]
  rfl

theorem writeGroupsChecked_eq (v : UInt32) {groups : List UInt32} (hgroups : ∀ i ∈ groups, i.toNat ≤ 5)
    (h : w.Sound) (hroom : Ample groups.length w.buffer) :
    writeGroupsChecked v groups w
      = liftM (((groups.filter (fun i => fromGroup v i ≠ 0)).map
          (token continuationTag v)).foldlM writeToken w) := by
  induction groups generalizing w with
  | nil => rfl
  | cons i groups ih =>
    have hi : i.toNat ≤ 5 := hgroups i List.mem_cons_self
    have hrest : ∀ j ∈ groups, j.toNat ≤ 5 := fun j hj => hgroups j (List.mem_cons_of_mem i hj)
    have h6 : dataBits.toNat = 6 := rfl
    have hbits : dataBits.toNat * i.toNat < 32 := by
      rw [h6]
      omega
    have hplace : mul dataBits i = pure (dataBits * i) :=
      mul_word (Nat.le_trans (Nat.le_of_lt hbits) (by decide))
    have hshifts : Shifts (dataBits * i) := by
      apply shifts_word
      rw [UInt32.toNat_mul, Nat.mod_eq_of_lt (Nat.lt_trans hbits (by decide))]
      exact hbits
    rw [writeGroupsChecked, hplace, pure_bind, shiftRight_of hshifts, pure_bind, ← fromGroup]
    rw [List.length_cons, Nat.add_comm] at hroom
    by_cases hgroup : fromGroup v i ≠ 0
    · have hone : Ample 1 w.buffer := hroom.mono (Nat.le_add_right _ _)
      have hless := (commits_writeToken w (token continuationTag v i)).ample hroom
      rw [if_pos hgroup, List.filter_cons_of_pos (by simpa using hgroup), List.map_cons,
        List.foldlM_cons]
      apply bind_eq_liftM (writeTokenChecked_eq h hone _)
      exact ih hrest (writeToken_spec h _).1 hless
    · rw [if_neg hgroup, List.filter_cons_of_neg (by simpa using hgroup)]
      exact ih hrest h (hroom.mono (Nat.le_add_left _ _))

/-- The lowest group needs no shift. -/
theorem fromGroup_zero (v : UInt32) : fromGroup v 0 = v := by
  apply UInt32.toNat_inj.mp
  rw [toNat_fromGroup v 0 (by decide)]
  exact Nat.div_one _

theorem writeIntChecked_eq (h : w.Sound) (hroom : Ample 6 w.buffer) (v : UInt32) :
    w.writeIntChecked v = liftM (w.writeInt v) := by
  have hgroups : ∀ i ∈ upperGroups, i.toNat ≤ 5 := by
    have hall : upperGroups.all (fun i => i.toNat ≤ 5) = true := rfl
    intro i hi
    exact of_decide_eq_true (List.all_eq_true.mp hall i hi)
  unfold writeIntChecked writeInt tokens
  split
  · exact writeZeroChecked_eq h (hroom.mono (by decide))
  · have hupper := writeGroupsChecked_eq v hgroups h (hroom.mono (by decide))
    generalize hts : (upperGroups.filter (fun i => fromGroup v i ≠ 0)).map (token continuationTag v)
      = ts at hupper ⊢
    have hfive : ts.length * 1 + 1 ≤ 6 := by
      rw [← hts, List.length_map, Nat.mul_one]
      exact Nat.succ_le_succ (List.length_filter_le _ upperGroups)
    have hone : Ample 1 (ts.foldlM writeToken w).value.buffer :=
      (Commits.foldlM commits_writeToken ts w).ample (hroom.mono hfive)
    have hlast := writeTokenChecked_eq (writeTokens_spec h ts).1 hone (token terminalTag v 0)
    rw [token, fromGroup_zero] at hlast
    simp only [token, fromGroup_zero, List.foldlM_append, List.foldlM_cons, List.foldlM_nil,
      bind_pure]
    exact bind_eq_liftM hupper hlast

theorem flushChecked_eq (h : w.Sound) (hroom : Ample 1 w.buffer) :
    w.flushChecked = liftM w.flush := by
  obtain ⟨buffer, pending, pendingBits⟩ := w
  have hfew : pendingBits.toNat < 8 := h.few
  rw [flushChecked, flush]
  split
  · rfl
  · next hwaiting =>
    -- something waits, so the shift is by less than eight
    have hrest : sub 8 pendingBits = pure (8 - pendingBits) := sub_byte (Nat.le_of_lt hfew)
    have hshifts : Shifts (8 - pendingBits) := shifts_rest hwaiting hfew
    apply bind_eq_liftM rfl
    rw [hrest, pure_bind, shiftLeft_of hshifts, pure_bind]
    exact bind_eq_liftM (writeChecked_eq hroom _) rfl

theorem rollBackChecked_eq (w : Writer) {position : Nat} (h : position ≤ reach) :
    w.rollBackChecked position = liftM (w.rollBack position) := by
  obtain ⟨buffer, pending, pendingBits⟩ := w
  rw [rollBackChecked, rollBack]
  apply bind_eq_liftM rfl
  exact bind_eq_liftM (setLengthChecked_eq buffer h) rfl

/-- Rolling back leaves nothing waiting and allocates what it leaves committed, also where
it moves the end forward. -/
theorem sound_rollBack (w : Writer) (position : Nat) : (w.rollBack position).value.Sound := by
  rw [value_rollBack]
  exact sound_settled (sound_setLength _ _)

end Sparse.Writer

/-! ## Dense streams -/

namespace Dense.Writer

def writeByteChecked : Writer → UInt8 → Checked Writer
  | ⟨buffer⟩, byte => do
    let buffer ← buffer.writeChecked byte
    pure ⟨buffer⟩

def writeIntChecked (w : Writer) (v : UInt32) : Checked Writer := do
  let _ ← shiftRight v 7
  if _h : v >>> 7 = 0 then w.writeByteChecked (v.toUInt8 &&& payloadMask)
  else do
    let w ← w.writeByteChecked ((v.toUInt8 &&& payloadMask) ||| continuation)
    w.writeIntChecked (v >>> 7)
termination_by v.toNat
decreasing_by exact toNat_shiftRight_seven_lt _h

def rollBackChecked : Writer → (position : Nat) → Checked Writer
  | ⟨buffer⟩, position => do
    Traced.report (.rollingBack .dense buffer.length position)
    let buffer ← buffer.setLengthChecked position
    pure ⟨buffer⟩

variable {w : Writer}

theorem writeByteChecked_eq (h : Ample 1 w.buffer) (byte : UInt8) :
    w.writeByteChecked byte = liftM (w.writeByte byte) :=
  bind_eq_liftM (writeChecked_eq h byte) rfl

theorem writeIntChecked_eq_of_code (v : UInt32) (h : Ample (code v).length w.buffer) :
    w.writeIntChecked v = liftM (w.writeInt v) := by
  -- on the number: each turn of the loop drops its seven lowest bits
  induction hn : v.toNat using Nat.strongRecOn generalizing w v with
  | ind n ih =>
    subst hn
    have hshift : shiftRight v 7 = pure (v >>> 7) := shiftRight_of (by decide) v
    rw [writeIntChecked, writeInt, hshift, pure_bind]
    split
    · next hz =>
      rw [code_of_small hz] at h
      exact writeByteChecked_eq h _
    · next hz =>
      rw [code_of_large hz, List.length_cons] at h
      apply bind_eq_liftM (writeByteChecked_eq (h.mono (Nat.le_add_left 1 _)) _)
      exact ih _ (toNat_shiftRight_seven_lt hz) _ (h.write _) rfl

theorem writeIntChecked_eq (h : Ample 5 w.buffer) (v : UInt32) :
    w.writeIntChecked v = liftM (w.writeInt v) := by
  apply writeIntChecked_eq_of_code
  apply h.mono
  rw [code, length_marked]
  exact length_septets_word v

theorem rollBackChecked_eq (w : Writer) {position : Nat} (h : position ≤ reach) :
    w.rollBackChecked position = liftM (w.rollBack position) := by
  obtain ⟨buffer⟩ := w
  rw [rollBackChecked, rollBack]
  apply bind_eq_liftM rfl
  exact bind_eq_liftM (setLengthChecked_eq buffer h) rfl

end Dense.Writer

/-! ## Streams of either codec -/

namespace Codec.Writer

def writeIntChecked : Writer → UInt32 → Checked Writer
  | sparse w, v => sparse <$> w.writeIntChecked v
  | dense w, v => dense <$> w.writeIntChecked v

def flushChecked : Writer → Checked Writer
  | sparse w => sparse <$> w.flushChecked
  | dense w => pure (dense w)

def rollBackChecked : Writer → (position : Nat) → Checked Writer
  | sparse w, position => sparse <$> w.rollBackChecked position
  | dense w, position => dense <$> w.rollBackChecked position

def bytesChecked (w : Writer) : Checked (Array UInt8) := w.buffer.bytesChecked

/-- Flush, and cut the block off behind the committed bytes. -/
def finishChecked (w : Writer) : Checked (Array UInt8) := do
  let w ← w.flushChecked
  pure w.buffer.bytes

def writeSignedChecked (w : Writer) (v : Int32) : Checked Writer := do
  let folded ← Word.foldChecked v
  w.writeIntChecked folded

def writeDoubleChecked (w : Writer) (v : Binary64) : Checked Writer := do
  let upper ← Word.highChecked v.bits
  let w ← w.writeIntChecked (Word.reverse upper)
  w.writeIntChecked (Word.reverse (Word.low v.bits))

def writeLongChecked (w : Writer) (v : Int64) : Checked Writer := do
  let upper ← Word.highChecked v.toUInt64
  let w ← w.writeSignedChecked (Word.low v.toUInt64).toInt32
  w.writeSignedChecked upper.toInt32

def writeChecked (w : Writer) : Value → Checked Writer
  | .int v => w.writeIntChecked v
  | .sint v => w.writeSignedChecked v
  | .float v => w.writeIntChecked (Word.reverse v.bits)
  | .double v => w.writeDoubleChecked v
  | .long v => w.writeLongChecked v
  | .bool v => w.writeIntChecked v.toUInt32
  | .byte v => w.writeIntChecked v.toUInt8.toUInt32

/-- Make a call; the path that a value takes makes no step of its own. -/
def performChecked (w : Writer) : Call (Path × Value) → Checked (Option Nat × Writer)
  | .write (_, v) => do
    let w ← w.writeChecked v
    pure (none, w)
  | .position | .startScope => do
    let w ← w.flushChecked
    pure (some w.buffer.length, w)
  | .align => do
    let w ← w.flushChecked
    pure (none, w)
  | .rollBack position => do
    let w ← w.rollBackChecked position
    pure (none, w)

variable {c : Codec} {w : Writer}

/-- Whatever is called leaves a sound stream, a roll-back to any place too. -/
theorem sound_perform (h : Sound c w) (call : Call (Path × Value)) :
    Sound c (call.perform Path.put w).value.2 := by
  cases call with
  | write pv => exact (c.tracks.paths.put w pv h).1
  | position => exact (c.tracks.flush w h).1
  | startScope => exact (c.tracks.flush w h).1
  | align => exact (c.tracks.flush w h).1
  | rollBack p =>
    match c, w, h with
    | .sparse, sparse w, _ => exact w.sound_rollBack p
    | .dense, dense w, _ => exact Buffer.sound_setLength _ _

theorem sound_writeInt (h : Sound c w) (v : UInt32) : Sound c (IntWriter.writeInt w v).value :=
  (c.tracks.put w v h).1

theorem writeIntChecked_eq (h : Sound c w) (hroom : Ample 6 w.buffer) (v : UInt32) :
    w.writeIntChecked v = liftM (IntWriter.writeInt w v) := by
  match c, w, h with
  | .sparse, sparse w, h =>
    have hint := Sparse.Writer.writeIntChecked_eq h hroom v
    rw [writeIntChecked, hint]
    exact (liftM_map _ _).symm
  | .dense, dense w, _ =>
    have hint := Dense.Writer.writeIntChecked_eq (hroom.mono (by decide)) v
    rw [writeIntChecked, hint]
    exact (liftM_map _ _).symm

theorem flushChecked_eq (h : Sound c w) (hroom : Ample 1 w.buffer) :
    w.flushChecked = liftM (IntWriter.flush w) := by
  match c, w, h with
  | .sparse, sparse w, h =>
    rw [flushChecked, Sparse.Writer.flushChecked_eq h hroom]
    exact (liftM_map _ _).symm
  | .dense, dense w, _ => rfl

theorem rollBackChecked_eq (w : Writer) {position : Nat} (h : position ≤ reach) :
    w.rollBackChecked position = liftM (IntWriter.rollBack w position) := by
  cases w with
  | sparse w =>
    rw [rollBackChecked, w.rollBackChecked_eq h]
    exact (liftM_map _ _).symm
  | dense w =>
    rw [rollBackChecked, w.rollBackChecked_eq h]
    exact (liftM_map _ _).symm

/-- A value is one or two integers, and the second finds the block ample for six bytes still. -/
theorem writeChecked_eq (h : Sound c w) (hroom : Ample 12 w.buffer) (v : Value) :
    w.writeChecked v = liftM (v.write w) := by
  have hfirst : ∀ n, w.writeIntChecked n = liftM (IntWriter.writeInt w n) :=
    writeIntChecked_eq h (hroom.mono (by decide))
  have hsecond : ∀ m n, (IntWriter.writeInt w m).value.writeIntChecked n
      = liftM (IntWriter.writeInt (IntWriter.writeInt w m).value n) := fun m n =>
    writeIntChecked_eq (sound_writeInt h m) ((commits_writeInt w m).ample (n := 6) hroom) n
  cases v with
  | int v => exact hfirst v
  | sint v =>
    rw [writeChecked, writeSignedChecked, Word.foldChecked_eq, pure_bind]
    exact hfirst (Word.fold v)
  | float v => exact hfirst (Word.reverse v.bits)
  | double v =>
    rw [writeChecked, writeDoubleChecked, Word.highChecked_eq, pure_bind]
    exact bind_eq_liftM (hfirst _) (hsecond _ _)
  | long v =>
    rw [writeChecked, writeLongChecked, Word.highChecked_eq, pure_bind, writeSignedChecked,
      Word.foldChecked_eq, pure_bind]
    exact bind_eq_liftM (hfirst _) (hsecond _ _)
  | bool v => exact hfirst v.toUInt32
  | byte v => exact hfirst v.toUInt8.toUInt32

theorem buffer_rollBack (w : Writer) (position : Nat) :
    (IntWriter.rollBack w position).value.buffer = (w.buffer.setLength position).value := by
  cases w with
  | sparse w => exact congrArg Sparse.Writer.buffer (w.value_rollBack position)
  | dense w => rfl

/-- A call on a sound stream with an ample block stops nowhere, where it leaves the length
within reach. -/
theorem performChecked_eq (h : Sound c w) (hroom : Ample 12 w.buffer) {call : Call (Path × Value)}
    (hend : IntWriter.length (call.perform Path.put w).value.2 ≤ reach) :
    w.performChecked call = liftM (call.perform Path.put w) := by
  have hflush := flushChecked_eq h (hroom.mono (by decide))
  cases call with
  | write pv =>
    have hwrite := writeChecked_eq h hroom pv.2
    rw [← Path.write_eq pv.1] at hwrite
    exact bind_eq_liftM hwrite rfl
  | position =>
    simp only [Call.perform, IntWriter.position, bind_assoc, pure_bind]
    exact bind_eq_liftM hflush rfl
  | startScope =>
    simp only [Call.perform, IntWriter.startScope, IntWriter.position, bind_assoc, pure_bind]
    exact bind_eq_liftM hflush rfl
  | align => exact bind_eq_liftM hflush rfl
  | rollBack p =>
    have hlength : (IntWriter.rollBack w p).value.buffer.length ≤ reach := hend
    rw [buffer_rollBack, length_setLength] at hlength
    exact bind_eq_liftM (rollBackChecked_eq w hlength) rfl

theorem ample_flush {n : Nat} (hroom : Ample (n + 1) w.buffer) :
    Ample n (IntWriter.flush w).value.buffer := by
  cases w with
  | sparse w =>
    show Ample n w.flush.value.buffer
    rw [Sparse.Writer.value_flush]
    split
    · exact hroom.mono (Nat.le_succ n)
    · exact hroom.write _
  | dense w => exact hroom.mono (Nat.le_succ n)

/-- A call that leaves the length within reach leaves a block that could be allocated. -/
theorem ample_perform (hroom : Ample 12 w.buffer) {call : Call (Path × Value)}
    (hend : IntWriter.length (call.perform Path.put w).value.2 ≤ reach) :
    Ample 0 (call.perform Path.put w).value.2.buffer := by
  have hflush : Ample 0 (IntWriter.flush w).value.buffer := ample_flush (hroom.mono (by decide))
  cases call with
  | write pv => exact (commits_put w pv).ample hroom
  | position => exact hflush
  | startScope => exact hflush
  | align => exact hflush
  | rollBack p =>
    have hlength : (IntWriter.rollBack w p).value.buffer.length ≤ reach := hend
    show Ample 0 (IntWriter.rollBack w p).value.buffer
    rw [buffer_rollBack] at hlength ⊢
    rw [length_setLength] at hlength
    exact Ample.setLength hroom.allocated hroom.sound hlength

theorem finishChecked_eq (h : Sound c w) (hroom : Ample 1 w.buffer) :
    w.finishChecked = liftM (IntWriter.finish w) := bind_eq_liftM (flushChecked_eq h hroom) rfl

end Codec.Writer

end ValueStream
