import Mathlib.Data.Nat.Bitwise
import ValueStream.Proofs.Sparse.Code
import ValueStream.Proofs.Stream.Move
import ValueStream.Proofs.Stream.Recall
import ValueStream.Sparse.Reader

/-!
The sparse reader against a decoder that takes one bit at a time.

`decode z c` is the integer at place `c` of an endless sequence of bits: zero
for a bit 0, otherwise the six-bit groups of the windows of eight bits that
follow one another until one has a tag other than 11 or six are taken. Nothing
in it knows bytes. The reader agrees with it on every input, malformed tokens
and the end of the bytes included (`run_eq_decode`), because a token that
straddles two bytes is a window of the bits (`readToken_spec`).
-/

namespace ValueStream.Sparse

open Bits

/-- The windows of one integer: at most `count`, up to the first without the tag 11. -/
def windows (z : Nat → Bool) : (count : Nat) → (c : Nat) → List (List Bool)
  | 0, _ => []
  | count + 1, c =>
    if (window z c 8).take 2 = [true, true] then window z c 8 :: windows z count (c + 8)
    else [window z c 8]

/-- The six-bit groups of windows, without their tags. -/
def groups (ws : List (List Bool)) : List Bool := ws.flatMap (List.drop 2)

/-- The integer at a place, modulo two to the 32nd, and the place after it. -/
def decode (z : Nat → Bool) (c : Nat) : UInt32 × Nat :=
  if z c then (UInt32.ofNat (toNat (groups (windows z 6 c))), c + 8 * (windows z 6 c).length)
  else (0, c + 1)

/-! ## Windows -/

theorem length_windows_le (z : Nat → Bool) (count c : Nat) : (windows z count c).length ≤ count := by
  induction count generalizing c with
  | zero => exact Nat.le_refl 0
  | succ count ih =>
    unfold windows
    split
    · exact Nat.succ_le_succ (ih (c + 8))
    · exact Nat.succ_le_succ (Nat.zero_le count)

theorem length_windows_pos (z : Nat → Bool) (count c : Nat) :
    0 < (windows z (count + 1) c).length := by
  unfold windows
  split <;> exact Nat.zero_lt_succ _

theorem windows_congr {z z' : Nat → Bool} {c c' : Nat} (h : ∀ i, z (c + i) = z' (c' + i))
    (count : Nat) : windows z count c = windows z' count c' := by
  induction count generalizing c c' with
  | zero => rfl
  | succ count ih =>
    have hrest : ∀ i, z (c + 8 + i) = z' (c' + 8 + i) := by
      intro i
      rw [Nat.add_assoc, h, ← Nat.add_assoc]
    rw [windows, windows, window_congr h 8, ih hrest]

/-- Equal bits ahead give equal integers and equal distances, of 1 to 48 bits. -/
theorem decode_congr {z z' : Nat → Bool} {c c' : Nat} (h : ∀ i, z (c + i) = z' (c' + i)) :
    ∃ v n, decode z c = (v, c + n) ∧ decode z' c' = (v, c' + n) ∧ 1 ≤ n ∧ n ≤ 48 := by
  have hfirst : z c = z' c' := h 0
  unfold decode
  rw [← hfirst, ← windows_congr h 6]
  split
  · have hpos : 0 < (windows z 6 c).length := length_windows_pos z 5 c
    have hle := length_windows_le z 6 c
    exact ⟨_, _, rfl, rfl, by omega, by omega⟩
  · exact ⟨0, 1, rfl, rfl, Nat.le_refl 1, by decide⟩

/-! ## Codes in the input -/

/-- Tokens that lie at a place are the windows there. -/
theorem windows_tokens {z : Nat → Bool} {us : List Nat} {last count c : Nat}
    (hcount : us.length < count)
    (h : window z c (8 * (us.length + 1)) = us.flatMap (tokenBits true) ++ tokenBits false last) :
    windows z count c = us.map (tokenBits true) ++ [tokenBits false last] := by
  induction us generalizing count c with
  | nil =>
    obtain ⟨count, rfl⟩ : ∃ n, count = n + 1 := ⟨count - 1, by omega⟩
    have hwindow : window z c 8 = tokenBits false last := h
    have htag : (tokenBits false last).take 2 ≠ [true, true] := by simp [tokenBits]
    rw [windows, hwindow, if_neg htag]
    rfl
  | cons u us ih =>
    -- the first window is a token that continues, so the decoder goes on behind it
    obtain ⟨count, rfl⟩ : ∃ n, count = n + 1 := ⟨count - 1, by simp at hcount; omega⟩
    rw [List.length_cons, Nat.mul_succ, Nat.add_comm, window_add, List.flatMap_cons,
      List.append_assoc] at h
    obtain ⟨hfirst, hrest⟩ := List.append_inj h (by rw [length_window, length_tokenBits])
    have htag : (tokenBits true u).take 2 = [true, true] := rfl
    rw [windows, hfirst, if_pos htag, ih (Nat.lt_of_succ_lt_succ hcount) hrest]
    rfl

theorem toNat_digits {ds : List Nat} (h : ∀ d ∈ ds, d < 64) :
    toNat (ds.reverse.flatMap (ofNat 6)) = Nat.ofDigits 64 ds := by
  induction ds with
  | nil => rfl
  | cons d ds ih =>
    have hd : d < 2 ^ 6 := h d List.mem_cons_self
    have hds : ∀ e ∈ ds, e < 64 := fun e he => h e (List.mem_cons_of_mem d he)
    rw [List.reverse_cons, List.flatMap_append, List.flatMap_singleton, toNat_append, ih hds,
      length_ofNat, toNat_ofNat, Nat.mod_eq_of_lt hd, Nat.ofDigits_cons, Nat.mul_comm, Nat.add_comm]
    rfl

theorem groups_tokens (us : List Nat) (last : Nat) :
    groups (us.map (tokenBits true) ++ [tokenBits false last])
      = (last :: us.reverse).reverse.flatMap (ofNat 6) := by
  rw [List.reverse_cons, List.reverse_reverse, groups, List.flatMap_append, List.flatMap_map,
    List.flatMap_append]
  rfl

/-- A code that lies at a place is decoded to its integer, whatever follows it. -/
theorem decode_code {z : Nat → Bool} {c : Nat} {v : UInt32} (h : LiesAt z c (code v)) :
    decode z c = (v, c + (code v).length) := by
  by_cases hv : v = 0
  · subst hv
    rw [code_zero] at h ⊢
    have hbit : z c = false := List.head_eq_of_cons_eq h
    rw [decode, hbit]
    rfl
  · have hdigits := digits_eq_cons hv
    have hcode := code_of_digits hdigits
    -- 64 to the sixth is beyond 32 bits, so the decoder stops before its limit
    have hcount : (Nat.digits 64 (v.toNat / 64)).reverse.length < 6 := by
      have hlength := length_digits_le v
      rw [hdigits, List.length_cons] at hlength
      rw [List.length_reverse]
      omega
    have hspan : (code v).length = 8 * ((Nat.digits 64 (v.toNat / 64)).reverse.length + 1) := by
      rw [hcode, List.length_append, length_flatMap_tokenBits, length_tokenBits, Nat.mul_succ]
    have hone : z c = true := by
      have hstart : ∃ rest, code v = true :: rest := by
        rw [hcode]
        cases (Nat.digits 64 (v.toNat / 64)).reverse <;> exact ⟨_, rfl⟩
      obtain ⟨rest, hrest⟩ := hstart
      rw [LiesAt, hrest, List.length_cons, window_succ] at h
      exact List.head_eq_of_cons_eq h
    rw [LiesAt, hspan, hcode] at h
    have hwindows := windows_tokens hcount h
    have hvalue : toNat (groups (windows z 6 c)) = v.toNat := by
      rw [hwindows, groups_tokens, List.reverse_reverse, ← hdigits,
        toNat_digits (fun d hd => Nat.digits_lt_base (by decide) hd), Nat.ofDigits_digits]
    have hlength : 8 * (windows z 6 c).length = (code v).length := by
      rw [hwindows, hspan, List.length_append, List.length_map, List.length_singleton]
    rw [decode, if_pos hone, hvalue, hlength, UInt32.ofNat_toNat]

namespace Reader

/-- The cursor in bits. -/
def cursor (r : Reader) : Nat := 8 * r.position + r.bit.toNat

/-- The reader is over `data` and its cursor is in the byte at its position. -/
structure Sound (data : Array UInt8) (r : Reader) : Prop where
  data : r.data = data
  bit : r.bit.toNat < 8

theorem sound_ofBytes (data : Array UInt8) (position : Nat) : (ofBytes data position).Sound data :=
  ⟨rfl, Nat.zero_lt_succ 7⟩

/-! ## The bit under the cursor -/

theorem atZero_eq {data : Array UInt8} {r : Reader} (h : r.Sound data) :
    r.atZero = !endless data r.cursor := by
  have hbit := h.bit
  have hbyte : r.cursor / 8 = r.position := by unfold cursor; omega
  have hplace : 7 - r.cursor % 8 = 7 - r.bit.toNat := by unfold cursor; omega
  have hmask : (0x80 >>> r.bit : UInt8).toNat = 2 ^ (7 - r.bit.toNat) := by
    rw [UInt8.toNat_shiftRight]
    generalize r.bit.toNat = b at hbit
    revert b
    decide
  -- a mask of one bit leaves that bit where it is
  have hand : (r.byteAt r.position &&& (0x80 >>> r.bit)).toNat
      = ((r.byteAt r.position).toNat.testBit (7 - r.bit.toNat)).toNat * 2 ^ (7 - r.bit.toNat) := by
    rw [UInt8.toNat_and, hmask, Nat.and_two_pow]
  have hdata : endless data r.cursor = (r.byteAt r.position).toNat.testBit (7 - r.bit.toNat) := by
    rw [endless, hbyte, hplace, ← h.data]
    rfl
  have hpow : 2 ^ (7 - r.bit.toNat) ≠ 0 := Nat.ne_of_gt (Nat.two_pow_pos _)
  rw [atZero, hdata, Bool.eq_iff_iff, beq_iff_eq, ← UInt8.toNat_inj, hand]
  cases (r.byteAt r.position).toNat.testBit (7 - r.bit.toNat) <;> simp

theorem skipBit_spec {data : Array UInt8} {r : Reader} (h : r.Sound data) :
    r.skipBit.Sound data ∧ r.skipBit.cursor = r.cursor + 1 := by
  have hbit := h.bit
  have hnext : (r.bit + 1).toNat = r.bit.toNat + 1 := by
    rw [UInt8.toNat_add]
    exact Nat.mod_eq_of_lt (by simp; omega)
  unfold skipBit
  split
  · next hfull =>
    have h7 : r.bit.toNat + 1 = 8 := by rw [← hnext, hfull]; rfl
    refine ⟨⟨h.data, Nat.zero_lt_succ 7⟩, ?_⟩
    show 8 * (r.position + 1) + 0 = 8 * r.position + r.bit.toNat + 1
    omega
  · next hnot =>
    have hne : r.bit.toNat + 1 ≠ 8 := fun h8 => hnot (UInt8.toNat_inj.mp (hnext.trans h8))
    refine ⟨⟨h.data, ?_⟩, ?_⟩
    · show (r.bit + 1).toNat < 8
      rw [hnext]
      omega
    · show 8 * r.position + (r.bit + 1).toNat = 8 * r.position + r.bit.toNat + 1
      rw [hnext]
      omega

/-! ## Tokens -/

/-- The token at bit `b` of two bytes, as the shifts put it together. -/
theorem toNat_straddle {first second b : UInt8} (hb : b.toNat < 8) (h0 : b ≠ 0) :
    ((first <<< b) ||| (second >>> (8 - b))).toNat
      = (first.toNat * 2 ^ 8 + second.toNat) / 2 ^ (8 - b.toNat) % 2 ^ 8 := by
  have hpos : b.toNat ≠ 0 := fun hz => h0 (UInt8.toNat_inj.mp hz)
  have hroom : (8 - b).toNat = 8 - b.toNat :=
    UInt8.toNat_sub_of_le _ _ (UInt8.le_iff_toNat_le.mpr (Nat.le_of_lt hb))
  have hpow : 2 ^ b.toNat * 2 ^ (8 - b.toNat) = 2 ^ 8 := by
    rw [← Nat.pow_add, Nat.add_sub_cancel' (Nat.le_of_lt hb)]
  have hlow : second.toNat / 2 ^ (8 - b.toNat) < 2 ^ b.toNat := by
    apply Nat.div_lt_of_lt_mul
    rw [Nat.mul_comm, hpow]
    exact second.toNat_lt
  have hdown : (second >>> (8 - b)).toNat = second.toNat / 2 ^ (8 - b.toNat) := by
    rw [UInt8.toNat_shiftRight, hroom, Nat.mod_eq_of_lt (by omega), Nat.shiftRight_eq_div_pow]
  have hquot : (first.toNat * 2 ^ 8 + second.toNat) / 2 ^ (8 - b.toNat)
      = 2 ^ b.toNat * first.toNat + second.toNat / 2 ^ (8 - b.toNat) := by
    rw [← hpow, ← Nat.mul_assoc, Nat.add_comm, Nat.add_mul_div_right _ _ (Nat.two_pow_pos _),
      Nat.add_comm, Nat.mul_comm first.toNat]
  rw [UInt8.toNat_or, UInt8.toNat_shiftLeft, Nat.mod_eq_of_lt hb, hdown,
    shiftLeft_or _ (Nat.le_of_lt hb) hlow, hquot]

/-- A token is the window of eight bits at the cursor. -/
theorem readToken_spec {data : Array UInt8} {r : Reader} (h : r.Sound data) :
    ofByte r.readToken.1 = window (endless data) r.cursor 8 := by
  have hbit := h.bit
  have hfirst : window (endless data) (8 * r.position) 8 = ofByte (r.byteAt r.position) := by
    rw [window_byte, ← h.data]
    rfl
  have hsecond : window (endless data) (8 * r.position + 8) 8 = ofByte (r.byteAt (r.position + 1)) := by
    rw [← Nat.mul_succ, window_byte, ← h.data]
    rfl
  unfold readToken
  dsimp only
  split
  · next hz =>
    rw [cursor, hz, ← hfirst]
    rfl
  · next hz =>
    -- the token is a piece of the sixteen bits of two bytes
    have hnum : window (endless data) (8 * r.position) 16
        = ofNat 16 ((r.byteAt r.position).toNat * 2 ^ 8 + (r.byteAt (r.position + 1)).toNat) := by
      rw [window_add _ _ 8 8, hfirst, hsecond, ofByte, ofByte,
        ofNat_append _ _ _ _ (UInt8.toNat_lt _)]
    have hwidth : 16 = r.bit.toNat + (8 + (8 - r.bit.toNat)) := by omega
    rw [cursor, window_piece _ _ _ 8 16 (by omega), hnum, hwidth, ofNat_add,
      List.drop_left' (length_ofNat _ _), ofNat_add, List.take_left' (length_ofNat _ _), ofByte,
      toNat_straddle hbit hz, ofNat_mod]

theorem ofByte_split (token : UInt8) :
    ofByte token = ofNat 2 (token.toNat / 2 ^ 6) ++ ofNat 6 token.toNat := ofNat_add 2 6 token.toNat

/-- Appending a group to a number, modulo two to the 32nd. -/
theorem toNat_appendGroup (result : UInt32) (token : UInt8) :
    ((result <<< dataBits) ||| (token.toUInt32 &&& dataMask)).toNat
      = (result.toNat * 2 ^ 6 + toNat ((ofByte token).drop 2)) % 2 ^ 32 := by
  have hgroup : toNat ((ofByte token).drop 2) = token.toNat % 2 ^ 6 := by
    rw [ofByte_split, List.drop_left' (length_ofNat _ _), toNat_ofNat]
  have hlow : token.toNat % 2 ^ 6 < 2 ^ 6 := Nat.mod_lt _ (Nat.two_pow_pos 6)
  have hmask : (token.toUInt32 &&& dataMask).toNat = token.toNat % 2 ^ 6 := by
    rw [UInt32.toNat_and, UInt8.toNat_toUInt32]
    exact Nat.and_two_pow_sub_one_eq_mod token.toNat 6
  have h6 : dataBits.toNat % 32 = 6 := rfl
  rw [UInt32.toNat_or, UInt32.toNat_shiftLeft, h6, hmask, hgroup, shiftLeft_or _ (by decide) hlow,
    Nat.mul_comm]

/-- Among the tags of all bytes, 11 is the one that continues. -/
theorem tag_iff (token : UInt8) :
    token &&& tagMask = continuationTag ↔ (ofByte token).take 2 = [true, true] := by
  have hall : ∀ t < 256, (t &&& 0xC0 = 0xC0 ↔ ofNat 2 (t / 2 ^ 6) = [true, true]) := by
    decide +kernel
  rw [ofByte_split, List.take_left' (length_ofNat _ _), ← hall token.toNat token.toNat_lt,
    ← UInt8.toNat_inj, UInt8.toNat_and]
  rfl

/-- The token loop joins the groups of the windows at the cursor. -/
theorem readTokens_spec {data : Array UInt8} (count : Nat) (result : UInt32) {r : Reader}
    (h : r.Sound data) :
    (readTokens count result r).2.Sound data
      ∧ (readTokens count result r).2.cursor
        = r.cursor + 8 * (windows (endless data) count r.cursor).length
      ∧ (readTokens count result r).1.toNat
        = (result.toNat * 2 ^ (groups (windows (endless data) count r.cursor)).length
          + toNat (groups (windows (endless data) count r.cursor))) % 2 ^ 32 := by
  induction count generalizing result r with
  | zero =>
    refine ⟨h, rfl, ?_⟩
    have hlt := result.toNat_lt
    show result.toNat = (result.toNat * 1 + 0) % 2 ^ 32
    omega
  | succ count ih =>
    have htoken := readToken_spec h
    have hnext : r.readToken.2.Sound data := ⟨h.data, h.bit⟩
    have hcursor : r.readToken.2.cursor = r.cursor + 8 := by
      show 8 * (r.position + 1) + r.bit.toNat = 8 * r.position + r.bit.toNat + 8
      omega
    have happend := toNat_appendGroup result r.readToken.1
    rw [readTokens, windows, ← htoken]
    dsimp only
    by_cases htag : r.readToken.1 &&& tagMask = continuationTag
    · -- the tag is 11: the rest of the integer is read from the next window on
      obtain ⟨hsound, hend, hvalue⟩ := ih _ hnext
      rw [if_pos htag, if_pos ((tag_iff _).mp htag), groups, List.flatMap_cons]
      refine ⟨hsound, ?_, ?_⟩
      · rw [hend, hcursor, List.length_cons]
        omega
      · have hlength : ((ofByte r.readToken.1).drop 2).length = 6 := by
          rw [List.length_drop, length_ofByte]
        rw [hvalue, happend, hcursor, toNat_append, List.length_append, hlength, ← groups,
          Nat.add_mod, Nat.mul_mod, Nat.mod_mod, ← Nat.mul_mod, ← Nat.add_mod, Nat.add_mul,
          Nat.mul_assoc, ← Nat.pow_add, Nat.add_assoc]
    · rw [if_neg htag, if_neg (fun hw => htag ((tag_iff _).mpr hw))]
      refine ⟨hnext, ?_, ?_⟩
      · rw [hcursor]
        rfl
      · rw [happend]
        simp [groups]

/-- Reading an integer is decoding the bits at the cursor. -/
theorem readInt_spec {data : Array UInt8} {r : Reader} (h : r.Sound data) :
    r.readInt.2.Sound data
      ∧ decode (endless data) r.cursor = (r.readInt.1, r.readInt.2.cursor) := by
  have hzero := atZero_eq h
  unfold readInt decode
  cases hbit : endless data r.cursor with
  | false =>
    obtain ⟨hsound, hcursor⟩ := skipBit_spec h
    have hat : r.atZero = true := by rw [hzero, hbit]; rfl
    rw [if_pos hat, if_neg Bool.false_ne_true, hcursor]
    exact ⟨hsound, rfl⟩
  | true =>
    -- the loop starts from zero, so what it joins is all of the number
    obtain ⟨hsound, hcursor, hvalue⟩ := readTokens_spec 6 0 h
    have hat : r.atZero ≠ true := by rw [hzero, hbit]; exact Bool.false_ne_true
    rw [if_neg hat, if_pos rfl]
    refine ⟨hsound, Prod.ext ?_ hcursor.symm⟩
    apply UInt32.toNat_inj.mp
    show (UInt32.ofNat _).toNat = (readTokens 6 0 r).1.toNat
    rw [hvalue, UInt32.toNat_ofNat', UInt32.toNat_zero, Nat.zero_mul, Nat.zero_add]

theorem follows (data : Array UInt8) :
    Follows (decode (endless data)) (Reader.Sound data) Reader.cursor where
  readInt _ h := readInt_spec h
  seek _ _ h := ⟨⟨h.data, Nat.zero_lt_succ 7⟩, rfl⟩
  position r h := by
    have hbit := h.bit
    show r.position = (8 * r.position + r.bit.toNat) / 8
    omega

theorem recalls (data : Array UInt8) :
    Recalls (endless data) code (Reader.Sound data) Reader.cursor where
  readInt r v h hcode := by
    obtain ⟨hsound, hdecode⟩ := readInt_spec h
    rw [decode_code hcode] at hdecode
    obtain ⟨hread, hcursor⟩ := Prod.mk.inj hdecode
    exact ⟨hsound, hread.symm, hcursor.symm⟩
  seek := (follows data).seek

/-! ## Runs -/

/-- The reader after moves over `data`, begun at byte `position`. -/
def after (data : Array UInt8) (position : Nat) (moves : List Move) : Reader :=
  (Move.run (ofBytes data position) moves).2

theorem sound_after (data : Array UInt8) (position : Nat) (moves : List Move) :
    (after data position moves).Sound data :=
  ((follows data).run (sound_ofBytes data position) moves).1

theorem runOnCursor_eq (data : Array UInt8) (position : Nat) (moves : List Move) :
    Move.runOnCursor (decode (endless data)) (8 * position) moves
      = ((Move.run (ofBytes data position) moves).1, (after data position moves).cursor) :=
  ((follows data).run (sound_ofBytes data position) moves).2

theorem readInt_advance {data : Array UInt8} {r : Reader} (h : r.Sound data) :
    r.cursor + 1 ≤ r.readInt.2.cursor ∧ r.readInt.2.cursor ≤ r.cursor + 48 := by
  obtain ⟨v, n, hv, -, hpos, hle⟩ :=
    decode_congr (fun i => (rfl : endless data (r.cursor + i) = endless data (r.cursor + i)))
  rw [(readInt_spec h).2] at hv
  have hcursor : r.readInt.2.cursor = r.cursor + n := (Prod.mk.inj hv).2
  omega

/-- Two readers with equal bits ahead read the same and move equally far. -/
theorem readInt_local {data data' : Array UInt8} {r r' : Reader} (h : r.Sound data)
    (h' : r'.Sound data')
    (hahead : ∀ i, endless data (r.cursor + i) = endless data' (r'.cursor + i)) :
    r.readInt.1 = r'.readInt.1
      ∧ r.readInt.2.cursor - r.cursor = r'.readInt.2.cursor - r'.cursor := by
  obtain ⟨v, n, hv, hv', -, -⟩ := decode_congr hahead
  rw [(readInt_spec h).2] at hv
  rw [(readInt_spec h').2] at hv'
  obtain ⟨hread, hcursor⟩ := Prod.mk.inj hv
  obtain ⟨hread', hcursor'⟩ := Prod.mk.inj hv'
  refine ⟨hread.trans hread'.symm, ?_⟩
  rw [hcursor, hcursor', Nat.add_sub_cancel_left, Nat.add_sub_cancel_left]

/-- Whatever the bytes are, every run reads what the decoder says and stands where
it says, inside a byte. From there a read moves on by 1 to 48 bits, and what it
reads and how far it moves depend on the bits ahead only. Zero bytes behind the
input change nothing. -/
theorem run_eq_decode (data : Array UInt8) (position : Nat) (moves : List Move) :
    ((Move.run (ofBytes data position) moves).1, (after data position moves).cursor)
        = Move.runOnCursor (decode (endless data)) (8 * position) moves
      ∧ (after data position moves).bit.toNat < 8
      ∧ ((after data position moves).cursor + 1 ≤ (after data position moves).readInt.2.cursor
        ∧ (after data position moves).readInt.2.cursor ≤ (after data position moves).cursor + 48)
      ∧ (∀ data' position' moves',
          (∀ i, endless data ((after data position moves).cursor + i)
            = endless data' ((after data' position' moves').cursor + i)) →
          (after data position moves).readInt.1 = (after data' position' moves').readInt.1
            ∧ (after data position moves).readInt.2.cursor - (after data position moves).cursor
              = (after data' position' moves').readInt.2.cursor
                - (after data' position' moves').cursor)
      ∧ ∀ n, (Move.run (ofBytes (data ++ Array.replicate n 0) position) moves).1
            = (Move.run (ofBytes data position) moves).1
          ∧ (after (data ++ Array.replicate n 0) position moves).cursor
            = (after data position moves).cursor := by
  have hsound := sound_after data position moves
  refine ⟨(runOnCursor_eq data position moves).symm, hsound.bit, readInt_advance hsound, ?_, ?_⟩
  · intro data' position' moves' hahead
    exact readInt_local hsound (sound_after data' position' moves') hahead
  · intro n
    have hpadded := runOnCursor_eq (data ++ Array.replicate n 0) position moves
    rw [endless_append_zeros, runOnCursor_eq] at hpadded
    obtain ⟨hread, hcursor⟩ := Prod.mk.inj hpadded
    exact ⟨hread.symm, hcursor.symm⟩

end Reader

end ValueStream.Sparse
