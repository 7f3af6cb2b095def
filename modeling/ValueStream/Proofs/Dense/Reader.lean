import ValueStream.Dense.Reader
import ValueStream.Proofs.Dense.Writer
import ValueStream.Proofs.Stream.Recall

/-!
The dense reader against the arithmetic of base 128.

`decode z p` is the integer at byte `p` of an endless sequence of bytes: the
bytes up to the first with its top bit clear, or five if there is none among
them, each worth its lower seven bits. The reader's loop adds the digits by
shifts and drops what lies beyond 32 bits, which is the sum modulo two to the
32nd (`readInt_spec`). A code that lies at the cursor is read back whatever
stands around it (`decode_code`).
-/

namespace ValueStream.Dense

open Bits

/-- The bytes of the input with zeros without end after them. -/
def endlessBytes (data : Array UInt8) (p : Nat) : UInt8 := data[p]?.getD 0

/-- The bytes of one integer: at most `count`, up to the first with its top bit clear. -/
def taken (z : Nat → UInt8) : (count : Nat) → (p : Nat) → List UInt8
  | 0, _ => []
  | count + 1, p => if (z p).toNat < 128 then [z p] else z p :: taken z count (p + 1)

/-- The number that the lower seven bits of the bytes make, least significant first. -/
def worth (bytes : List UInt8) : Nat := Nat.ofDigits 128 (bytes.map (fun b => b.toNat % 128))

/-- The integer at a byte, modulo two to the 32nd, and the byte after it. -/
def decode (z : Nat → UInt8) (p : Nat) : UInt32 × Nat :=
  (UInt32.ofNat (worth (taken z 5 p)), p + (taken z 5 p).length)

theorem worth_cons (b : UInt8) (bytes : List UInt8) :
    worth (b :: bytes) = b.toNat % 128 + 128 * worth bytes := by
  rw [worth, List.map_cons, Nat.ofDigits_cons]
  rfl

/-! ## Codes in the input -/

theorem worth_marked {ds : List Nat} (h : ∀ d ∈ ds, d < 128) :
    worth (marked ds) = Nat.ofDigits 128 ds := by
  fun_induction marked ds with
  | case1 => rfl
  | case2 d =>
    have hd : d < 128 := h d (by simp)
    rw [worth_cons, UInt8.toNat_ofNat', Nat.ofDigits_cons]
    show d % 2 ^ 8 % 128 + 128 * 0 = d + 128 * 0
    omega
  | case3 d ds _ ih =>
    have hd : d < 128 := h d (by simp)
    have hbyte : (UInt8.ofNat (128 + d)).toNat % 128 = d := by
      rw [UInt8.toNat_ofNat']
      omega
    rw [worth_cons, hbyte, ih (fun e he => h e (List.mem_cons_of_mem d he)), Nat.ofDigits_cons]

/-- Marked digits that lie in the input are the bytes that are taken there. -/
theorem taken_marked {data : Array UInt8} {ds : List Nat} {count p : Nat} (hne : ds ≠ [])
    (hlt : ∀ d ∈ ds, d < 128) (hcount : ds.length ≤ count)
    (h : LiesAt (endless data) (8 * p) (ofBytes (marked ds))) :
    taken (endlessBytes data) count p = marked ds := by
  induction ds generalizing count p with
  | nil => exact absurd rfl hne
  | cons d ds ih =>
    have hd : d < 128 := hlt d List.mem_cons_self
    obtain ⟨count, rfl⟩ : ∃ n, count = n + 1 := ⟨count - 1, by simp at hcount; omega⟩
    -- only the last digit has its top bit clear
    by_cases hds : ds = []
    · subst hds
      have hbyte : endlessBytes data p = UInt8.ofNat d := (liesAt_ofBytes_cons.mp h).1
      have hsmall : (endlessBytes data p).toNat < 128 := by
        rw [hbyte, UInt8.toNat_ofNat']
        omega
      rw [taken, if_pos hsmall, hbyte]
      rfl
    · rw [marked_cons d hds, liesAt_ofBytes_cons] at h
      obtain ⟨hfirst, hrest⟩ := h
      have hbyte : endlessBytes data p = UInt8.ofNat (128 + d) := hfirst
      have hlarge : ¬(endlessBytes data p).toNat < 128 := by
        rw [hbyte, UInt8.toNat_ofNat']
        omega
      have hshort : ds.length ≤ count := by simp at hcount; omega
      have htail : taken (endlessBytes data) count (p + 1) = marked ds :=
        ih hds (fun e he => hlt e (List.mem_cons_of_mem d he)) hshort hrest
      rw [taken, if_neg hlarge, htail, hbyte, marked_cons d hds]

/-- A code that lies at a byte is decoded to its integer, and nothing behind it is taken. -/
theorem decode_code {data : Array UInt8} {p : Nat} {v : UInt32}
    (h : LiesAt (endless data) (8 * p) (ofBytes (code v))) :
    decode (endlessBytes data) p = (v, p + (code v).length) := by
  have htaken : taken (endlessBytes data) 5 p = code v :=
    taken_marked (septets_ne_nil _) (fun _ hd => septets_lt hd) (length_septets_word v) h
  have hworth : worth (code v) = v.toNat := by
    rw [code, worth_marked (fun _ hd => septets_lt hd), ofDigits_septets]
  rw [decode, htaken, hworth, UInt32.ofNat_toNat]

namespace Reader

/-! ## The reader's loop -/

/-- The reader is over `data`. -/
def Sound (data : Array UInt8) (r : Reader) : Prop := r.data = data

/-- Setting the bits of a digit above a smaller number adds the digit there. -/
theorem toNat_addDigit {result shift : UInt32} (byte : UInt8) (hs : shift.toNat < 32)
    (hresult : result.toNat < 2 ^ shift.toNat) :
    (result ||| ((byte &&& payloadMask).toUInt32 <<< shift)).toNat
      = (result.toNat + 2 ^ shift.toNat * (byte.toNat % 128)) % 2 ^ 32 := by
  have hdigit : (byte &&& payloadMask).toUInt32.toNat = byte.toNat % 128 := by
    rw [UInt8.toNat_toUInt32, UInt8.toNat_and]
    exact Nat.and_two_pow_sub_one_eq_mod _ 7
  rw [UInt32.toNat_or, UInt32.toNat_shiftLeft, hdigit, Nat.mod_eq_of_lt hs, Nat.or_comm,
    shiftLeft_or _ (Nat.le_of_lt hs) hresult, Nat.add_comm]

theorem continuation_iff (byte : UInt8) : byte &&& continuation = 0 ↔ byte.toNat < 128 := by
  have hall : ∀ b < 256, (b &&& 0x80 = 0 ↔ b < 128) := by decide +kernel
  rw [← hall byte.toNat byte.toNat_lt, ← UInt8.toNat_inj, UInt8.toNat_and]
  rfl

/-- The loop adds the bytes that are taken at the cursor. -/
theorem readBytes_spec {data : Array UInt8} (count : Nat) (shift result : UInt32) {r : Reader}
    (h : r.Sound data) (hshift : shift.toNat + 7 * count ≤ 35)
    (hresult : result.toNat < 2 ^ shift.toNat) :
    (readBytes count shift result r).2
        = ⟨data, r.position + (taken (endlessBytes data) count r.position).length⟩
      ∧ (readBytes count shift result r).1.toNat
        = (result.toNat + 2 ^ shift.toNat * worth (taken (endlessBytes data) count r.position))
          % 2 ^ 32 := by
  -- while a byte is still to come the shift is below 32, which is what `hshift` carries
  induction count generalizing shift result r with
  | zero =>
    have hlt : result.toNat < 2 ^ 32 := result.toNat_lt
    refine ⟨?_, (Nat.mod_eq_of_lt hlt).symm⟩
    obtain ⟨rdata, rposition⟩ := r
    cases h
    rfl
  | succ count ih =>
    have hs : shift.toNat < 32 := by omega
    have hbyte : r.readByte.1 = endlessBytes data r.position := by rw [← h]; rfl
    have hnext : r.readByte.2.Sound data := h
    have hadd := toNat_addDigit r.readByte.1 hs hresult
    rw [readBytes, taken]
    dsimp only
    by_cases hlast : r.readByte.1 &&& continuation = 0
    · have hsmall : (endlessBytes data r.position).toNat < 128 := by
        rw [← hbyte]
        exact (continuation_iff _).mp hlast
      rw [if_pos hlast, if_pos hsmall]
      refine ⟨?_, ?_⟩
      · rw [← h]
        rfl
      · rw [hadd, hbyte, worth_cons]
        rfl
    · have hlarge : ¬(endlessBytes data r.position).toNat < 128 := by
        rw [← hbyte]
        exact fun hlt => hlast ((continuation_iff _).mpr hlt)
      have hplace : (shift + 7).toNat = shift.toNat + 7 := by
        rw [UInt32.toNat_add]
        exact Nat.mod_eq_of_lt (by simp; omega)
      have hpow : 2 ^ (shift.toNat + 7) = 2 ^ shift.toNat * 128 := Nat.pow_add 2 _ 7
      have hbelow : (result ||| ((r.readByte.1 &&& payloadMask).toUInt32 <<< shift)).toNat
          < 2 ^ (shift + 7).toNat := by
        have hdigit : 2 ^ shift.toNat * (r.readByte.1.toNat % 128) ≤ 2 ^ shift.toNat * 127 :=
          Nat.mul_le_mul_left _ (by omega)
        have hmod := Nat.mod_le (result.toNat + 2 ^ shift.toNat * (r.readByte.1.toNat % 128)) (2 ^ 32)
        rw [hadd, hplace, hpow]
        omega
      obtain ⟨hend, hvalue⟩ := ih _ _ hnext (by rw [hplace]; omega) hbelow
      rw [if_neg hlast, if_neg hlarge]
      refine ⟨?_, ?_⟩
      · rw [hend, List.length_cons]
        show (⟨data, r.position + 1 + _⟩ : Reader) = _
        rw [Nat.add_right_comm, Nat.add_assoc]
        rfl
      · rw [hvalue, hadd, hplace, hpow, Nat.mod_add_mod, hbyte, worth_cons, Nat.mul_add,
          ← Nat.mul_assoc, Nat.add_assoc]
        rfl

theorem readInt_spec {data : Array UInt8} {r : Reader} (h : r.Sound data) :
    r.readInt.2.Sound data
      ∧ decode (endlessBytes data) r.position = (r.readInt.1, r.readInt.2.position) := by
  obtain ⟨hend, hvalue⟩ := readBytes_spec 5 0 0 h (by decide) (by decide)
  have hread : r.readInt = readBytes 5 0 0 r := rfl
  rw [hread, hend]
  refine ⟨rfl, Prod.ext ?_ rfl⟩
  apply UInt32.toNat_inj.mp
  rw [hvalue]
  show (UInt32.ofNat _).toNat = (0 + 1 * _) % 2 ^ 32
  rw [UInt32.toNat_ofNat', Nat.zero_add, Nat.one_mul]

theorem recalls (data : Array UInt8) :
    Recalls (endless data) (fun v => Bits.ofBytes (code v)) (Reader.Sound data)
      (fun r => 8 * r.position) where
  readInt r v h hcode := by
    obtain ⟨hsound, hdecode⟩ := readInt_spec h
    rw [decode_code hcode] at hdecode
    obtain ⟨hread, hposition⟩ := Prod.mk.inj hdecode
    refine ⟨hsound, hread.symm, ?_⟩
    show 8 * r.readInt.2.position = 8 * r.position + (Bits.ofBytes (code v)).length
    rw [← hposition, length_ofBytes, Nat.mul_add]
  seek _ _ h := ⟨h, rfl⟩

end Reader

end ValueStream.Dense
