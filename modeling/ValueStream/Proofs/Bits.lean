import Mathlib.Algebra.Group.Nat.Defs

/-!
Bit lists, most significant bit first.

`ofNat` and `toNat` pass between numbers and lists of a width, `ofBytes` lays
bytes out as bits, `wholeBytes` cuts bits into bytes again, and `pad` fills the
last byte with zero bits. `endless` is what a reader sees: the bits of some
bytes and zeros without end after them, of which `window` takes a piece.

What the codecs need of them: a width splits where its number is divided
(`ofNat_add`), bytes come back from their bits whatever short rest follows
(`wholeBytes_ofBytes`), and bytes in the middle of others lie where they are
put (`liesAt_bytes`).
-/

namespace ValueStream.Bits

/-- The lowest `width` bits of a number. -/
def ofNat : (width : Nat) → Nat → List Bool
  | 0, _ => []
  | width + 1, n => ofNat width (n / 2) ++ [n % 2 == 1]

/-- The number a bit list is in base two. -/
def toNat (bits : List Bool) : Nat := bits.foldl (fun n b => 2 * n + b.toNat) 0

def ofByte (b : UInt8) : List Bool := ofNat 8 b.toNat

def ofBytes (bytes : List UInt8) : List Bool := bytes.flatMap ofByte

/-- The byte that bits `8 * i` to `8 * i + 7` make. -/
def byteAt (bits : List Bool) (i : Nat) : UInt8 :=
  UInt8.ofNat (toNat ((bits.drop (8 * i)).take 8))

/-- The bytes that the bits fill; a rest of fewer than eight bits is left out. -/
def wholeBytes (bits : List Bool) : List UInt8 :=
  (List.range (bits.length / 8)).map (byteAt bits)

/-- The bits missing from a multiple of eight. -/
def padding (length : Nat) : Nat := (8 - length % 8) % 8

/-- The bits, and zeros up to the next byte boundary. -/
def pad (bits : List Bool) : List Bool := bits ++ List.replicate (padding bits.length) false

/-- Bit `i` of the bytes with zeros without end after them. -/
def endless (data : Array UInt8) (i : Nat) : Bool :=
  (data[i / 8]?.getD 0).toNat.testBit (7 - i % 8)

/-- The `n` bits of an endless sequence from place `c` on. -/
def window (z : Nat → Bool) (c n : Nat) : List Bool := (List.range n).map (fun i => z (c + i))

/-- The bits lie at place `c` of an endless sequence. -/
def LiesAt (z : Nat → Bool) (c : Nat) (bits : List Bool) : Prop := window z c bits.length = bits

/-! ## Numbers of a width -/

@[simp] theorem length_ofNat (w n : Nat) : (ofNat w n).length = w := by
  induction w generalizing n with
  | zero => rfl
  | succ w ih => simp [ofNat, ih]

/-- The upper bits of a number are those of its quotient. -/
theorem ofNat_add (a b n : Nat) : ofNat (a + b) n = ofNat a (n / 2 ^ b) ++ ofNat b n := by
  induction b generalizing n with
  | zero => simp [ofNat]
  | succ b ih =>
    -- the lowest bit goes to the second list on both sides, and halving leaves the case below
    have hdiv : n / 2 / 2 ^ b = n / 2 ^ (b + 1) := by
      rw [Nat.div_div_eq_div_mul, Nat.pow_succ, Nat.mul_comm]
    rw [← Nat.add_assoc, ofNat, ofNat, ih, hdiv, List.append_assoc]

theorem ofNat_mod (w n : Nat) : ofNat w (n % 2 ^ w) = ofNat w n := by
  induction w generalizing n with
  | zero => rfl
  | succ w ih =>
    have hdiv : n % 2 ^ (w + 1) / 2 = n / 2 % 2 ^ w := by
      rw [Nat.pow_succ, Nat.mul_comm, Nat.mod_mul_right_div_self]
    have hmod : n % 2 ^ (w + 1) % 2 = n % 2 :=
      Nat.mod_mod_of_dvd _ ⟨2 ^ w, by rw [Nat.pow_succ, Nat.mul_comm]⟩
    rw [ofNat, ofNat, hdiv, hmod, ih]

theorem ofNat_append (a b x y : Nat) (h : y < 2 ^ b) :
    ofNat a x ++ ofNat b y = ofNat (a + b) (x * 2 ^ b + y) := by
  have hdiv : (x * 2 ^ b + y) / 2 ^ b = x := by
    rw [Nat.add_comm, Nat.add_mul_div_right _ _ (Nat.two_pow_pos b), Nat.div_eq_of_lt h,
      Nat.zero_add]
  rw [ofNat_add, hdiv, ← ofNat_mod b (x * 2 ^ b + y), Nat.mul_add_mod_self_right, ofNat_mod]

/-- Setting the bits of a small number below a shifted one adds it, modulo the width of
the word. -/
theorem shiftLeft_or {w s y : Nat} (x : Nat) (hs : s ≤ w) (hy : y < 2 ^ s) :
    x <<< s % 2 ^ w ||| y = (2 ^ s * x + y) % 2 ^ w := by
  have hpow : 2 ^ s * 2 ^ (w - s) = 2 ^ w := by rw [← Nat.pow_add, Nat.add_sub_cancel' hs]
  have hup : x <<< s % 2 ^ w = 2 ^ s * (x % 2 ^ (w - s)) := by
    rw [Nat.shiftLeft_eq, Nat.mul_comm, ← hpow, Nat.mul_mod_mul_left]
  have hdiv : (2 ^ s * x + y) / 2 ^ s = x := by
    rw [Nat.mul_add_div (Nat.two_pow_pos s), Nat.div_eq_of_lt hy, Nat.add_zero]
  rw [hup, ← Nat.two_pow_add_eq_or_of_lt hy, ← hpow, Nat.mod_mul, hdiv, Nat.mul_add_mod,
    Nat.mod_eq_of_lt hy, Nat.add_comm]

theorem ofNat_zero (w : Nat) : ofNat w 0 = List.replicate w false := by
  induction w with
  | zero => rfl
  | succ w ih => rw [ofNat, List.replicate_succ', Nat.zero_div, ih]; rfl

theorem toNat_foldl (bits : List Bool) (n : Nat) :
    bits.foldl (fun n b => 2 * n + b.toNat) n = n * 2 ^ bits.length + toNat bits := by
  induction bits generalizing n with
  | nil => simp [toNat]
  | cons b bits ih =>
    have h2 : (2 * n + b.toNat) * 2 ^ bits.length
        = n * 2 ^ (bits.length + 1) + b.toNat * 2 ^ bits.length := by
      rw [Nat.add_mul, Nat.pow_succ, Nat.mul_comm 2 n, Nat.mul_assoc, Nat.mul_comm 2]
    rw [toNat, List.foldl_cons, List.foldl_cons, ih, ih, List.length_cons, h2, Nat.mul_zero,
      Nat.zero_add]
    omega

theorem toNat_append (xs ys : List Bool) :
    toNat (xs ++ ys) = toNat xs * 2 ^ ys.length + toNat ys := by
  rw [toNat, List.foldl_append, toNat_foldl ys]
  rfl

theorem toNat_lt (bits : List Bool) : toNat bits < 2 ^ bits.length := by
  induction bits with
  | nil => decide
  | cons b bits ih =>
    have h1 : toNat [b] ≤ 1 := by cases b <;> decide
    have hmul : toNat [b] * 2 ^ bits.length ≤ 1 * 2 ^ bits.length := Nat.mul_le_mul_right _ h1
    rw [← List.singleton_append, toNat_append, List.length_append, List.length_singleton,
      Nat.add_comm 1, Nat.pow_succ]
    omega

theorem toNat_ofNat (w n : Nat) : toNat (ofNat w n) = n % 2 ^ w := by
  induction w generalizing n with
  | zero => simp [ofNat, toNat, Nat.mod_one]
  | succ w ih =>
    have hbit : toNat [n % 2 == 1] = n % 2 := by
      rcases Nat.mod_two_eq_zero_or_one n with h | h <;> rw [h] <;> rfl
    rw [ofNat, toNat_append, ih, hbit, Nat.pow_succ, Nat.mul_comm (2 ^ w) 2, Nat.mod_mul]
    simp only [List.length_singleton, Nat.pow_one]
    omega

theorem ofNat_toNat (bits : List Bool) : ofNat bits.length (toNat bits) = bits := by
  induction bits with
  | nil => rfl
  | cons b bits ih =>
    have h1 : ofNat 1 (toNat [b]) = [b] := by cases b <;> rfl
    have happ := ofNat_append 1 bits.length (toNat [b]) (toNat bits) (toNat_lt bits)
    rw [h1, ih, ← toNat_append] at happ
    rw [List.length_cons, Nat.add_comm]
    exact happ.symm

theorem ofNat_inj {w m n : Nat} (hm : m < 2 ^ w) (hn : n < 2 ^ w) (h : ofNat w m = ofNat w n) :
    m = n := by
  have := congrArg toNat h
  rwa [toNat_ofNat, toNat_ofNat, Nat.mod_eq_of_lt hm, Nat.mod_eq_of_lt hn] at this

/-! ## Bytes -/

@[simp] theorem length_ofByte (b : UInt8) : (ofByte b).length = 8 := length_ofNat 8 _

theorem ofByte_inj {a b : UInt8} (h : ofByte a = ofByte b) : a = b :=
  UInt8.toNat_inj.mp (ofNat_inj a.toNat_lt b.toNat_lt h)

@[simp] theorem ofBytes_nil : ofBytes [] = [] := rfl

@[simp] theorem ofBytes_cons (b : UInt8) (bytes : List UInt8) :
    ofBytes (b :: bytes) = ofByte b ++ ofBytes bytes := List.flatMap_cons

@[simp] theorem ofBytes_append (xs ys : List UInt8) :
    ofBytes (xs ++ ys) = ofBytes xs ++ ofBytes ys := List.flatMap_append

@[simp] theorem length_ofBytes (bytes : List UInt8) : (ofBytes bytes).length = 8 * bytes.length := by
  induction bytes with
  | nil => rfl
  | cons b bytes ih => rw [ofBytes_cons, List.length_append, ih, length_ofByte, List.length_cons]; omega

theorem take_ofBytes (bytes : List UInt8) (n : Nat) :
    (ofBytes bytes).take (8 * n) = ofBytes (bytes.take n) := by
  induction n generalizing bytes with
  | zero => simp
  | succ n ih =>
    cases bytes with
    | nil => simp
    | cons b bytes =>
      have h8 : 8 * (n + 1) - 8 = 8 * n := by omega
      rw [ofBytes_cons, List.take_append, List.take_of_length_le (by rw [length_ofByte]; omega),
        length_ofByte, h8, ih, List.take_succ_cons, ofBytes_cons]

theorem byteAt_zero (b : UInt8) (rest : List Bool) : byteAt (ofByte b ++ rest) 0 = b := by
  rw [byteAt, List.drop_zero, List.take_left' (length_ofByte b), ofByte, toNat_ofNat,
    Nat.mod_eq_of_lt b.toNat_lt]
  exact UInt8.ofNat_toNat

theorem byteAt_succ (b : UInt8) (rest : List Bool) (i : Nat) :
    byteAt (ofByte b ++ rest) (i + 1) = byteAt rest i := by
  have h8 : 8 * (i + 1) = 8 + 8 * i := by omega
  rw [byteAt, h8, ← List.drop_drop, List.drop_left' (length_ofByte b), byteAt]

theorem wholeBytes_ofByte_append (b : UInt8) (rest : List Bool) :
    wholeBytes (ofByte b ++ rest) = b :: wholeBytes rest := by
  have hlen : (ofByte b ++ rest).length / 8 = rest.length / 8 + 1 := by
    simp only [List.length_append, length_ofByte]
    omega
  rw [wholeBytes, hlen, List.range_succ_eq_map, List.map_cons, List.map_map, byteAt_zero]
  exact congrArg _ (List.map_congr_left (fun i _ => byteAt_succ b rest i))

/-- Bytes come back from their bits. -/
theorem wholeBytes_ofBytes (bytes : List UInt8) (rest : List Bool) (h : rest.length < 8) :
    wholeBytes (ofBytes bytes ++ rest) = bytes := by
  induction bytes with
  | nil => simp [wholeBytes, Nat.div_eq_of_lt h]
  | cons b bytes ih => rw [ofBytes_cons, List.append_assoc, wholeBytes_ofByte_append, ih]

theorem exists_ofByte (bits : List Bool) (h : bits.length = 8) : ∃ b, bits = ofByte b := by
  have hlt : toNat bits < 2 ^ 8 := h ▸ toNat_lt bits
  refine ⟨UInt8.ofNat (toNat bits), ?_⟩
  rw [ofByte, UInt8.toNat_ofNat', Nat.mod_eq_of_lt hlt, ← h, ofNat_toNat]

/-- Bits come back from their bytes where they fill them. -/
theorem ofBytes_wholeBytes {bits : List Bool} (h : bits.length % 8 = 0) :
    ofBytes (wholeBytes bits) = bits := by
  obtain ⟨n, hn⟩ : ∃ n, bits.length = 8 * n := ⟨bits.length / 8, by omega⟩
  clear h
  -- on the number of bytes: the first eight bits are a byte, and the rest has one byte less
  induction n generalizing bits with
  | zero => rw [List.eq_nil_of_length_eq_zero hn]; rfl
  | succ n ih =>
    obtain ⟨b, hb⟩ := exists_ofByte (bits.take 8) (by rw [List.length_take]; omega)
    have hrest : (bits.drop 8).length = 8 * n := by rw [List.length_drop]; omega
    calc ofBytes (wholeBytes bits)
        = ofBytes (wholeBytes (ofByte b ++ bits.drop 8)) := by rw [← hb, List.take_append_drop]
      _ = ofByte b ++ ofBytes (wholeBytes (bits.drop 8)) := by
          rw [wholeBytes_ofByte_append, ofBytes_cons]
      _ = bits := by rw [ih hrest, ← hb, List.take_append_drop]

/-- Whole bytes in front come out as they are. -/
theorem wholeBytes_append {front : List Bool} (h : front.length % 8 = 0) (rest : List Bool) :
    wholeBytes (front ++ rest) = wholeBytes front ++ wholeBytes rest := by
  have hbytes : ∀ bytes, wholeBytes (ofBytes bytes ++ rest) = bytes ++ wholeBytes rest := by
    intro bytes
    induction bytes with
    | nil => rfl
    | cons b bytes ih =>
      rw [ofBytes_cons, List.append_assoc, wholeBytes_ofByte_append, ih, List.cons_append]
  rw [← hbytes, ofBytes_wholeBytes h]

/-! ## Padding -/

theorem length_pad (bits : List Bool) : (pad bits).length = 8 * ((bits.length + 7) / 8) := by
  simp only [pad, padding, List.length_append, List.length_replicate]
  omega

theorem length_wholeBytes_pad (bits : List Bool) :
    (wholeBytes (pad bits)).length = (bits.length + 7) / 8 := by
  rw [wholeBytes, List.length_map, List.length_range, length_pad,
    Nat.mul_div_cancel_left _ (by decide)]

theorem pad_of_aligned {bits : List Bool} (h : bits.length % 8 = 0) : pad bits = bits := by
  simp [pad, padding, h]

/-- Padding what comes after whole bytes is padding it alone. -/
theorem pad_append {front : List Bool} (h : front.length % 8 = 0) (bits : List Bool) :
    pad (front ++ bits) = front ++ pad bits := by
  have hpadding : padding (front.length + bits.length) = padding bits.length := by
    unfold padding
    omega
  rw [pad, pad, List.length_append, hpadding, List.append_assoc]

theorem prefix_pad (bits : List Bool) : bits <+: pad bits := List.prefix_append _ _

/-! ## What a reader sees -/

@[simp] theorem length_window (z : Nat → Bool) (c n : Nat) : (window z c n).length = n := by
  simp [window]

theorem window_add (z : Nat → Bool) (c m n : Nat) :
    window z c (m + n) = window z c m ++ window z (c + m) n := by
  simp only [window, List.range_add, List.map_append, List.map_map]
  congr 1
  exact List.map_congr_left (fun i _ => by simp [Nat.add_assoc])

/-- A window that starts later and ends no later is a piece of the longer one. -/
theorem window_piece (z : Nat → Bool) (c b n m : Nat) (h : b + n ≤ m) :
    window z (c + b) n = ((window z c m).drop b).take n := by
  obtain ⟨k, rfl⟩ := Nat.exists_eq_add_of_le h
  rw [window_add, window_add, List.append_assoc, List.drop_left' (length_window z c b),
    List.take_left' (length_window z _ n)]

theorem window_congr {z z' : Nat → Bool} {c c' : Nat} (h : ∀ i, z (c + i) = z' (c' + i)) (n : Nat) :
    window z c n = window z' c' n := List.map_congr_left (fun i _ => h i)

theorem window_succ (z : Nat → Bool) (c n : Nat) : window z c (n + 1) = z c :: window z (c + 1) n := by
  rw [Nat.add_comm n 1, window_add]
  rfl

theorem ofNat_eq_map (w n : Nat) :
    ofNat w n = (List.range w).map (fun i => n.testBit (w - 1 - i)) := by
  induction w generalizing n with
  | zero => rfl
  | succ w ih =>
    rw [ofNat, ih, List.range_succ, List.map_append]
    congr 1
    · refine List.map_congr_left (fun i hi => ?_)
      have hiw : i < w := List.mem_range.mp hi
      have hplace : w + 1 - 1 - i = w - 1 - i + 1 := by omega
      rw [hplace, Nat.testBit_succ]
    · rw [List.map_singleton, Nat.add_sub_cancel, Nat.sub_self, Nat.testBit_zero]
      rfl

/-- Zero bytes at the end are what is seen there anyway. -/
theorem endless_append_zeros (data : Array UInt8) (n : Nat) :
    endless (data ++ Array.replicate n 0) = endless data := by
  funext i
  unfold endless
  congr 2
  rw [Array.getElem?_append]
  split
  · rfl
  · next h =>
    rw [Array.getElem?_eq_none (Nat.le_of_not_lt h), Array.getElem?_replicate]
    split <;> rfl

/-- The window at a byte is the byte. -/
theorem window_byte (data : Array UInt8) (p : Nat) :
    window (endless data) (8 * p) 8 = ofByte (data[p]?.getD 0) := by
  rw [ofByte, ofNat_eq_map, window]
  refine List.map_congr_left (fun i hi => ?_)
  have hi8 : i < 8 := List.mem_range.mp hi
  have hbyte : (8 * p + i) / 8 = p := by omega
  have hplace : 7 - (8 * p + i) % 8 = 8 - 1 - i := by omega
  rw [endless, hbyte, hplace]

theorem liesAt_append {z : Nat → Bool} {c : Nat} {xs ys : List Bool} :
    LiesAt z c (xs ++ ys) ↔ LiesAt z c xs ∧ LiesAt z (c + xs.length) ys := by
  unfold LiesAt
  rw [List.length_append, window_add]
  constructor
  · intro h
    exact List.append_inj h (length_window z c _)
  · rintro ⟨hxs, hys⟩
    rw [hxs, hys]

/-- Bytes lie at a byte of the input if they stand there one after the other. -/
theorem liesAt_ofBytes_cons {data : Array UInt8} {p : Nat} {b : UInt8} {bytes : List UInt8} :
    LiesAt (endless data) (8 * p) (ofBytes (b :: bytes))
      ↔ data[p]?.getD 0 = b ∧ LiesAt (endless data) (8 * (p + 1)) (ofBytes bytes) := by
  have hbyte : LiesAt (endless data) (8 * p) (ofByte b) ↔ data[p]?.getD 0 = b := by
    rw [LiesAt, length_ofByte, window_byte]
    exact ⟨ofByte_inj, congrArg ofByte⟩
  rw [ofBytes_cons, liesAt_append, hbyte, length_ofByte, Nat.mul_succ]

/-- Bytes in the middle of others lie there from their first bit on. -/
theorem liesAt_bytes (pre post : Array UInt8) (bytes : List UInt8) :
    LiesAt (endless (pre ++ bytes.toArray ++ post)) (8 * pre.size) (ofBytes bytes) := by
  induction bytes generalizing pre with
  | nil => rfl
  | cons b bytes ih =>
    have hfirst : (pre ++ (b :: bytes).toArray ++ post)[pre.size]?.getD 0 = b := by
      rw [Array.append_assoc, Array.getElem?_append_right (Nat.le_refl _), Nat.sub_self,
        Array.getElem?_append_left (Nat.succ_pos bytes.length)]
      rfl
    have hrest : pre ++ (b :: bytes).toArray = pre.push b ++ bytes.toArray :=
      Array.toList_inj.mp (by simp)
    have hsize : pre.size + 1 = (pre.push b).size := (Array.size_push b).symm
    rw [liesAt_ofBytes_cons]
    refine ⟨hfirst, ?_⟩
    rw [hsize, hrest]
    exact ih (pre.push b)

end ValueStream.Bits
