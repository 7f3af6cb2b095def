import Mathlib.Algebra.BigOperators.Group.Finset.Basic
import ValueStream.Proofs.Dense.Reader
import ValueStream.Proofs.Stream.Move

/-!
The dense codec is base 128, least significant digit first, in both directions.

`IsBase128` says what the bytes of a number are without saying how they are
found, and the writer's code is such (`isBase128_code`). `digitsAt` says what a
read is on any bytes: it ends at the first byte with bit 7 clear, or at the
fifth, and adds up the lower seven bits (`decode_eq_digitsAt`). The loops of
the writer and of the reader stop by different rules, and both come to this
(`base128_both_ways`).
-/

namespace ValueStream.Dense

open Bits Trace Traced

/-- The bytes of a number: their lower seven bits are its digits, bit 7 is set on
every byte but the last, and no fewer bytes have its digits. -/
structure IsBase128 (n : Nat) (bytes : List UInt8) : Prop where
  ne_nil : bytes ≠ []
  worth : worth bytes = n
  marked : ∀ (i : Nat) (b : UInt8), bytes[i]? = some b →
    (b.toNat.testBit 7 = true ↔ i + 1 < bytes.length)
  least : ∀ other : List UInt8, other ≠ [] → Dense.worth other = n → bytes.length ≤ other.length

/-- How many bytes lie before the last one of the integer at byte `p`, which is the
first with bit 7 clear, or the last of `count + 1` if there is none among them. -/
def lastPlace (z : Nat → UInt8) (count p : Nat) : Nat :=
  ((List.range (count + 1)).find? (fun i => !(z (p + i)).toNat.testBit 7)).getD count

/-- The sum of the digits of the integer at byte `p` modulo two to the 32nd, and the
byte after it; it has at most five bytes. -/
def digitsAt (z : Nat → UInt8) (p : Nat) : UInt32 × Nat :=
  (UInt32.ofNat (∑ i ∈ Finset.range (lastPlace z 4 p + 1), (z (p + i)).toNat % 128 * 2 ^ (7 * i)),
    p + (lastPlace z 4 p + 1))

/-- The same where places are counted in bits, eight to a byte. -/
def digitsAtBit (z : Nat → UInt8) (c : Nat) : UInt32 × Nat :=
  ((digitsAt z (c / 8)).1, 8 * (digitsAt z (c / 8)).2)

/-! ## The bytes of a number -/

theorem testBit_seven (b : UInt8) : b.toNat.testBit 7 = decide (128 ≤ b.toNat) := by
  have hall : ∀ n < 256, n.testBit 7 = decide (128 ≤ n) := by decide +kernel
  exact hall b.toNat b.toNat_lt

theorem worth_lt (bytes : List UInt8) : worth bytes < 128 ^ bytes.length := by
  induction bytes with
  | nil => decide
  | cons b bytes ih =>
    have hdigit : b.toNat % 128 < 128 := Nat.mod_lt _ (by decide)
    rw [worth_cons, List.length_cons, Nat.pow_succ]
    omega

theorem worth_code (v : UInt32) : worth (code v) = v.toNat := by
  rw [code, worth_marked (fun _ hd => septets_lt hd), ofDigits_septets]

theorem marked_testBit {ds : List Nat} (h : ∀ d ∈ ds, d < 128) {i : Nat} {b : UInt8}
    (hb : (marked ds)[i]? = some b) : b.toNat.testBit 7 = true ↔ i + 1 < ds.length := by
  rw [testBit_seven, decide_eq_true_iff]
  induction ds generalizing i with
  | nil => cases hb
  | cons d ds ih =>
    have hd : d < 128 := h d List.mem_cons_self
    by_cases hds : ds = []
    · subst hds
      cases i with
      | zero =>
        obtain rfl : UInt8.ofNat d = b := Option.some.inj hb
        simp only [UInt8.toNat_ofNat', List.length_singleton]
        omega
      | succ i => cases hb
    · rw [marked_cons d hds] at hb
      cases i with
      | zero =>
        obtain rfl : UInt8.ofNat (128 + d) = b := Option.some.inj hb
        have hpos : 0 < ds.length := List.length_pos_of_ne_nil hds
        simp only [UInt8.toNat_ofNat', List.length_cons]
        omega
      | succ i =>
        rw [List.getElem?_cons_succ] at hb
        rw [ih (fun e he => h e (List.mem_cons_of_mem d he)) hb, List.length_cons]
        omega

/-- A number that fewer digits could hold has fewer digits. -/
theorem length_septets_le {n k : Nat} (hk : 0 < k) (h : n < 128 ^ k) : (septets n).length ≤ k := by
  unfold septets
  split
  · exact hk
  · exact (Nat.digits_length_le_iff (by decide) n).mpr h

/-- The code of an integer is its bytes in base 128. -/
theorem isBase128_code (v : UInt32) : IsBase128 v.toNat (code v) where
  ne_nil := by
    intro hnil
    have hlength := congrArg List.length hnil
    rw [code, length_marked] at hlength
    exact septets_ne_nil _ (List.eq_nil_of_length_eq_zero hlength)
  worth := worth_code v
  marked i b hb := by
    rw [code, length_marked]
    exact marked_testBit (fun _ hd => septets_lt hd) hb
  least other hne hworth := by
    rw [code, length_marked]
    apply length_septets_le (List.length_pos_of_ne_nil hne)
    rw [← hworth]
    exact worth_lt other

/-! ## Reading any bytes -/

theorem lastPlace_of_lt {z : Nat → UInt8} {p : Nat} (h : (z p).toNat < 128) (count : Nat) :
    lastPlace z count p = 0 := by
  have hclear : (!(z (p + 0)).toNat.testBit 7) = true := by
    rw [Nat.add_zero, testBit_seven, decide_eq_false (Nat.not_le.mpr h), Bool.not_false]
  rw [lastPlace, List.range_succ_eq_map, List.find?_cons, hclear]
  rfl

theorem lastPlace_of_le {z : Nat → UInt8} {p : Nat} (h : 128 ≤ (z p).toNat) (count : Nat) :
    lastPlace z (count + 1) p = lastPlace z count (p + 1) + 1 := by
  have hset : (!(z (p + 0)).toNat.testBit 7) = false := by
    rw [Nat.add_zero, testBit_seven, decide_eq_true h, Bool.not_true]
  -- the bytes behind the first are counted from one further on
  have hshift : (fun i => !(z (p + i)).toNat.testBit 7) ∘ Nat.succ
      = fun i => !(z (p + 1 + i)).toNat.testBit 7 := by
    funext i
    show (!(z (p + (i + 1))).toNat.testBit 7) = _
    rw [Nat.add_comm i 1, Nat.add_assoc]
  rw [lastPlace, List.range_succ_eq_map, List.find?_cons, hset, List.find?_map, hshift, lastPlace]
  cases (List.range (count + 1)).find? (fun i => !(z (p + 1 + i)).toNat.testBit 7) <;> rfl

/-- The bytes that are taken are those up to the last place. -/
theorem taken_eq_map (z : Nat → UInt8) (count p : Nat) :
    taken z (count + 1) p = (List.range (lastPlace z count p + 1)).map (fun i => z (p + i)) := by
  induction count generalizing p with
  | zero =>
    have hzero : lastPlace z 0 p = 0 := by
      rw [lastPlace]
      cases h : (List.range (0 + 1)).find? (fun i => !(z (p + i)).toNat.testBit 7) with
      | none => rfl
      | some i => simpa using List.mem_of_find?_eq_some h
    rw [hzero, taken]
    split <;> rfl
  | succ count ih =>
    rw [taken]
    split
    · next hlast =>
      rw [lastPlace_of_lt hlast]
      rfl
    · next hmore =>
      rw [lastPlace_of_le (Nat.not_lt.mp hmore), List.range_succ_eq_map, List.map_cons, List.map_map,
        ih]
      simp only [Function.comp_def, Nat.succ_eq_add_one, Nat.add_zero, Nat.add_assoc, Nat.add_comm 1]

theorem worth_map_range (z : Nat → UInt8) (p n : Nat) :
    worth ((List.range n).map (fun i => z (p + i)))
      = ∑ i ∈ Finset.range n, (z (p + i)).toNat % 128 * 2 ^ (7 * i) := by
  induction n with
  | zero => rfl
  | succ n ih =>
    have hpow : 128 ^ n = 2 ^ (7 * n) := by rw [Nat.pow_mul]
    rw [Finset.sum_range_succ, ← ih, List.range_succ]
    simp [worth, Nat.ofDigits_append, hpow, Nat.mul_comm]

/-- A read adds up digits until bit 7 is clear, or five bytes are read. -/
theorem decode_eq_digitsAt (z : Nat → UInt8) (p : Nat) : decode z p = digitsAt z p := by
  rw [decode, taken_eq_map, worth_map_range, List.length_map, List.length_range]
  rfl

/-! ## Lists of integers and runs -/

/-- Integers one after the other are bytes one after the other, as bits too. -/
theorem flatMap_ofBytes_code (vs : List UInt32) :
    vs.flatMap (fun v => ofBytes (code v)) = ofBytes (vs.flatMap code) := List.flatMap_assoc.symm

theorem bytes_writeInts {w : Writer} (h : w.Sound) (vs : List UInt32) :
    (vs.foldlM IntWriter.writeInt w).value.buffer.bytes.toList
      = w.buffer.bytes.toList ++ vs.flatMap code := by
  induction vs generalizing w with
  | nil => exact (List.append_nil _).symm
  | cons v vs ih =>
    obtain ⟨hsound, hbytes⟩ := Writer.bytes_writeInt h v
    have hrest := ih hsound
    rw [hbytes] at hrest
    rw [List.flatMap_cons, ← List.append_assoc, ← hrest]
    rfl

namespace Reader

theorem eq_ofBytes {data : Array UInt8} {r : Reader} (h : r.Sound data) :
    r = ofBytes data r.position := by
  cases h
  rfl

/-- Readers follow the sums of digits. -/
theorem follows (data : Array UInt8) :
    Follows (digitsAtBit (endlessBytes data)) (Reader.Sound data) (fun r => 8 * r.position) where
  readInt r h := by
    obtain ⟨hsound, hdecode⟩ := readInt_spec h
    refine ⟨hsound, ?_⟩
    rw [digitsAtBit, Nat.mul_div_cancel_left _ (by decide), ← decode_eq_digitsAt, hdecode]
    rfl
  seek _ _ h := ⟨h, rfl⟩
  position r _ := (Nat.mul_div_cancel_left r.position (by decide)).symm

/-- The bytes of integers are read back among any others. -/
theorem readInts_code (vs : List UInt32) (pre post : Array UInt8) :
    IntReader.readInts (ofBytes (pre ++ (vs.flatMap code).toArray ++ post) pre.size) vs.length
      = (vs, ofBytes (pre ++ (vs.flatMap code).toArray ++ post)
          (pre.size + (vs.flatMap code).length)) := by
  have hlies := liesAt_bytes pre post (vs.flatMap code)
  rw [← flatMap_ofBytes_code] at hlies
  obtain ⟨hsound, hread, hcursor⟩ := (recalls _).readInts (r := ofBytes _ pre.size) rfl hlies
  rw [flatMap_ofBytes_code, length_ofBytes] at hcursor
  have hposition := Nat.mul_left_cancel (by decide) (hcursor.trans (Nat.mul_add 8 _ _).symm)
  rw [eq_ofBytes hsound] at hposition
  refine Prod.ext hread ?_
  rw [eq_ofBytes hsound]
  exact congrArg (ofBytes _) hposition

end Reader

/-- Integers put on a fresh stream leave their bytes in base 128, one after the other.
Whatever bytes a reader is over and however it moves, it reads the sums of digits at
its places. And among any other bytes, the bytes of integers are read back as those
integers, and no further. -/
theorem base128_both_ways (capacity : Nat) (vs : List UInt32) (data : Array UInt8)
    (position : Nat) (moves : List Move) (pre post : Array UInt8) :
    (IntWriter.bytes (vs.foldlM IntWriter.writeInt (Writer.ofCapacity capacity)).value).toList
        = vs.flatMap code
      ∧ (∀ v, IsBase128 v.toNat (code v))
      ∧ ((Move.run (Reader.ofBytes data position) moves).1,
          8 * (Move.run (Reader.ofBytes data position) moves).2.position)
        = Move.runOnCursor (digitsAtBit (endlessBytes data)) (8 * position) moves
      ∧ IntReader.readInts
          (Reader.ofBytes (pre ++ (vs.flatMap code).toArray ++ post) pre.size) vs.length
        = (vs, Reader.ofBytes (pre ++ (vs.flatMap code).toArray ++ post)
            (pre.size + (vs.flatMap code).length)) := by
  have hempty : (Writer.ofCapacity capacity).buffer.bytes.toList = [] :=
    Buffer.bytes_ofCapacity capacity
  have hbytes := bytes_writeInts (Writer.sound_ofCapacity capacity) vs
  rw [hempty, List.nil_append] at hbytes
  refine ⟨hbytes, isBase128_code, ?_, Reader.readInts_code vs pre post⟩
  exact ((Reader.follows data).run (r := Reader.ofBytes data position) rfl moves).2.symm

end ValueStream.Dense
