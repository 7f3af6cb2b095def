import Mathlib.Data.Nat.Digits.Defs
import Mathlib.Data.Nat.Digits.Lemmas
import ValueStream.Proofs.Bits
import ValueStream.Sparse.Token

/-!
The sparse code of an integer as a bit list.

`code` is stated on the base 64 digits of the number, with no shift and no
mask in it: zero is the bit 0, and any other number has one token for each
digit, the most significant first, tag 11 on all but the last. The tokens that
the writer computes spell it (`code_eq_tokens`), and its length is the number
of bits the codec accounts for (`length_code`).
-/

namespace ValueStream.Sparse

open Bits

/-- The bits of a token: the tag, which says whether more tokens follow, and a group. -/
def tokenBits (more : Bool) (group : Nat) : List Bool := true :: more :: ofNat 6 group

/-- The code of an integer: a token for each significant group of six bits. -/
def code (v : UInt32) : List Bool :=
  match Nat.digits 64 v.toNat with
  | [] => [false]
  | last :: upper => upper.reverse.flatMap (tokenBits true) ++ tokenBits false last

@[simp] theorem length_tokenBits (more : Bool) (group : Nat) : (tokenBits more group).length = 8 := by
  simp [tokenBits]

theorem length_flatMap_tokenBits (more : Bool) (us : List Nat) :
    (us.flatMap (tokenBits more)).length = 8 * us.length := by
  induction us with
  | nil => rfl
  | cons u us ih =>
    rw [List.flatMap_cons, List.length_append, length_tokenBits, ih, List.length_cons]
    omega

theorem code_zero : code 0 = [false] := by simp [code]

theorem code_of_digits {v : UInt32} {last : Nat} {upper : List Nat}
    (h : Nat.digits 64 v.toNat = last :: upper) :
    code v = upper.reverse.flatMap (tokenBits true) ++ tokenBits false last := by
  simp only [code, h]

/-- The digits of an integer other than zero: its lowest group, and the groups above. -/
theorem digits_eq_cons {v : UInt32} (h : v ≠ 0) :
    Nat.digits 64 v.toNat = v.toNat % 64 :: Nat.digits 64 (v.toNat / 64) :=
  Nat.digits_eq_cons_digits_div (by decide) (fun hz => h (UInt32.toNat_inj.mp hz))

/-- Six digits are enough for a word. -/
theorem length_digits_le (v : UInt32) : (Nat.digits 64 v.toNat).length ≤ 6 :=
  (Nat.digits_length_le_iff (by decide) _).mpr (Nat.lt_trans v.toNat_lt (by decide))

/-! ## Tokens -/

theorem toNat_tag_or (k : Nat) {g : Nat} (hg : g < 64) : (64 * k) ||| g = 64 * k + g :=
  (Nat.two_pow_add_eq_or_of_lt (i := 6) hg k).symm

theorem toNat_group (w : UInt32) : (w &&& dataMask).toUInt8.toNat = w.toNat % 64 := by
  have hmask : (w &&& dataMask).toNat = w.toNat % 64 := Nat.and_two_pow_sub_one_eq_mod w.toNat 6
  rw [UInt32.toNat_toUInt8, hmask]
  omega

/-- A token in bits, for either tag. -/
theorem ofByte_tagged (more : Bool) (w : UInt32) :
    ofByte ((if more then continuationTag else terminalTag) ||| (w &&& dataMask).toUInt8)
      = tokenBits more (w.toNat % 64) := by
  have hg : w.toNat % 64 < 2 ^ 6 := Nat.mod_lt _ (by decide)
  cases more with
  | true =>
    have hsum := toNat_tag_or 3 hg
    have happ := ofNat_append 2 6 3 (w.toNat % 64) hg
    simp only [ofByte, if_true, UInt8.toNat_or, toNat_group]
    exact (congrArg (ofNat 8) hsum).trans happ.symm
  | false =>
    have hsum := toNat_tag_or 2 hg
    have happ := ofNat_append 2 6 2 (w.toNat % 64) hg
    simp only [ofByte, Bool.false_eq_true, if_false, UInt8.toNat_or, toNat_group]
    exact (congrArg (ofNat 8) hsum).trans happ.symm

theorem toNat_fromGroup (v i : UInt32) (hi : i.toNat ≤ 5) :
    (fromGroup v i).toNat = v.toNat / 64 ^ i.toNat := by
  have hshift : (dataBits * i).toNat = 6 * i.toNat := by
    have h6 : dataBits.toNat = 6 := rfl
    rw [UInt32.toNat_mul, h6]
    exact Nat.mod_eq_of_lt (by omega)
  rw [fromGroup, UInt32.toNat_shiftRight, hshift, Nat.mod_eq_of_lt (by omega),
    Nat.shiftRight_eq_div_pow, Nat.pow_mul]

/-- Filtering out the groups above the number leaves its digits but the lowest. -/
theorem upper_digits (k n : Nat) (h : n < 64 ^ (k + 1)) :
    (((List.range k).map Nat.succ).reverse.filter (fun i => n / 64 ^ i ≠ 0)).map
      (fun i => n / 64 ^ i % 64) = (Nat.digits 64 (n / 64)).reverse := by
  induction k generalizing n with
  | zero =>
    have hz : n / 64 = 0 := Nat.div_eq_of_lt h
    rw [hz]
    rfl
  | succ k ih =>
    -- the lowest of the groups is digit one; the others are the upper groups of the quotient
    have hlt : n / 64 < 64 ^ (k + 1) := Nat.div_lt_of_lt_mul (by rw [Nat.pow_succ] at h; omega)
    have hdiv : ∀ i, n / 64 ^ (i + 1) = n / 64 / 64 ^ i := fun i => by
      rw [Nat.pow_succ, Nat.mul_comm, Nat.div_div_eq_div_mul]
    have hih := ih (n / 64) hlt
    rw [List.range_succ_eq_map, List.map_cons, List.reverse_cons, List.filter_append,
      List.map_append, List.map_map, ← List.map_map, ← List.map_reverse, List.filter_map,
      List.map_map]
    simp only [Function.comp_def, Nat.succ_eq_add_one, hdiv] at hih ⊢
    rw [hih]
    by_cases hz : n / 64 = 0
    · rw [List.filter_cons_of_neg (by rw [Nat.zero_add, Nat.pow_one, hz]; decide), hz]
      rfl
    · rw [List.filter_cons_of_pos (by rw [Nat.zero_add, Nat.pow_one]; exact decide_eq_true hz),
        Nat.digits_eq_cons_digits_div (by decide) hz, List.reverse_cons]
      rfl

/-- The groups that get a continuation token are the digits above the lowest. -/
theorem upperGroups_digits (v : UInt32) :
    (upperGroups.filter (fun i => fromGroup v i ≠ 0)).map (fun i => (fromGroup v i).toNat % 64)
      = (Nat.digits 64 (v.toNat / 64)).reverse := by
  have hlt : v.toNat < 64 ^ (5 + 1) := Nat.lt_trans v.toNat_lt (by decide)
  have hgroups : ∀ i ∈ upperGroups, (fromGroup v i).toNat = v.toNat / 64 ^ i.toNat := by
    intro i hi
    apply toNat_fromGroup
    simp only [upperGroups, List.mem_cons, List.not_mem_nil, or_false] at hi
    rcases hi with rfl | rfl | rfl | rfl | rfl <;> decide
  have hnat : ((List.range 5).map Nat.succ).reverse = upperGroups.map UInt32.toNat := by decide
  rw [← upper_digits 5 v.toNat hlt, hnat, List.filter_map, List.map_map]
  have hfilter : upperGroups.filter (fun i => fromGroup v i ≠ 0)
      = upperGroups.filter ((fun i => decide (v.toNat / 64 ^ i ≠ 0)) ∘ UInt32.toNat) := by
    refine List.filter_congr (fun i hi => ?_)
    rw [Function.comp_apply, ← hgroups i hi]
    simp [← UInt32.toNat_inj]
  rw [hfilter]
  refine List.map_congr_left (fun i hi => ?_)
  rw [Function.comp_apply, hgroups i (List.mem_of_mem_filter hi)]

/-- The tokens that are written spell the code. -/
theorem code_eq_tokens {v : UInt32} (h : v ≠ 0) : code v = ofBytes (tokens v) := by
  have hupper : ofBytes ((upperGroups.filter (fun i => fromGroup v i ≠ 0)).map
      (token continuationTag v)) = (Nat.digits 64 (v.toNat / 64)).reverse.flatMap (tokenBits true) := by
    rw [← upperGroups_digits, ofBytes, List.flatMap_map, List.flatMap_map]
    exact List.flatMap_congr (fun i _ => ofByte_tagged true (fromGroup v i))
  have hlast : ofByte (token terminalTag v 0) = tokenBits false (v.toNat % 64) := by
    have hv : fromGroup v 0 = v := UInt32.toNat_inj.mp ((toNat_fromGroup v 0 (by decide)).trans (by simp))
    exact (ofByte_tagged false (fromGroup v 0)).trans (by rw [hv])
  rw [code_of_digits (digits_eq_cons h), tokens, ofBytes_append, hupper, ofBytes_cons, hlast,
    ofBytes_nil, List.append_nil]

/-! ## Length -/

/-- The code is as long as the codec accounts for. -/
theorem length_code (v : UInt32) : (code v).length = bitLength v := by
  by_cases h : v = 0
  · subst h
    rw [code_zero]
    rfl
  · have hne : v.toNat ≠ 0 := fun hz => h (UInt32.toNat_inj.mp hz)
    have hlog : Nat.log 64 v.toNat = Nat.log2 v.toNat / 6 := by
      rw [Nat.log2_eq_log_two]
      exact Nat.log_pow_left 2 6 v.toNat
    have hdigits : (Nat.digits 64 v.toNat).length = Nat.log 64 v.toNat + 1 :=
      Nat.length_digits 64 v.toNat (by decide) hne
    rw [digits_eq_cons h, List.length_cons] at hdigits
    have hcode : (code v).length = 8 * ((Nat.digits 64 (v.toNat / 64)).length + 1) := by
      rw [code_of_digits (digits_eq_cons h), List.length_append, length_tokenBits,
        length_flatMap_tokenBits, List.length_reverse, Nat.mul_succ]
    rw [hcode, hdigits, hlog, bitLength, if_neg h, significantBits, if_neg h]
    omega

end ValueStream.Sparse
