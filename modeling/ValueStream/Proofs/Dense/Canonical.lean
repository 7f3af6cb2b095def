import ValueStream.Proofs.Dense.Base128
import ValueStream.Proofs.Digits

/-!
Which bytes the dense writer could have written.

A reader takes bytes with the top bit set up to one with it clear, or a fifth
whatever it is (`taken_concat`). An integer may be spelled with zeros above its
digits, without an end, or with bits in the fifth byte that are lost. The shortest
is the code (`byteLength_le`), and what is taken is the code just where the last
byte shows nothing of this (`eq_code_iff`).
-/

namespace ValueStream.Dense

/-- The last byte has its top bit clear, is not zero behind others, and as the fifth is at
most 15. -/
def IsCanonical (bytes : List UInt8) : Prop :=
  ∃ last ∈ bytes.getLast?, last.toNat < 128 ∧ (bytes.length ≠ 1 → last ≠ 0)
    ∧ (bytes.length = 5 → last.toNat ≤ 0x0F)

instance (bytes : List UInt8) : Decidable (IsCanonical bytes) :=
  inferInstanceAs (Decidable (∃ last ∈ bytes.getLast?, _))

theorem isCanonical_concat_iff (front : List UInt8) (last : UInt8) :
    IsCanonical (front ++ [last])
      ↔ last.toNat < 128 ∧ (front ≠ [] → last.toNat ≠ 0) ∧ (front.length = 4 → last.toNat ≤ 15) := by
  have hone : (front ++ [last]).length ≠ 1 ↔ front ≠ [] := by
    rw [List.length_append, List.length_singleton, ne_eq, Nat.add_eq_right, List.length_eq_zero_iff]
  have hfive : (front ++ [last]).length = 5 ↔ front.length = 4 := by
    rw [List.length_append, List.length_singleton, Nat.add_left_inj]
  have hzero : last ≠ 0 ↔ last.toNat ≠ 0 := not_congr UInt8.toNat_inj.symm
  rw [IsCanonical, List.getLast?_concat, hone, hfive]
  simp only [Option.mem_some_iff, exists_eq_left', hzero]

/-! ## Digits of a word -/

theorem marked_concat (low : List Nat) (top : Nat) :
    marked (low ++ [top]) = low.map (fun d => UInt8.ofNat (128 + d)) ++ [UInt8.ofNat top] := by
  induction low with
  | nil => rfl
  | cons d low ih =>
    rw [List.cons_append, marked_cons d (by simp), ih, List.map_cons, List.cons_append]

/-- The digits of the word that they make are those, unless the last of several is zero or,
of five, more than 15. -/
theorem septets_iff {low : List Nat} {top : Nat} (hlow : ∀ d ∈ low, d < 128) (htop : top < 128)
    (hcount : low.length ≤ 4) :
    septets (UInt32.ofNat (Nat.ofDigits 128 (low ++ [top]))).toNat = low ++ [top]
      ↔ (low ≠ [] → top ≠ 0) ∧ (low.length = 4 → top ≤ 15) := by
  by_cases hlone : low = []
  · subst hlone
    have hvalue : (UInt32.ofNat (Nat.ofDigits 128 ([] ++ [top]))).toNat = top := by
      rw [List.nil_append, Nat.ofDigits_singleton, UInt32.toNat_ofNat']
      exact Nat.mod_eq_of_lt (by omega)
    rw [hvalue, septets_of_lt htop]
    simp
  · have hword : 128 ^ 4 * (15 + 1) = 2 ^ 32 := by decide
    have hdigits := digits_ofNat_iff (by decide) hword hlow htop hcount
    generalize (UInt32.ofNat (Nat.ofDigits 128 (low ++ [top]))).toNat = n at hdigits ⊢
    -- zero has one digit here and none there, and there are two at least
    have hsame : septets n = low ++ [top] ↔ Nat.digits 128 n = low ++ [top] := by
      unfold septets
      split
      · next hzero =>
        have hlength : 1 < (low ++ [top]).length := by
          rw [List.length_append, List.length_singleton]
          have hpos := List.length_pos_of_ne_nil hlone
          omega
        rw [hzero, Nat.digits_zero]
        constructor
        · intro h
          rw [← h] at hlength
          exact absurd hlength (by decide)
        · intro h
          rw [← h] at hlength
          exact absurd hlength (by decide)
      · rfl
    rw [hsame, hdigits]
    simp only [ne_eq, hlone, not_false_eq_true, forall_const]

/-! ## What is taken -/

/-- What is taken is bytes with the top bit set, up to a byte with it clear or a fifth one. -/
theorem taken_concat (z : Nat → UInt8) (count p : Nat) :
    ∃ front last, taken z (count + 1) p = front ++ [last]
      ∧ (∀ b ∈ front, 128 ≤ b.toNat) ∧ front.length ≤ count := by
  induction count generalizing p with
  | zero =>
    have hone : taken z 1 p = [z p] := by
      rw [taken]
      split <;> rfl
    exact ⟨[], z p, hone, fun b hb => absurd hb List.not_mem_nil, Nat.le_refl 0⟩
  | succ count ih =>
    rw [taken]
    split
    · exact ⟨[], z p, rfl, fun b hb => absurd hb List.not_mem_nil, Nat.zero_le _⟩
    · next hmore =>
      obtain ⟨front, last, hrest, hset, hcount⟩ := ih (p + 1)
      refine ⟨z p :: front, last, by rw [hrest, List.cons_append], ?_, Nat.succ_le_succ hcount⟩
      exact List.forall_mem_cons.mpr ⟨Nat.not_lt.mp hmore, hset⟩

/-- No integer can be taken from fewer bytes than its code has. -/
theorem byteLength_le (z : Nat → UInt8) (p : Nat) :
    byteLength (decode z p).1 ≤ (taken z 5 p).length := by
  obtain ⟨front, last, hbytes, -, -⟩ := taken_concat z 4 p
  have hpos : 0 < (taken z 5 p).length := by
    rw [hbytes, List.length_append, List.length_singleton]
    exact Nat.succ_pos _
  rw [← length_code, code, length_marked]
  apply length_septets_le hpos
  rw [decode, UInt32.toNat_ofNat']
  exact Nat.lt_of_le_of_lt (Nat.mod_le _ _) (worth_lt _)

theorem isCanonical_code (v : UInt32) : IsCanonical (code v) := by
  obtain ⟨low, top, hsplit⟩ : ∃ low top, septets v.toNat = low ++ [top] :=
    ⟨_, _, (List.dropLast_append_getLast (septets_ne_nil v.toNat)).symm⟩
  have hlt : ∀ d ∈ low ++ [top], d < 128 := fun d hd => septets_lt (hsplit ▸ hd)
  have hlow : ∀ d ∈ low, d < 128 := fun d hd => hlt d (List.mem_append_left _ hd)
  have htop : top < 128 := hlt top (by simp)
  have hcount : low.length ≤ 4 := by
    have hfive := length_septets_word v
    rw [hsplit, List.length_append] at hfive
    exact Nat.le_of_succ_le_succ hfive
  have hlast := septets_iff hlow htop hcount
  rw [← hsplit, ofDigits_septets, UInt32.ofNat_toNat] at hlast
  have hbyte : (UInt8.ofNat top).toNat = top := by
    rw [UInt8.toNat_ofNat']
    exact Nat.mod_eq_of_lt (by omega)
  rw [code, hsplit, marked_concat, isCanonical_concat_iff, hbyte, List.length_map, ne_eq,
    List.map_eq_nil_iff]
  exact ⟨htop, hlast.mp rfl⟩

/-- Bytes that have the top bit set, up to the last, are marked digits. -/
theorem marked_digits {front : List UInt8} (hfront : ∀ b ∈ front, 128 ≤ b.toNat) (last : UInt8) :
    marked (front.map (fun b => b.toNat % 128) ++ [last.toNat]) = front ++ [last] := by
  rw [marked_concat, List.map_map, UInt8.ofNat_toNat]
  congr 1
  conv_rhs => rw [← List.map_id front]
  refine List.map_congr_left (fun b hb => UInt8.toNat_inj.mp ?_)
  have hset := hfront b hb
  have hlt := b.toNat_lt
  show (UInt8.ofNat (128 + b.toNat % 128)).toNat = b.toNat
  rw [UInt8.toNat_ofNat']
  omega

/-- What is taken is the code of what it stands for just where it is canonical. -/
theorem eq_code_iff (z : Nat → UInt8) (p : Nat) :
    taken z 5 p = code (decode z p).1 ↔ IsCanonical (taken z 5 p) := by
  constructor
  · intro h
    rw [h]
    exact isCanonical_code _
  · intro h
    obtain ⟨front, last, hbytes, hfront, hcount⟩ := taken_concat z 4 p
    rw [hbytes, isCanonical_concat_iff] at h
    obtain ⟨hlast, hcanonical⟩ := h
    have hlow : ∀ d ∈ front.map (fun b => b.toNat % 128), d < 128 := by
      intro d hd
      obtain ⟨b, -, rfl⟩ := List.mem_map.mp hd
      exact Nat.mod_lt _ (by decide)
    have hworth : worth (taken z 5 p)
        = Nat.ofDigits 128 (front.map (fun b => b.toNat % 128) ++ [last.toNat]) := by
      rw [hbytes, worth, List.map_append, List.map_singleton, Nat.mod_eq_of_lt hlast]
    have hseptets := septets_iff hlow hlast (by rw [List.length_map]; exact hcount)
    rw [List.length_map, ne_eq, List.map_eq_nil_iff, ← hworth] at hseptets
    rw [code, decode, hseptets.mpr hcanonical, marked_digits hfront, hbytes]

end ValueStream.Dense
