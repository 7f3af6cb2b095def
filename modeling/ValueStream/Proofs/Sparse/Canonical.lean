import ValueStream.Proofs.Digits
import ValueStream.Proofs.Sparse.Reader

/-!
Which bits the sparse writer could have written.

A reader takes the bit 0 for zero, and otherwise tokens of which all but the last
have the tag 11 (`taken_cases`). An integer may be spelled in many ways: with zero
groups before the first one that counts, with any of three tags at the end, or
with six tokens that all have the tag 11, and from six groups the upper bits of
the first are lost. The shortest is the code (`bitLength_le`), and what is taken is
the code just where none of this happens (`eq_code_iff`).
-/

namespace ValueStream.Sparse

open Bits

/-- The two bits with which the last token begins. -/
def lastTag (bits : List Bool) : List Bool := (bits.drop (bits.length - 8)).take 2

/-- The group of the first token. -/
def firstGroup (bits : List Bool) : Nat := toNat ((bits.drop 2).take 6)

/-- The bit 0, or tokens that end with the tag 10 and begin with a group that is not zero and,
if there are six of them, is at most 3. -/
def IsCanonical (bits : List Bool) : Prop :=
  bits = [false]
    ∨ lastTag bits = [true, false] ∧ firstGroup bits ≠ 0 ∧ (bits.length = 48 → firstGroup bits ≤ 3)

instance (bits : List Bool) : Decidable (IsCanonical bits) :=
  inferInstanceAs (Decidable (_ ∨ _))

/-- The bits that are taken for the integer at a place. -/
def taken (z : Nat → Bool) (c : Nat) : List Bool := window z c ((decode z c).2 - c)

/-! ## Tokens with any tag at the end -/

/-- Tokens with groups, the first of them first, and the tag 11 on all but the last. -/
def spelled (tag : List Bool) : List Nat → List Bool
  | [] => []
  | [g] => tag ++ ofNat 6 g
  | g :: gs => tokenBits true g ++ spelled tag gs

theorem spelled_cons (tag : List Bool) (g : Nat) {gs : List Nat} (h : gs ≠ []) :
    spelled tag (g :: gs) = tokenBits true g ++ spelled tag gs := by
  cases gs with
  | nil => exact absurd rfl h
  | cons g' gs => rfl

theorem spelled_concat (tag : List Bool) (us : List Nat) (last : Nat) :
    spelled tag (us ++ [last]) = us.flatMap (tokenBits true) ++ (tag ++ ofNat 6 last) := by
  induction us with
  | nil => rfl
  | cons u us ih =>
    rw [List.cons_append, spelled_cons tag u (by simp), ih, List.flatMap_cons, List.append_assoc]

/-- The code of an integer other than zero spells its digits. -/
theorem code_eq_spelled {v : UInt32} (h : v ≠ 0) :
    code v = spelled [true, false] (Nat.digits 64 v.toNat).reverse := by
  rw [code_of_digits (digits_eq_cons h), digits_eq_cons h, List.reverse_cons, spelled_concat]
  rfl

section

variable {tag : List Bool} (htag : tag.length = 2)

include htag

theorem length_spelled (gs : List Nat) : (spelled tag gs).length = 8 * gs.length := by
  fun_induction spelled tag gs with
  | case1 => rfl
  | case2 g => rw [List.length_append, htag, length_ofNat]; rfl
  | case3 g gs _ ih => rw [List.length_append, length_tokenBits, ih, List.length_cons]; omega

theorem firstGroup_spelled {g : Nat} (hg : g < 64) (gs : List Nat) :
    firstGroup (spelled tag (g :: gs)) = g := by
  have hfront : ∃ front rest, front.length = 2 ∧ spelled tag (g :: gs) = front ++ ofNat 6 g ++ rest := by
    cases gs with
    | nil => exact ⟨tag, [], htag, (List.append_nil _).symm⟩
    | cons g' gs => exact ⟨[true, true], spelled tag (g' :: gs), rfl, rfl⟩
  obtain ⟨front, rest, hfront, hbits⟩ := hfront
  rw [firstGroup, hbits, List.append_assoc, List.drop_left' hfront,
    List.take_left' (length_ofNat 6 g), toNat_ofNat]
  exact Nat.mod_eq_of_lt hg

theorem lastTag_spelled (g : Nat) (gs : List Nat) : lastTag (spelled tag (g :: gs)) = tag := by
  obtain ⟨us, last, hsplit⟩ : ∃ us last, g :: gs = us ++ [last] :=
    ⟨_, _, (List.dropLast_append_getLast (List.cons_ne_nil g gs)).symm⟩
  have hlast : (spelled tag (g :: gs)).length - 8 = (us.flatMap (tokenBits true)).length := by
    rw [length_spelled htag, length_flatMap_tokenBits, hsplit, List.length_append,
      List.length_singleton]
    omega
  rw [lastTag, hlast, hsplit, spelled_concat, List.drop_left, List.take_left' htag]

/-- Tokens are canonical by their last tag and their first group. -/
theorem isCanonical_spelled_iff {g : Nat} (hg : g < 64) (gs : List Nat) :
    IsCanonical (spelled tag (g :: gs))
      ↔ tag = [true, false] ∧ g ≠ 0 ∧ (gs.length = 5 → g ≤ 3) := by
  have hlength := length_spelled htag (g :: gs)
  have hzero : spelled tag (g :: gs) ≠ [false] := by
    intro h
    rw [h, List.length_singleton, List.length_cons] at hlength
    omega
  have hsix : (spelled tag (g :: gs)).length = 48 ↔ gs.length = 5 := by
    rw [hlength, List.length_cons]
    omega
  rw [IsCanonical, firstGroup_spelled htag hg, lastTag_spelled htag, hsix, or_iff_right hzero]

end

/-! ## What is taken -/

/-- A window of eight bits is a tag and a group. -/
theorem exists_window_eq (z : Nat → Bool) (c : Nat) :
    ∃ t u, t.length = 2 ∧ u < 64 ∧ window z c 8 = t ++ ofNat 6 u := by
  have hgroup : ((window z c 8).drop 2).length = 6 := by rw [List.length_drop, length_window]
  have hback := ofNat_toNat ((window z c 8).drop 2)
  have hlt := toNat_lt ((window z c 8).drop 2)
  rw [hgroup] at hback hlt
  refine ⟨(window z c 8).take 2, _, ?_, hlt, ?_⟩
  · rw [List.length_take, length_window]
    rfl
  · rw [hback, List.take_append_drop]

/-- The first window is the only one, or it has the tag 11 and there may be more. -/
theorem windows_cases (z : Nat → Bool) (count c : Nat) :
    windows z (count + 1) c = [window z c 8]
      ∨ ∃ n, count = n + 1 ∧ (window z c 8).take 2 = [true, true]
        ∧ windows z (count + 1) c = window z c 8 :: windows z (n + 1) (c + 8) := by
  rw [windows]
  split
  · next htag =>
    cases count with
    | zero => exact Or.inl rfl
    | succ n => exact Or.inr ⟨n, rfl, htag, rfl⟩
  · exact Or.inl rfl

/-- The windows of one integer are tokens with some tag at the end. -/
theorem windows_spelled (z : Nat → Bool) (count c : Nat) :
    ∃ tag g gs, tag.length = 2 ∧ (∀ u ∈ g :: gs, u < 64) ∧ gs.length ≤ count
      ∧ (windows z (count + 1) c).length = gs.length + 1
      ∧ groups (windows z (count + 1) c) = (g :: gs).flatMap (ofNat 6)
      ∧ window z c (8 * (gs.length + 1)) = spelled tag (g :: gs) := by
  induction count using Nat.strong_induction_on generalizing c with
  | _ count ih =>
    obtain ⟨t, u, ht, hu, hwindow⟩ := exists_window_eq z c
    rcases windows_cases z count c with hone | ⟨n, rfl, htag, hmore⟩
    · refine ⟨t, u, [], ht, List.forall_mem_singleton.mpr hu, Nat.zero_le _, ?_, ?_, hwindow⟩
      · rw [hone]
        rfl
      · rw [hone, groups, hwindow, List.flatMap_singleton, List.drop_left' ht,
          List.flatMap_singleton]
    · -- the reader goes on behind a tag 11 only, so all tags but the last are known
      rw [hwindow, List.take_left' ht] at htag
      subst htag
      obtain ⟨tag, g, gs, hlength, hlt, hcount, hwindows, hgroups, hspelled⟩ :=
        ih n (Nat.lt_succ_self n) (c + 8)
      refine ⟨tag, u, g :: gs, hlength, List.forall_mem_cons.mpr ⟨hu, hlt⟩,
        Nat.succ_le_succ hcount, ?_, ?_, ?_⟩
      · rw [hmore, List.length_cons, hwindows, List.length_cons]
      · rw [hmore, groups, List.flatMap_cons, ← groups, hgroups, hwindow]
        rfl
      · rw [List.length_cons, Nat.mul_succ, Nat.add_comm, window_add, hwindow, hspelled]
        rfl

/-- What is taken is the bit 0, or up to six tokens for the number that their groups make. -/
theorem taken_cases (z : Nat → Bool) (c : Nat) :
    (taken z c = [false] ∧ (decode z c).1 = 0)
      ∨ ∃ tag g gs, tag.length = 2 ∧ (∀ u ∈ g :: gs, u < 64) ∧ gs.length ≤ 5
        ∧ taken z c = spelled tag (g :: gs)
        ∧ (decode z c).1 = UInt32.ofNat (Nat.ofDigits 64 (gs.reverse ++ [g])) := by
  unfold taken decode
  cases hbit : z c with
  | false =>
    left
    rw [if_neg Bool.false_ne_true, Nat.add_sub_cancel_left, window_succ, hbit]
    exact ⟨rfl, rfl⟩
  | true =>
    right
    obtain ⟨tag, g, gs, htag, hlt, hcount, hlength, hgroups, hspelled⟩ := windows_spelled z 5 c
    rw [if_pos rfl, Nat.add_sub_cancel_left, hlength, hgroups]
    refine ⟨tag, g, gs, htag, hlt, hcount, hspelled, ?_⟩
    have hvalue := toNat_digits (fun d hd => hlt d (List.mem_reverse.mp hd))
    rw [List.reverse_reverse, List.reverse_cons] at hvalue
    rw [hvalue]

/-- No integer can be taken from fewer bits than its code has. -/
theorem bitLength_le (z : Nat → Bool) (c : Nat) :
    bitLength (decode z c).1 ≤ (taken z c).length := by
  rw [← length_code]
  rcases taken_cases z c with ⟨hbits, hvalue⟩ | ⟨tag, g, gs, htag, hlt, -, hbits, hvalue⟩
  · rw [hbits, hvalue, code_zero]
  · have hdigits := length_digits_ofNat_le (b := 64) (by decide)
      (fun d hd => hlt d (List.mem_reverse.mp hd))
    rw [List.reverse_cons, ← hvalue, ← List.reverse_cons, List.length_reverse] at hdigits
    rw [hbits, length_spelled htag]
    by_cases hzero : (decode z c).1 = 0
    · rw [hzero, code_zero, List.length_singleton, List.length_cons]
      omega
    · rw [code_eq_spelled hzero, length_spelled rfl, List.length_reverse]
      exact Nat.mul_le_mul_left 8 hdigits

/-- The groups of a word that they make are its digits, unless the first of them is zero or,
of six, more than 3. -/
theorem digits_groups_iff {g : Nat} {gs : List Nat} (hlt : ∀ u ∈ g :: gs, u < 64)
    (hcount : gs.length ≤ 5) :
    Nat.digits 64 (UInt32.ofNat (Nat.ofDigits 64 (gs.reverse ++ [g]))).toNat = gs.reverse ++ [g]
      ↔ g ≠ 0 ∧ (gs.length = 5 → g ≤ 3) := by
  obtain ⟨hg, hgs⟩ := List.forall_mem_cons.mp hlt
  rw [← List.length_reverse] at hcount ⊢
  exact digits_ofNat_iff (by decide) (by decide) (fun d hd => hgs d (List.mem_reverse.mp hd)) hg
    hcount

theorem isCanonical_code (v : UInt32) : IsCanonical (code v) := by
  by_cases hv : v = 0
  · left
    rw [hv, code_zero]
  · obtain ⟨g, gs, hgroups⟩ : ∃ g gs, (Nat.digits 64 v.toNat).reverse = g :: gs := by
      rw [digits_eq_cons hv, List.reverse_cons]
      exact List.exists_cons_of_ne_nil (by simp)
    have hdigits : Nat.digits 64 v.toNat = gs.reverse ++ [g] := by
      rw [← List.reverse_cons, ← hgroups, List.reverse_reverse]
    have hlt : ∀ u ∈ g :: gs, u < 64 := by
      intro u hu
      rw [← hgroups, List.mem_reverse] at hu
      exact Nat.digits_lt_base (by decide) hu
    have hcount : gs.length ≤ 5 := by
      have hsix := length_digits_le v
      rw [hdigits, List.length_append, List.length_reverse] at hsix
      exact Nat.le_of_succ_le_succ hsix
    have hfirst := digits_groups_iff hlt hcount
    rw [← hdigits, Nat.ofDigits_digits, UInt32.ofNat_toNat] at hfirst
    rw [code_eq_spelled hv, hgroups, isCanonical_spelled_iff rfl (hlt g List.mem_cons_self)]
    exact ⟨rfl, hfirst.mp rfl⟩

/-- What is taken is the code of what it stands for just where it is canonical. -/
theorem eq_code_iff (z : Nat → Bool) (c : Nat) :
    taken z c = code (decode z c).1 ↔ IsCanonical (taken z c) := by
  constructor
  · intro h
    rw [h]
    exact isCanonical_code _
  · intro h
    rcases taken_cases z c with ⟨hbits, hvalue⟩ | ⟨tag, g, gs, htag, hlt, hcount, hbits, hvalue⟩
    · rw [hbits, hvalue, code_zero]
    · rw [hbits, isCanonical_spelled_iff htag (hlt g List.mem_cons_self)] at h
      obtain ⟨rfl, hfirst⟩ := h
      have hdigits := (digits_groups_iff hlt hcount).mpr hfirst
      rw [← hvalue] at hdigits
      have hne : (decode z c).1 ≠ 0 := by
        intro hzero
        rw [hzero, UInt32.toNat_zero, Nat.digits_zero] at hdigits
        exact List.append_ne_nil_of_right_ne_nil gs.reverse (List.cons_ne_nil g []) hdigits.symm
      rw [hbits, code_eq_spelled hne, hdigits, List.reverse_append, List.reverse_reverse]
      rfl

end ValueStream.Sparse
