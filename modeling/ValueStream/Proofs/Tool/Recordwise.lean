import ValueStream.Proofs.Tool.Generate

/-!
Files of records that are scopes, one record after the other.

Behind every scope the stream is at a byte, so the bytes of a file are those of
its records, each encoded by itself (`toList_encode_scoped`). Without scopes
only the last byte is filled up (`toList_encode_unscoped`). What the scopes cost
is then a matter of rounding: every record is rounded up to bytes, instead of
all of them together (`sum_rounded`).
-/

namespace ValueStream.Tool.Generate

open Bits Trace Traced

/-- The codes of the values of a record. -/
def codes (c : Codec) (r : List Value) : List Bool := (Value.intsOf r).flatMap c.code

theorem length_codes (c : Codec) (r : List Value) : (codes c r).length = c.bitsOf r :=
  c.length_flatMap_code _

/-- The codes of a scope are those of its values, up to a byte boundary. -/
theorem flatMap_code_intsOf_scoped (c : Codec) (rs : List (List Value)) :
    (intsOf c true rs).flatMap c.code = rs.flatMap (fun r => pad (codes c r)) := by
  induction rs with
  | nil => rfl
  | cons r rs ih =>
    have hpad : (Value.intsOf r ++ List.replicate (padding (c.bitsOf r)) 0).flatMap c.code
        = pad (codes c r) := by
      rw [List.flatMap_append, Codec.bitsOf, c.flatMap_code_padding, pad, length_codes,
        Codec.bitsOf, codes]
    rw [intsOf_cons, if_pos rfl, List.flatMap_append, hpad, ih, List.flatMap_cons]

theorem wholeBytes_flatMap_pad (c : Codec) (rs : List (List Value)) :
    wholeBytes (pad (rs.flatMap (fun r => pad (codes c r))))
      = rs.flatMap (fun r => wholeBytes (pad (codes c r))) := by
  induction rs with
  | nil => simp [pad, padding, wholeBytes]
  | cons r rs ih =>
    have hwhole : (pad (codes c r)).length % 8 = 0 := by
      rw [length_pad, Nat.mul_mod_right]
    rw [List.flatMap_cons, pad_append hwhole, wholeBytes_append hwhole, ih, List.flatMap_cons]

theorem toList_encode_scoped (c : Codec) (rs : List (List Value)) :
    (encode c rs true).value.toList = rs.flatMap (fun r => wholeBytes (pad (codes c r))) := by
  rw [toList_encode, flatMap_code_intsOf_scoped, wholeBytes_flatMap_pad]

theorem toList_encode_unscoped (c : Codec) (rs : List (List Value)) :
    (encode c rs false).value.toList = wholeBytes (pad (codes c rs.flatten)) := by
  rw [toList_encode, intsOf_unscoped, codes]

/-- A record by itself takes the same bytes as a scope and without. -/
theorem toList_encode_singleton (c : Codec) (r : List Value) (scopes : Bool) :
    (encode c [r] scopes).value.toList = wholeBytes (pad (codes c r)) := by
  cases scopes with
  | false => rw [toList_encode_unscoped, List.flatten_singleton]
  | true => rw [toList_encode_scoped, List.flatMap_singleton]

/-! ## Rounding -/

/-- Rounded up to bytes one by one, numbers of bits gain less than a byte each. -/
theorem sum_rounded (ns : List Nat) :
    ns.sum ≤ 8 * (ns.map (fun n => (n + 7) / 8)).sum
      ∧ 8 * (ns.map (fun n => (n + 7) / 8)).sum ≤ ns.sum + 7 * ns.length := by
  induction ns with
  | nil => exact ⟨Nat.le_refl 0, Nat.le_refl 0⟩
  | cons n ns ih =>
    rw [List.map_cons, List.sum_cons, List.sum_cons, List.length_cons]
    omega

theorem bitsOf_flatten (c : Codec) (rs : List (List Value)) :
    c.bitsOf rs.flatten = (rs.map c.bitsOf).sum := by
  induction rs with
  | nil => rfl
  | cons r rs ih => rw [List.flatten_cons, Codec.bitsOf_append, ih, List.map_cons, List.sum_cons]

theorem size_encode_scoped (c : Codec) (rs : List (List Value)) :
    (encode c rs true).value.size = ((rs.map c.bitsOf).map (fun n => (n + 7) / 8)).sum := by
  rw [← Array.length_toList, toList_encode_scoped, List.length_flatMap, List.map_map]
  refine congrArg List.sum (List.map_congr_left (fun r _ => ?_))
  rw [length_wholeBytes_pad, length_codes, Function.comp_apply]

theorem size_encode_unscoped (c : Codec) (rs : List (List Value)) :
    (encode c rs false).value.size = ((rs.map c.bitsOf).sum + 7) / 8 := by
  rw [← Array.length_toList, toList_encode_unscoped, length_wholeBytes_pad, length_codes,
    bitsOf_flatten]

/-- Records that are scopes are encoded one by one: a file of two parts is the files of the parts,
and any file is the files of its records, which alone need not be scopes. Its bytes are the codes of
the records, each filled up by itself, and without scopes the codes of all of them, filled up at the
end; so the sizes are those of the codes, rounded up one by one or together. A dense file is the same
without scopes. With either codec the scopes make a file no shorter, and longer by less than a byte
for each record; a file without records is empty. -/
theorem encode_recordwise (c : Codec) (rs rs' : List (List Value)) :
    (encode c (rs ++ rs') true).value = (encode c rs true).value ++ (encode c rs' true).value
      ∧ (∀ scopes, (encode c rs true).value.toList
        = rs.flatMap (fun r => (encode c [r] scopes).value.toList))
      ∧ (encode c rs true).value.toList = rs.flatMap (fun r => wholeBytes (pad (codes c r)))
      ∧ (encode c rs false).value.toList = wholeBytes (pad (codes c rs.flatten))
      ∧ (encode c rs true).value.size = ((rs.map c.bitsOf).map (fun n => (n + 7) / 8)).sum
      ∧ (encode c rs false).value.size = ((rs.map c.bitsOf).sum + 7) / 8
      ∧ (encode .dense rs true).value = (encode .dense rs false).value
      ∧ (encode c rs false).value.size ≤ (encode c rs true).value.size
      ∧ (encode c rs true).value.size ≤ (encode c rs false).value.size + (rs.length - 1) := by
  have hscoped := size_encode_scoped c rs
  have hunscoped := size_encode_unscoped c rs
  obtain ⟨hleast, hmost⟩ := sum_rounded (rs.map c.bitsOf)
  rw [← hscoped, List.length_map] at hmost
  rw [← hscoped] at hleast
  refine ⟨?_, fun scopes => ?_, toList_encode_scoped c rs, toList_encode_unscoped c rs, hscoped,
    hunscoped, ?_, ?_, ?_⟩
  · apply Array.toList_inj.mp
    rw [Array.toList_append, toList_encode_scoped, toList_encode_scoped, toList_encode_scoped,
      List.flatMap_append]
  · simp only [toList_encode_scoped, toList_encode_singleton]
  · apply Array.toList_inj.mp
    rw [toList_encode, toList_encode, intsOf_dense, intsOf_dense]
  · omega
  · omega

/-- Eight records of one bit each: as scopes they take seven bytes more than together, which is as
many as there can be. -/
theorem encode_recordwise_of_single_bits :
    let rs := List.replicate 8 [Value.int 0]
    (encode .sparse rs true).value.toList = List.replicate 8 0
      ∧ (encode .sparse rs true).value.size = 8 ∧ (encode .sparse rs false).value.size = 1
      ∧ (encode .sparse rs true).value.size
        = (encode .sparse rs false).value.size + (rs.length - 1) := by
  intro rs
  obtain ⟨-, -, hbytes, -, hscoped, hunscoped, -, -, -⟩ := encode_recordwise .sparse rs []
  have hlong : (encode .sparse rs true).value.size = 8 := hscoped.trans (by decide)
  have hshort : (encode .sparse rs false).value.size = 1 := hunscoped.trans (by decide)
  refine ⟨hbytes.trans (by decide +kernel), hlong, hshort, ?_⟩
  rw [hlong, hshort]
  rfl

end ValueStream.Tool.Generate
