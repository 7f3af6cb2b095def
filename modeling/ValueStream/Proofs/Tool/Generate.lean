import ValueStream.Proofs.Codec
import ValueStream.Proofs.Value.Record
import ValueStream.Tool.Generate

/-!
Encoded records as one list of integers.

Whatever the codec, and whether or not every record is a scope, the bits of an
encoded file are the codes of integers one after the other: those of the
records, and behind each record that is a scope as many zeros as there are bits
missing from a byte (`intsOf`). `writeRecords_spec` follows the loop over the
records, and `encode_spec` says what a reader of the file sees.
-/

namespace ValueStream

open Bits Trace Traced

/-- Bits that values take with a codec. -/
def Codec.bitsOf (c : Codec) (vs : List Value) : Nat := ((Value.intsOf vs).map c.cost).sum

theorem Codec.bitsOf_append (c : Codec) (as bs : List Value) :
    c.bitsOf (as ++ bs) = c.bitsOf as + c.bitsOf bs := by
  rw [bitsOf, Value.intsOf_append, List.map_append, List.sum_append, bitsOf, bitsOf]

namespace Tool.Generate

/-- The integers that a file holds, the zeros behind its scopes included. -/
def intsOf (c : Codec) (scopes : Bool) (records : List (List Value)) : List UInt32 :=
  records.flatMap (fun r =>
    Value.intsOf r ++ if scopes then List.replicate (padding (c.bitsOf r)) 0 else [])

theorem intsOf_cons (c : Codec) (scopes : Bool) (r : List Value) (rs : List (List Value)) :
    intsOf c scopes (r :: rs)
      = Value.intsOf r ++ (if scopes then List.replicate (padding (c.bitsOf r)) 0 else [])
        ++ intsOf c scopes rs := List.flatMap_cons

theorem intsOf_unscoped (c : Codec) (records : List (List Value)) :
    intsOf c false records = Value.intsOf records.flatten := by
  induction records with
  | nil => rfl
  | cons r rs ih => rw [intsOf_cons, ih, List.flatten_cons, Value.intsOf_append]; simp

/-- The dense codec leaves nothing to fill behind a scope. -/
theorem intsOf_dense (scopes : Bool) (records : List (List Value)) :
    intsOf .dense scopes records = Value.intsOf records.flatten := by
  have hnone : ∀ r : List Value, padding (Codec.dense.bitsOf r) = 0 := fun r =>
    Codec.padding_dense (Value.intsOf r)
  rw [← intsOf_unscoped .dense]
  simp only [intsOf, hnone, List.replicate_zero, ite_self]

theorem length_intsOf_le (c : Codec) (scopes : Bool) (records : List (List Value)) :
    (Value.intsOf records.flatten).length ≤ (intsOf c scopes records).length := by
  induction records with
  | nil => exact Nat.le_refl 0
  | cons r rs ih =>
    rw [intsOf_cons, List.flatten_cons, Value.intsOf_append, List.length_append, List.length_append,
      List.length_append]
    omega

/-- Write a record, and pad it if it is a scope. -/
def writeRecord (scopes : Bool) (w : Codec.Writer) (r : List Value) : Traced Codec.Writer := do
  let w ← Value.writeAll w r
  if scopes then IntWriter.align w else pure w

theorem writeRecords_cons (scopes : Bool) (w : Codec.Writer) (r : List Value)
    (rs : List (List Value)) :
    (writeRecords scopes w (r :: rs)).value
      = (writeRecords scopes (writeRecord scopes w r).value rs).value := by
  cases scopes <;> rfl

/-- A record appends the codes of its integers, and as a scope the zeros that reach a byte. -/
theorem writeRecord_spec (c : Codec) {w : Codec.Writer} (hw : Codec.Writer.Sound c w)
    {scopes : Bool} (haligned : scopes = true → w.bits.length % 8 = 0) (r : List Value) :
    Codec.Writer.Sound c (writeRecord scopes w r).value
      ∧ (writeRecord scopes w r).value.bits = w.bits ++ (intsOf c scopes [r]).flatMap c.code
      ∧ (scopes = true → (writeRecord scopes w r).value.bits.length % 8 = 0) := by
  obtain ⟨hput, hbits⟩ := c.tracks.writeAll hw r
  rw [intsOf_cons, intsOf, List.flatMap_nil, List.append_nil]
  cases scopes with
  | false =>
    refine ⟨hput, ?_, fun h => absurd h Bool.false_ne_true⟩
    rw [if_neg Bool.false_ne_true, List.append_nil]
    exact hbits
  | true =>
    obtain ⟨hflush, hpad⟩ := c.tracks.flush _ hput
    rw [hbits, pad_append (haligned rfl)] at hpad
    have hlength : ((Value.intsOf r).flatMap c.code).length = c.bitsOf r :=
      c.length_flatMap_code _
    refine ⟨hflush, ?_, fun _ => ?_⟩
    · rw [if_pos rfl, List.flatMap_append, Codec.bitsOf, c.flatMap_code_padding, ← Codec.bitsOf,
        ← hlength]
      exact hpad
    · show (Codec.Writer.bits (IntWriter.flush (Value.writeAll w r).value).value).length % 8 = 0
      rw [hpad, List.length_append, length_pad, Nat.add_mul_mod_self_left]
      exact haligned rfl

theorem writeRecords_spec (c : Codec) {w : Codec.Writer} (hw : Codec.Writer.Sound c w)
    {scopes : Bool} (haligned : scopes = true → w.bits.length % 8 = 0)
    (records : List (List Value)) :
    Codec.Writer.Sound c (writeRecords scopes w records).value
      ∧ (writeRecords scopes w records).value.bits
        = w.bits ++ (intsOf c scopes records).flatMap c.code := by
  induction records generalizing w with
  | nil => exact ⟨hw, (List.append_nil _).symm⟩
  | cons r rs ih =>
    obtain ⟨hsound, hbits, hnext⟩ := writeRecord_spec c hw haligned r
    obtain ⟨hend, hrest⟩ := ih hsound hnext
    have hints : intsOf c scopes (r :: rs) = intsOf c scopes [r] ++ intsOf c scopes rs := by
      simp [intsOf]
    rw [writeRecords_cons]
    refine ⟨hend, ?_⟩
    rw [hrest, hbits, hints, List.flatMap_append, List.append_assoc]

/-- The stream that a file is taken from holds the codes and nothing else. -/
theorem writeRecords_writer (c : Codec) (records : List (List Value)) (scopes : Bool) :
    let w := (writeRecords scopes (c.writer Limits.initialCapacity) records).value
    Codec.Writer.Sound c w ∧ w.bits = (intsOf c scopes records).flatMap c.code := by
  have hempty := c.bits_writer Limits.initialCapacity
  have haligned : scopes = true → (c.writer Limits.initialCapacity).bits.length % 8 = 0 := by
    intro _
    rw [hempty]
    rfl
  obtain ⟨hsound, hbits⟩ := writeRecords_spec c (c.sound_writer _) haligned records
  rw [hempty, List.nil_append] at hbits
  exact ⟨hsound, hbits⟩

/-- A file is its codes, and zeros that fill the last byte. -/
theorem toList_encode (c : Codec) (records : List (List Value)) (scopes : Bool) :
    (encode c records scopes).value.toList
      = wholeBytes (pad ((intsOf c scopes records).flatMap c.code)) := by
  obtain ⟨hsound, hbits⟩ := writeRecords_writer c records scopes
  rw [← hbits]
  exact c.tracks.finish hsound

/-- A reader of the file sees the codes from its first bit on, in as few bytes as hold them. -/
theorem encode_spec (c : Codec) (records : List (List Value)) (scopes : Bool) :
    LiesAt (endless (encode c records scopes).value) 0 ((intsOf c scopes records).flatMap c.code)
      ∧ (encode c records scopes).value.size
        = (((intsOf c scopes records).map c.cost).sum + 7) / 8 := by
  obtain ⟨hsound, hbits⟩ := writeRecords_writer c records scopes
  constructor
  · rw [← hbits]
    exact c.tracks.liesAt_finish hsound
  · rw [← Array.length_toList, toList_encode, length_wholeBytes_pad, c.length_flatMap_code]

end Tool.Generate

end ValueStream
