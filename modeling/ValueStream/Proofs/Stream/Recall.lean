import ValueStream.Proofs.Bits
import ValueStream.Stream.Reader

/-!
Readers that give back what lies at their cursor.

`Recalls` is what a reader over an endless sequence of bits has to show of its
own operations: an integer whose code lies at the cursor is read there, and
the cursor moves by the length of the code. What lies around the code makes no
difference, so the codes of many integers in a row are read one by one
(`Recalls.readInts`).
-/

namespace ValueStream

open Bits

/-- Readers that satisfy `Sound` read back integers whose codes lie at their cursor in `z`. -/
structure Recalls {ρ : Type} [IntReader ρ] (z : Nat → Bool) (code : UInt32 → List Bool)
    (Sound : ρ → Prop) (cursor : ρ → Nat) : Prop where
  readInt : ∀ (r : ρ) (v : UInt32), Sound r → LiesAt z (cursor r) (code v) →
    Sound (IntReader.readInt r).2 ∧ (IntReader.readInt r).1 = v
      ∧ cursor (IntReader.readInt r).2 = cursor r + (code v).length
  seek : ∀ (r : ρ) (p : Nat), Sound r →
    Sound (IntReader.seek r p) ∧ cursor (IntReader.seek r p) = 8 * p

variable {ρ : Type} [IntReader ρ]

/-- Read integers one after the other. -/
def IntReader.readInts (r : ρ) : (count : Nat) → List UInt32 × ρ
  | 0 => ([], r)
  | count + 1 =>
    ((readInt r).1 :: (readInts (readInt r).2 count).1, (readInts (readInt r).2 count).2)

/-- Reading in two parts is reading at once. -/
theorem IntReader.readInts_add (r : ρ) (m n : Nat) :
    readInts r (m + n)
      = ((readInts r m).1 ++ (readInts (readInts r m).2 n).1, (readInts (readInts r m).2 n).2) := by
  induction m generalizing r with
  | zero => rw [Nat.zero_add]; rfl
  | succ m ih =>
    rw [Nat.succ_add, readInts, ih]
    rfl

theorem IntReader.length_readInts (r : ρ) (count : Nat) : (readInts r count).1.length = count := by
  induction count generalizing r with
  | zero => rfl
  | succ count ih => rw [readInts, List.length_cons, ih]

/-- Integers whose codes lie at the cursor are read back. -/
theorem Recalls.readInts {z : Nat → Bool} {code : UInt32 → List Bool} {Sound : ρ → Prop}
    {cursor : ρ → Nat} (R : Recalls z code Sound cursor) {r : ρ} (hr : Sound r) {ws : List UInt32}
    (h : LiesAt z (cursor r) (ws.flatMap code)) :
    Sound (IntReader.readInts r ws.length).2 ∧ (IntReader.readInts r ws.length).1 = ws
      ∧ cursor (IntReader.readInts r ws.length).2 = cursor r + (ws.flatMap code).length := by
  induction ws generalizing r with
  | nil => exact ⟨hr, rfl, rfl⟩
  | cons w ws ih =>
    rw [List.flatMap_cons, liesAt_append] at h
    obtain ⟨hfirst, hrest⟩ := h
    obtain ⟨hnext, hread, hcursor⟩ := R.readInt r w hr hfirst
    rw [← hcursor] at hrest
    obtain ⟨hend, hreads, hlast⟩ := ih hnext hrest
    refine ⟨hend, ?_, ?_⟩
    · rw [List.length_cons, IntReader.readInts, hread, hreads]
    · rw [List.flatMap_cons, List.length_append, ← Nat.add_assoc, ← hcursor, ← hlast]
      rfl

end ValueStream
