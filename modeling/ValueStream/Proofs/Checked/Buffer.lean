import ValueStream.Proofs.Buffer.Growth
import ValueStream.Proofs.Checked.Machine

/-!
The block of bytes, with every index and every size checked.

The checked operations stop the program at a cell outside the block, at a size
that the machine does not count to and at a block that cannot be allocated.
`Ample n b` says that all of this is far away: what is committed is allocated,
and `n` more bytes end within `Checked.reach`. Then the checked operations do
what the others do (`writeChecked_eq`, `setLengthChecked_eq`, `bytesChecked_eq`),
and what they leave is ample again (`Ample.write`, `Ample.setLength`).
-/

namespace ValueStream

open Trace Traced Checked

/-- A block for twice as many bytes can be allocated, so far below the largest one are
the places up to here. -/
def Checked.reach : Nat := 0x2000000000000000

namespace Buffer

def ofCapacityChecked (capacity : Nat) : Checked Buffer :=
  require (capacity ≤ largestBlock) .allocation (ofCapacity capacity)

/-- Multiply a size until `required` fits. A product that the machine would clip to its
greatest number stops the program here. -/
def sizeFromChecked (size required : Nat) (positive : 0 < size) : Checked Nat :=
  if size < required then do
    let _ ← mul Limits.growthFactor size
    sizeFromChecked (Limits.growthFactor * size) required (Nat.mul_pos (by decide) positive)
  else pure size
termination_by required - size
decreasing_by simp only [Limits.growthFactor]; omega

def growChecked : Buffer → (required : Nat) → Checked Buffer
  | ⟨cells, length⟩, required => do
    let multiplied ← mul Limits.growthFactor cells.size
    let new ← sizeFromChecked (max multiplied Limits.leastGrowth) required
      (Nat.lt_of_lt_of_le (by decide) (Nat.le_max_right _ _))
    Traced.report (.growing cells.size new length)
    let cells ← resize cells new
    pure ⟨cells, length⟩

/-- Put a byte behind the committed ones. -/
def putChecked (b : Buffer) (byte : UInt8) : Checked Buffer := do
  let cells ← store b.cells b.length byte
  let length ← add b.length 1
  pure ⟨cells, length⟩

def writeChecked (b : Buffer) (byte : UInt8) : Checked Buffer :=
  if b.length = b.capacity then do
    let required ← add b.length 1
    let b ← b.growChecked required
    b.putChecked byte
  else b.putChecked byte

def setLengthChecked (b : Buffer) (length : Nat) : Checked Buffer :=
  if b.capacity < length then do
    let b ← b.growChecked length
    pure ⟨b.cells, length⟩
  else pure ⟨b.cells, length⟩

def bytesChecked (b : Buffer) : Checked (Array UInt8) := front b.cells b.length

/-- What is committed is allocated, and `n` more bytes end within reach. -/
structure Ample (n : Nat) (b : Buffer) : Prop where
  sound : b.Sound
  near : b.length + n ≤ reach
  allocated : b.capacity ≤ largestBlock

namespace Ample

variable {b : Buffer} {m n : Nat}

theorem mono (h : Ample n b) (hle : m ≤ n) : Ample m b :=
  ⟨h.sound, Nat.le_trans (Nat.add_le_add_left hle _) h.near, h.allocated⟩

/-- A change that ends within reach leaves a block that could be allocated. -/
theorem perform (h : b.capacity ≤ largestBlock) (hb : b.Sound) (c : Change)
    (hnear : c.lengthFrom b.length + n ≤ reach) : Ample n (c.perform b).value := by
  obtain ⟨hsound, hlength, -⟩ := perform_spec hb c
  refine ⟨hsound, ?_, ?_⟩
  · rw [hlength]
    exact hnear
  · have hcapacity := capacity_perform_le b c
    unfold reach at hnear
    unfold largestBlock at h ⊢
    omega

/-- A write leaves room for one byte less. -/
theorem write (h : Ample (n + 1) b) (byte : UInt8) : Ample n (b.write byte).value := by
  apply perform h.allocated h.sound (.write byte)
  have hnear := h.near
  show b.length + 1 + n ≤ reach
  omega

theorem writes {bytes : List UInt8} (h : Ample (bytes.length + n) b) :
    Ample n (run b (bytes.map .write)).value := by
  induction bytes generalizing b with
  | nil =>
    rw [List.length_nil, Nat.zero_add] at h
    exact h
  | cons byte bytes ih =>
    rw [List.length_cons, Nat.succ_add] at h
    exact ih (h.write byte)

theorem setLength (h : b.capacity ≤ largestBlock) (hb : b.Sound) {length : Nat}
    (hlength : length + n ≤ reach) : Ample n (b.setLength length).value :=
  perform h hb (.setLength length) hlength

end Ample

/-! ## Growing -/

theorem sizeFromChecked_eq (size required : Nat) (positive : 0 < size) (h : required ≤ reach) :
    sizeFromChecked size required positive = pure (sizeFrom size required positive) := by
  fun_induction sizeFrom size required positive with
  | case1 size positive hlt ih =>
    have hmul : Limits.growthFactor * size ≤ 0xFFFFFFFFFFFFFFFF := by
      unfold reach at h
      unfold Limits.growthFactor
      omega
    rw [sizeFromChecked, if_pos hlt, mul_size hmul, pure_bind]
    exact ih
  | case2 size positive hnot => rw [sizeFromChecked, if_neg hnot]

/-- A block that is too small for what is within reach grows without a stop. -/
theorem growChecked_eq {b : Buffer} {required : Nat} (hlt : b.capacity < required)
    (h : required ≤ reach) : b.growChecked required = liftM (b.grow required) := by
  obtain ⟨cells, length⟩ := b
  have hsmall : cells.size < required := hlt
  have hmul : Limits.growthFactor * cells.size ≤ 0xFFFFFFFFFFFFFFFF := by
    unfold reach at h
    unfold Limits.growthFactor
    omega
  have hgrown : grownCapacity cells.size required ≤ largestBlock := by
    have hle := grownCapacity_le hsmall
    unfold reach at h
    unfold largestBlock
    omega
  have hresize := resize_of (le_grownCapacity cells.size required).1 hgrown
  have hsize := sizeFromChecked_eq (max (Limits.growthFactor * cells.size) Limits.leastGrowth)
    required (Nat.lt_of_lt_of_le (by decide) (Nat.le_max_right _ _)) h
  rw [growChecked, mul_size hmul, pure_bind, hsize, pure_bind, ← grownCapacity]
  apply bind_eq_liftM rfl
  rw [hresize, pure_bind]
  rfl

/-! ## Writing, moving the length, and showing the bytes -/

theorem putChecked_eq {b : Buffer} (h : b.length < b.capacity) (hnear : b.length + 1 ≤ reach)
    (byte : UInt8) :
    b.putChecked byte = pure ⟨b.cells.setIfInBounds b.length byte, b.length + 1⟩ := by
  have hlast : b.length + 1 ≤ 0xFFFFFFFFFFFFFFFF := Nat.le_trans hnear (by decide)
  rw [putChecked, store_of h, pure_bind, add_size hlast, pure_bind]

theorem writeChecked_eq {b : Buffer} (h : Ample 1 b) (byte : UInt8) :
    b.writeChecked byte = liftM (b.write byte) := by
  have hnear : b.length + 1 ≤ reach := h.near
  have hlast : b.length + 1 ≤ 0xFFFFFFFFFFFFFFFF := Nat.le_trans hnear (by decide)
  have hroom := lt_capacity_roomForOne h.sound
  unfold writeChecked write
  unfold roomForOne at hroom
  split
  · next hfull =>
    -- a full block grows for the byte, and has room for it then
    have hgrow := growChecked_eq (Nat.lt_succ_of_le (Nat.le_of_eq hfull.symm)) hnear
    rw [if_pos hfull] at hroom
    rw [add_size hlast, pure_bind]
    apply bind_eq_liftM hgrow
    exact putChecked_eq (b := (b.grow (b.length + 1)).value) hroom hnear byte
  · next hnot =>
    rw [if_neg hnot] at hroom
    exact putChecked_eq hroom hnear byte

theorem setLengthChecked_eq (b : Buffer) {length : Nat} (h : length ≤ reach) :
    b.setLengthChecked length = liftM (b.setLength length) := by
  unfold setLengthChecked setLength
  split
  · next hout => exact bind_eq_liftM (growChecked_eq hout h) rfl
  · rfl

theorem bytesChecked_eq {b : Buffer} (h : b.Sound) : b.bytesChecked = pure b.bytes :=
  require_of h _ _

end Buffer

end ValueStream
