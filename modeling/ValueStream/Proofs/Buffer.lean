import ValueStream.Buffer

/-!
What the buffer operations do to the block, cell by cell.

`cell b i` is what the block holds at `i`, and zero outside it. Growing changes
no cell, a write changes the cell at the length, and moving the length changes
none. `Sound` says that the committed bytes are allocated; every operation
keeps it, and of a sound buffer the committed bytes are the first cells
(`bytes_eq`). Appending and cutting off committed bytes follow from that.
-/

namespace ValueStream.Buffer

open Trace Traced

/-- What the block holds at a place; cells not allocated yet are zero. -/
def cell (b : Buffer) (i : Nat) : UInt8 := b.cells[i]?.getD 0

/-- All committed bytes are allocated. -/
def Sound (b : Buffer) : Prop := b.length ≤ b.capacity

instance (b : Buffer) : Decidable b.Sound := inferInstanceAs (Decidable (_ ≤ _))

/-! ## Growing -/

theorem le_sizeFrom (size required : Nat) (positive : 0 < size) :
    size ≤ sizeFrom size required positive ∧ required ≤ sizeFrom size required positive := by
  fun_induction sizeFrom size required positive with
  | case1 size positive h ih =>
    have hgrow : size ≤ Limits.growthFactor * size := Nat.le_mul_of_pos_left _ (by decide)
    exact ⟨Nat.le_trans hgrow ih.1, ih.2⟩
  | case2 size positive h => exact ⟨Nat.le_refl _, Nat.le_of_not_lt h⟩

theorem le_grownCapacity (old required : Nat) :
    old ≤ grownCapacity old required ∧ required ≤ grownCapacity old required := by
  obtain ⟨hsize, hreq⟩ := le_sizeFrom (max (Limits.growthFactor * old) Limits.leastGrowth) required
    (Nat.lt_of_lt_of_le (by decide) (Nat.le_max_right _ _))
  have hold : old ≤ Limits.growthFactor * old := Nat.le_mul_of_pos_left _ (by decide)
  exact ⟨Nat.le_trans (Nat.le_trans hold (Nat.le_max_left _ _)) hsize, hreq⟩

@[simp] theorem capacity_grow (b : Buffer) (required : Nat) :
    (b.grow required).value.capacity = grownCapacity b.capacity required := by
  have hle : b.cells.size ≤ grownCapacity b.cells.size required := (le_grownCapacity _ _).1
  simp only [grow, value_bind, value_pure, capacity, Array.size_append, Array.size_replicate]
  omega

@[simp] theorem cell_grow (b : Buffer) (required i : Nat) :
    (b.grow required).value.cell i = b.cell i := by
  simp only [grow, value_bind, value_pure, cell, Array.getElem?_append, Array.getElem?_replicate]
  split
  · rfl
  · next h =>
    rw [Array.getElem?_eq_none (Nat.le_of_not_lt h)]
    split <;> rfl

/-! ## Writing a byte -/

/-- The buffer that a write puts its byte into. -/
def roomForOne (b : Buffer) : Buffer :=
  if b.length = b.capacity then (b.grow (b.length + 1)).value else b

theorem value_write (b : Buffer) (byte : UInt8) :
    (b.write byte).value
      = ⟨b.roomForOne.cells.setIfInBounds b.roomForOne.length byte, b.roomForOne.length + 1⟩ := by
  unfold write roomForOne
  split <;> rfl

@[simp] theorem length_roomForOne (b : Buffer) : b.roomForOne.length = b.length := by
  unfold roomForOne
  split <;> rfl

@[simp] theorem cell_roomForOne (b : Buffer) (i : Nat) : b.roomForOne.cell i = b.cell i := by
  unfold roomForOne
  split <;> simp

theorem lt_capacity_roomForOne {b : Buffer} (h : b.Sound) : b.length < b.roomForOne.capacity := by
  unfold roomForOne
  split
  · rw [capacity_grow]
    exact (le_grownCapacity _ _).2
  · next hne => exact Nat.lt_of_le_of_ne h hne

@[simp] theorem length_write (b : Buffer) (byte : UInt8) :
    (b.write byte).value.length = b.length + 1 := by
  rw [value_write, length_roomForOne]

theorem sound_write {b : Buffer} (h : b.Sound) (byte : UInt8) : (b.write byte).value.Sound := by
  have hroom := lt_capacity_roomForOne h
  rw [value_write, Sound, length_roomForOne, capacity, Array.size_setIfInBounds]
  exact hroom

/-- A write changes the cell at the length and no other. -/
theorem cell_write {b : Buffer} (h : b.Sound) (byte : UInt8) (i : Nat) :
    (b.write byte).value.cell i = if i = b.length then byte else b.cell i := by
  have hroom : b.length < b.roomForOne.cells.size := lt_capacity_roomForOne h
  rw [value_write, cell, length_roomForOne, Array.getElem?_setIfInBounds, ← cell_roomForOne b i, cell]
  by_cases hi : i = b.length
  · simp [hi, hroom]
  · simp [hi, Ne.symm hi]

/-! ## Moving the length -/

/-- The buffer that a move of the length leaves, its old length aside. -/
def roomFor (b : Buffer) (length : Nat) : Buffer :=
  if b.capacity < length then (b.grow length).value else b

theorem value_setLength (b : Buffer) (length : Nat) :
    (b.setLength length).value = ⟨(b.roomFor length).cells, length⟩ := by
  unfold setLength roomFor
  split <;> rfl

@[simp] theorem length_setLength (b : Buffer) (length : Nat) :
    (b.setLength length).value.length = length := by
  rw [value_setLength]

@[simp] theorem cell_setLength (b : Buffer) (length i : Nat) :
    (b.setLength length).value.cell i = b.cell i := by
  have hroom : (b.roomFor length).cell i = b.cell i := by
    unfold roomFor
    split <;> simp
  rw [value_setLength, ← hroom]
  rfl

/-- Wherever the length moves, what it covers is allocated. -/
theorem sound_setLength (b : Buffer) (length : Nat) : (b.setLength length).value.Sound := by
  have hroom : length ≤ (b.roomFor length).capacity := by
    unfold roomFor
    split
    · rw [capacity_grow]
      exact (le_grownCapacity _ _).2
    · next h => exact Nat.le_of_not_lt h
  rw [value_setLength]
  exact hroom

/-! ## The committed bytes -/

theorem sound_ofCapacity (capacity : Nat) : (ofCapacity capacity).Sound := Nat.zero_le _

@[simp] theorem bytes_ofCapacity (capacity : Nat) : (ofCapacity capacity).bytes.toList = [] := by
  simp [ofCapacity, bytes]

theorem bytes_eq {b : Buffer} (h : b.Sound) :
    b.bytes.toList = (List.range b.length).map b.cell := by
  have hsize : b.length ≤ b.cells.size := h
  apply List.ext_getElem
  · simp [bytes, hsize]
  · intro i h1 h2
    have hi : i < b.cells.size := by simp [bytes] at h1; omega
    simp [bytes, cell, hi]

@[simp] theorem length_bytes {b : Buffer} (h : b.Sound) : b.bytes.toList.length = b.length := by
  rw [bytes_eq h, List.length_map, List.length_range]

/-- A write appends its byte. -/
theorem bytes_write {b : Buffer} (h : b.Sound) (byte : UInt8) :
    (b.write byte).value.bytes.toList = b.bytes.toList ++ [byte] := by
  rw [bytes_eq (sound_write h byte), bytes_eq h, length_write, List.range_succ, List.map_append]
  congr 1
  · refine List.map_congr_left (fun i hi => ?_)
    have hne : i ≠ b.length := Nat.ne_of_lt (List.mem_range.mp hi)
    rw [cell_write h, if_neg hne]
  · rw [List.map_singleton, cell_write h, if_pos rfl]

/-- Moving the length back keeps the bytes before it. -/
theorem bytes_setLength {b : Buffer} (h : b.Sound) {length : Nat} (hle : length ≤ b.length) :
    (b.setLength length).value.bytes.toList = b.bytes.toList.take length := by
  rw [bytes_eq (sound_setLength b length), bytes_eq h, length_setLength, ← List.map_take,
    List.take_range, Nat.min_eq_left hle]
  exact List.map_congr_left (fun i _ => cell_setLength b length i)

end ValueStream.Buffer
