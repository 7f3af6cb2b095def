import Mathlib.Algebra.Group.Nat.Defs
import Mathlib.Order.Bounds.Basic
import ValueStream.Proofs.Buffer.History

/-!
When a block grows, and how far.

A block grows in a change that finds no room in it (`Change.Outgrows`) and in
no other, and then to the least of the sizes it may take that holds what the
change needs (`perform_of_outgrows`, `isLeast_grownCapacity`). Over a run the
reported growths lead from the first capacity to the last (`leads_run`), and no
capacity is more than twice the largest length reached, the floor and the first
capacity apart (`capacity_run_le`). Bytes written one after the other find room
for at least as many again once the block has grown, which bounds how often a
few of them can make it grow (`growths_writes`).
-/

namespace ValueStream.Buffer

open Trace Traced

/-! ## The next capacity -/

/-- Doubling stops at the first size that is large enough. -/
theorem isLeast_sizeFrom (size required : Nat) (positive : 0 < size) :
    IsLeast {m | required ≤ m ∧ ∃ j, m = size * 2 ^ j} (sizeFrom size required positive) := by
  fun_induction sizeFrom size required positive with
  | case1 size positive h ih =>
    -- the size itself is too small, so what is large enough comes from doubling it first
    have hnext : {m | required ≤ m ∧ ∃ j, m = size * 2 ^ j}
        = {m | required ≤ m ∧ ∃ j, m = Limits.growthFactor * size * 2 ^ j} := by
      have hpow : ∀ j, size * 2 ^ (j + 1) = Limits.growthFactor * size * 2 ^ j := fun j => by
        rw [Limits.growthFactor, Nat.pow_succ, Nat.mul_comm (2 ^ j), ← Nat.mul_assoc,
          Nat.mul_comm size]
      ext m
      constructor
      · rintro ⟨hm, j, rfl⟩
        cases j with
        | zero => exact absurd hm (by rw [Nat.pow_zero, Nat.mul_one]; omega)
        | succ j => exact ⟨hm, j, hpow j⟩
      · rintro ⟨hm, j, rfl⟩
        exact ⟨hm, j + 1, (hpow j).symm⟩
    rw [hnext]
    exact ih
  | case2 size positive h =>
    refine ⟨⟨Nat.le_of_not_lt h, 0, (Nat.mul_one size).symm⟩, ?_⟩
    rintro m ⟨-, j, rfl⟩
    exact Nat.le_mul_of_pos_right size (Nat.two_pow_pos j)

/-- A block grows to the least of its possible sizes that holds what is required. -/
theorem isLeast_grownCapacity (old required : Nat) :
    IsLeast {m | required ≤ m ∧ ∃ j, m = max (2 * old) 12 * 2 ^ j} (grownCapacity old required) :=
  isLeast_sizeFrom _ _ _

theorem sizeFrom_le (size required : Nat) (positive : 0 < size) :
    sizeFrom size required positive ≤ max size (2 * required) := by
  fun_induction sizeFrom size required positive with
  | case1 size positive h ih =>
    have hfactor : Limits.growthFactor * size = 2 * size := rfl
    omega
  | case2 size positive h => exact Nat.le_max_left _ _

/-- A block that is outgrown never becomes larger than twice what is required, or the floor. -/
theorem grownCapacity_le {old required : Nat} (h : old < required) :
    grownCapacity old required ≤ max 12 (2 * required) := by
  have hsize : grownCapacity old required ≤ max (max (2 * old) 12) (2 * required) :=
    sizeFrom_le _ _ _
  omega

theorem le_floor_grownCapacity (old required : Nat) : 12 ≤ grownCapacity old required :=
  Nat.le_trans (Nat.le_max_right (2 * old) 12) (le_sizeFrom _ _ _).1

/-- One byte more is always found in the smallest of the possible sizes. -/
theorem grownCapacity_succ (old : Nat) : grownCapacity old (old + 1) = max (2 * old) 12 := by
  have hfits : ¬max (2 * old) 12 < old + 1 := by omega
  rw [grownCapacity, sizeFrom]
  exact if_neg hfits

/-! ## A change -/

/-- A change that finds no room: a write to a full block, or a move of the length out of it. -/
def Change.Outgrows (b : Buffer) : Change → Prop
  | write _ => b.length = b.capacity
  | setLength length => b.capacity < length

instance (b : Buffer) (c : Change) : Decidable (c.Outgrows b) := by
  cases c <;> unfold Change.Outgrows <;> infer_instance

theorem Change.Outgrows.lt {b : Buffer} {c : Change} (h : c.Outgrows b) :
    b.capacity < c.lengthFrom b.length := by
  cases c with
  | write byte => exact Nat.lt_succ_of_le (Nat.le_of_eq h.symm)
  | setLength length => exact h

/-- Where there is room, nothing is reported and the block stays as large as it is. -/
theorem perform_of_room {b : Buffer} {c : Change} (h : ¬c.Outgrows b) :
    (c.perform b).events = [] ∧ (c.perform b).value.capacity = b.capacity := by
  cases c with
  | write byte =>
    have hroom : ¬b.length = b.capacity := h
    rw [Change.perform, write, if_neg hroom]
    exact ⟨rfl, Array.size_setIfInBounds⟩
  | setLength length =>
    have hroom : ¬b.capacity < length := h
    rw [Change.perform, setLength, if_neg hroom]
    exact ⟨rfl, rfl⟩

/-- Where there is none, the block grows once, and that is reported. -/
theorem perform_of_outgrows {b : Buffer} {c : Change} (h : c.Outgrows b) :
    (c.perform b).value.capacity = grownCapacity b.capacity (c.lengthFrom b.length)
      ∧ (c.perform b).events
        = [.growing b.capacity (grownCapacity b.capacity (c.lengthFrom b.length)) b.length] := by
  cases c with
  | write byte =>
    have hfull : b.length = b.capacity := h
    rw [Change.perform, write, if_pos hfull]
    refine ⟨?_, rfl⟩
    rw [← capacity_grow]
    exact Array.size_setIfInBounds
  | setLength length =>
    have hout : b.capacity < length := h
    rw [Change.perform, setLength, if_pos hout]
    exact ⟨capacity_grow b length, rfl⟩

theorem capacity_le_perform (b : Buffer) (c : Change) :
    b.capacity ≤ (c.perform b).value.capacity := by
  by_cases h : c.Outgrows b
  · rw [(perform_of_outgrows h).1]
    exact (le_grownCapacity _ _).1
  · exact Nat.le_of_eq (perform_of_room h).2.symm

/-- A change leaves the capacity, or one that twice the length it leaves bounds, the floor apart. -/
theorem capacity_perform_le (b : Buffer) (c : Change) :
    (c.perform b).value.capacity ≤ max b.capacity (max 12 (2 * c.lengthFrom b.length)) := by
  by_cases h : c.Outgrows b
  · rw [(perform_of_outgrows h).1]
    exact Nat.le_trans (grownCapacity_le h.lt) (Nat.le_max_right _ _)
  · rw [(perform_of_room h).2]
    exact Nat.le_max_left _ _

/-! ## The growths of a run -/

/-- The capacities before and after a growth. -/
def growth? : Event → Option (Nat × Nat)
  | .growing old new _ => some (old, new)
  | _ => none

/-- The growths that are reported, oldest first. -/
def growths (es : List Event) : List (Nat × Nat) := es.filterMap growth?

/-- The growths lead from a capacity to another: each begins where the one before it ended. -/
def Leads : (first : Nat) → List (Nat × Nat) → (last : Nat) → Prop
  | first, [], last => first = last
  | first, (old, new) :: gs, last => old = first ∧ Leads new gs last

theorem Leads.append {first middle last : Nat} {gs hs : List (Nat × Nat)}
    (hg : Leads first gs middle) (hh : Leads middle hs last) : Leads first (gs ++ hs) last := by
  induction gs generalizing first with
  | nil =>
    have hmiddle : first = middle := hg
    rw [hmiddle]
    exact hh
  | cons g gs ih => exact ⟨hg.1, ih hg.2⟩

theorem growths_append (es fs : List Event) : growths (es ++ fs) = growths es ++ growths fs :=
  List.filterMap_append

theorem leads_perform (b : Buffer) (c : Change) :
    Leads b.capacity (growths (c.perform b).events) (c.perform b).value.capacity := by
  by_cases h : c.Outgrows b
  · obtain ⟨hcapacity, hevents⟩ := perform_of_outgrows h
    rw [hevents, hcapacity]
    exact ⟨rfl, rfl⟩
  · obtain ⟨hevents, hcapacity⟩ := perform_of_room h
    rw [hevents, hcapacity]
    rfl

theorem value_run_cons (b : Buffer) (c : Change) (cs : List Change) :
    (run b (c :: cs)).value = (run (c.perform b).value cs).value := rfl

theorem events_run_cons (b : Buffer) (c : Change) (cs : List Change) :
    (run b (c :: cs)).events = (c.perform b).events ++ (run (c.perform b).value cs).events := rfl

/-- The growths of a run lead from its first capacity to its last. -/
theorem leads_run (b : Buffer) (cs : List Change) :
    Leads b.capacity (growths (run b cs).events) (run b cs).value.capacity := by
  induction cs generalizing b with
  | nil => rfl
  | cons c cs ih =>
    rw [events_run_cons, growths_append, value_run_cons]
    exact (leads_perform b c).append (ih _)

/-! ## The capacity against the lengths reached -/

/-- The largest length that changes go through. -/
def peak (length : Nat) (cs : List Change) : Nat := (lengths length cs).foldr max 0

theorem peak_cons (length : Nat) (c : Change) (cs : List Change) :
    peak length (c :: cs) = max length (peak (c.lengthFrom length) cs) := by
  rw [peak, lengths, List.scanl_cons]
  rfl

theorem le_peak (length : Nat) (cs : List Change) : length ≤ peak length cs := by
  cases cs with
  | nil => exact Nat.le_max_left _ _
  | cons c cs =>
    rw [peak_cons]
    exact Nat.le_max_left _ _

/-- However the lengths go up and down, no capacity is more than twice the largest of them,
the floor and the first capacity apart. -/
theorem capacity_run_le {b : Buffer} (h : b.Sound) (cs : List Change) :
    (run b cs).value.capacity ≤ max b.capacity (max 12 (2 * peak b.length cs)) := by
  induction cs generalizing b with
  | nil => exact Nat.le_max_left _ _
  | cons c cs ih =>
    obtain ⟨hsound, hlength, -⟩ := perform_spec h c
    have hstep := capacity_perform_le b c
    have hrest := ih hsound
    have hpeak := le_peak (c.lengthFrom b.length) cs
    rw [hlength] at hrest
    rw [value_run_cons, peak_cons]
    omega

/-- A capacity that is not the first one any more is not below the floor. -/
theorem capacity_run_eq_or (b : Buffer) (cs : List Change) :
    (run b cs).value.capacity = b.capacity ∨ 12 ≤ (run b cs).value.capacity := by
  induction cs generalizing b with
  | nil => exact Or.inl rfl
  | cons c cs ih =>
    rw [value_run_cons]
    by_cases h : c.Outgrows b
    · have hfloor : 12 ≤ (c.perform b).value.capacity := by
        rw [(perform_of_outgrows h).1]
        exact le_floor_grownCapacity _ _
      obtain hsame | hlarge := ih (c.perform b).value
      · exact Or.inr (hsame ▸ hfloor)
      · exact Or.inr hlarge
    · rw [← (perform_of_room h).2]
      exact ih _

/-! ## A few bytes in a row -/

/-- Bytes that find room make no block grow. -/
theorem events_writes_of_room {b : Buffer} {bytes : List UInt8}
    (h : b.length + bytes.length ≤ b.capacity) : (run b (bytes.map .write)).events = [] := by
  induction bytes generalizing b with
  | nil => rfl
  | cons byte bytes ih =>
    have hroom : ¬(Change.write byte).Outgrows b := by
      show ¬b.length = b.capacity
      rw [List.length_cons] at h
      omega
    obtain ⟨hevents, hcapacity⟩ := perform_of_room hroom
    have hlength : ((Change.write byte).perform b).value.length = b.length + 1 := length_write b byte
    rw [List.map_cons, events_run_cons, hevents, List.nil_append]
    apply ih
    rw [hlength, hcapacity]
    rw [List.length_cons] at h
    omega

/-- Bytes that find no room make the block grow to the next size, and the rest of them is
written to that. -/
theorem exists_growth {b : Buffer} (hb : b.Sound) {bytes : List UInt8}
    (h : b.capacity < b.length + bytes.length) :
    ∃ (b' : Buffer) (rest : List UInt8), b'.Sound
      ∧ b'.capacity = max (2 * b.capacity) 12
      ∧ b'.length + rest.length = b.length + bytes.length
      ∧ growths (run b (bytes.map .write)).events
        = (b.capacity, b'.capacity) :: growths (run b' (rest.map .write)).events := by
  induction bytes generalizing b with
  | nil => exact absurd hb (Nat.not_le_of_lt h)
  | cons byte bytes ih =>
    have hsound : ((Change.write byte).perform b).value.Sound := sound_write hb byte
    have hlength : ((Change.write byte).perform b).value.length = b.length + 1 := length_write b byte
    rw [List.length_cons] at h
    by_cases hfull : (Change.write byte).Outgrows b
    · -- the block is full, and grows for this byte
      obtain ⟨hcapacity, hevents⟩ := perform_of_outgrows hfull
      have hnext : b.length = b.capacity := hfull
      rw [Change.lengthFrom, hnext, grownCapacity_succ] at hcapacity hevents
      refine ⟨_, bytes, hsound, hcapacity, ?_, ?_⟩
      · rw [hlength, List.length_cons]
        omega
      · rw [List.map_cons, events_run_cons, growths_append, hevents, hcapacity]
        rfl
    · obtain ⟨hevents, hcapacity⟩ := perform_of_room hfull
      obtain ⟨b', rest, hsound', hcapacity', hlength', hgrowths⟩ :=
        ih hsound (by rw [hlength, hcapacity]; omega)
      rw [hcapacity] at hcapacity' hgrowths
      refine ⟨b', rest, hsound', hcapacity', ?_, ?_⟩
      · rw [hlength', hlength, List.length_cons]
        omega
      · rw [List.map_cons, events_run_cons, hevents]
        exact hgrowths

/-- At most twelve bytes make a block grow at most twice, and twice just where the first growth
leaves too little room for them. -/
theorem growths_writes {b : Buffer} (hb : b.Sound) {bytes : List UInt8} (hfew : bytes.length ≤ 12) :
    (growths (run b (bytes.map .write)).events).length ≤ 2
      ∧ ((growths (run b (bytes.map .write)).events).length ≤ 1
        ↔ b.length + bytes.length ≤ max (2 * b.capacity) 12) := by
  have hsound : b.length ≤ b.capacity := hb
  by_cases hroom : b.length + bytes.length ≤ b.capacity
  · rw [events_writes_of_room hroom]
    refine ⟨Nat.zero_le _, ?_⟩
    exact iff_of_true (Nat.zero_le _) (by omega)
  · obtain ⟨b', rest, hb', hcapacity, hlength, hgrowths⟩ := exists_growth hb (Nat.lt_of_not_le hroom)
    rw [hgrowths, List.length_cons, ← hlength]
    by_cases hroom' : b'.length + rest.length ≤ b'.capacity
    · rw [events_writes_of_room hroom']
      refine ⟨by decide, ?_⟩
      exact iff_of_true (Nat.le_refl 1) (hcapacity ▸ hroom')
    · -- the second growth doubles at least twelve bytes, so there is no third
      obtain ⟨b'', rest', -, hcapacity', hlength', hgrowths'⟩ :=
        exists_growth hb' (Nat.lt_of_not_le hroom')
      have hlast : b''.length + rest'.length ≤ b''.capacity := by omega
      rw [hgrowths', events_writes_of_room hlast]
      refine ⟨Nat.le_refl 2, ?_⟩
      exact iff_of_false (Nat.not_succ_le_self 1) (hcapacity ▸ hroom')

end ValueStream.Buffer
