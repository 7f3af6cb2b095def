import ValueStream.Proofs.Buffer

/-!
A buffer as an unbounded memory of zeros with a length.

A run is a list of changes, each of them a write or a move of the length. What
the buffer shows after a run is read off the run alone: `writes` lists the bytes
with the places they go to, and at each place the latest of them stands
(`cell_run`), also one that was cut off in between and lies behind the length
that has moved on again. Capacities do not come into it, nor does when the block
grew (`run_eq_memory`).
-/

namespace ValueStream.Buffer

open Trace Traced

/-- A change of a buffer. -/
inductive Change where
  | write (byte : UInt8)
  | setLength (length : Nat)
  deriving DecidableEq

namespace Change

def perform (b : Buffer) : Change → Traced Buffer
  | write byte => b.write byte
  | setLength length => b.setLength length

/-- The length that a change of a buffer of this length leaves. -/
def lengthFrom (length : Nat) : Change → Nat
  | write _ => length + 1
  | setLength moved => moved

end Change

/-- Make changes one after the other. -/
def run (b : Buffer) (cs : List Change) : Traced Buffer := cs.foldlM Change.perform b

/-- The bytes that changes write, each with the place it goes to, oldest first, where
the buffer has this length at first. -/
def writes (length : Nat) : List Change → List (Nat × UInt8)
  | [] => []
  | .write byte :: cs => (length, byte) :: writes (length + 1) cs
  | .setLength moved :: cs => writes moved cs

/-- The lengths that changes go through, the first and the last among them. -/
def lengths (length : Nat) (cs : List Change) : List Nat := cs.scanl Change.lengthFrom length

/-- The byte written last at a place, or the one that stands there without any write. -/
def latest (before : UInt8) (log : List (Nat × UInt8)) (place : Nat) : UInt8 :=
  (log.reverse.lookup place).getD before

theorem latest_cons (before : UInt8) (place : Nat) (byte : UInt8) (log : List (Nat × UInt8))
    (i : Nat) :
    latest before ((place, byte) :: log) i = latest (if i = place then byte else before) log i := by
  have hone : [(place, byte)].lookup i = if i = place then some byte else none := by
    by_cases h : i = place
    · rw [if_pos h, h, List.lookup_cons_self]
    · rw [if_neg h, List.lookup_cons, beq_false_of_ne h, List.lookup_nil]
  rw [latest, latest, List.reverse_cons, List.lookup_append, hone]
  cases log.reverse.lookup i with
  | some last => rfl
  | none => split <;> rfl

/-! ## One change, and a run -/

/-- A change leaves a sound buffer of the length it says, with the bytes it writes. -/
theorem perform_spec {b : Buffer} (h : b.Sound) (c : Change) :
    (c.perform b).value.Sound ∧ (c.perform b).value.length = c.lengthFrom b.length
      ∧ ∀ i, (c.perform b).value.cell i = latest (b.cell i) (writes b.length [c]) i := by
  cases c with
  | write byte =>
    refine ⟨sound_write h byte, length_write b byte, fun i => ?_⟩
    rw [Change.perform, cell_write h, writes, latest_cons]
    rfl
  | setLength moved =>
    exact ⟨sound_setLength b moved, length_setLength b moved, fun i => cell_setLength b moved i⟩

theorem latest_writes_cons (b : Buffer) (c : Change) (cs : List Change) (i : Nat) :
    latest (b.cell i) (writes b.length (c :: cs)) i
      = latest (latest (b.cell i) (writes b.length [c]) i)
        (writes (c.lengthFrom b.length) cs) i := by
  cases c with
  | write byte =>
    simp only [writes, latest_cons]
    rfl
  | setLength moved => rfl

/-- Whatever the changes are, each cell holds the byte written to it last. -/
theorem cell_run {b : Buffer} (h : b.Sound) (cs : List Change) :
    (run b cs).value.Sound ∧ (run b cs).value.length = cs.foldl Change.lengthFrom b.length
      ∧ ∀ i, (run b cs).value.cell i = latest (b.cell i) (writes b.length cs) i := by
  induction cs generalizing b with
  | nil => exact ⟨h, rfl, fun i => rfl⟩
  | cons c cs ih =>
    obtain ⟨hsound, hlength, hcell⟩ := perform_spec h c
    obtain ⟨hend, hlast, hcells⟩ := ih hsound
    rw [hlength] at hlast hcells
    refine ⟨hend, hlast, fun i => ?_⟩
    rw [latest_writes_cons, ← hcell]
    exact hcells i

/-! ## What is shown -/

theorem getElem?_bytes {b : Buffer} (h : b.Sound) {i : Nat} (hi : i < b.length) :
    b.bytes[i]? = some (b.cell i) := by
  rw [← Array.getElem?_toList, bytes_eq h, List.getElem?_map, List.getElem?_range hi]
  rfl

theorem bytes_congr {b b' : Buffer} (h : b.Sound) (h' : b'.Sound) (hlength : b.length = b'.length)
    (hcell : ∀ i, b.cell i = b'.cell i) : b.bytes = b'.bytes := by
  apply Array.toList_inj.mp
  rw [bytes_eq h, bytes_eq h', hlength]
  exact List.map_congr_left (fun i _ => hcell i)

theorem cell_ofCapacity (capacity i : Nat) : (ofCapacity capacity).cell i = 0 := by
  rw [cell, ofCapacity, Array.getElem?_replicate]
  split <;> rfl

theorem last_mem_lengths (length : Nat) (cs : List Change) :
    cs.foldl Change.lengthFrom length ∈ lengths length cs :=
  List.mem_of_getLast? List.getLast?_scanl

/-- Changes at lengths from `k` on write nothing before `k`. -/
theorem latest_of_lengths {length k : Nat} {cs : List Change}
    (h : ∀ n ∈ lengths length cs, k ≤ n) {i : Nat} (hi : i < k) (before : UInt8) :
    latest before (writes length cs) i = before := by
  induction cs generalizing length with
  | nil => rfl
  | cons c cs ih =>
    rw [lengths, List.scanl_cons] at h
    have hrest : ∀ n ∈ lengths (c.lengthFrom length) cs, k ≤ n :=
      fun n hn => h n (List.mem_cons_of_mem _ hn)
    cases c with
    | write byte =>
      have hk : k ≤ length := h length List.mem_cons_self
      have hne : i ≠ length := by omega
      rw [writes, latest_cons, if_neg hne]
      exact ih hrest
    | setLength moved => exact ih hrest

/-- Changes at lengths from `k` on leave the first `k` bytes as they are. -/
theorem take_bytes_run {b : Buffer} (h : b.Sound) {k : Nat} {cs : List Change}
    (hcs : ∀ n ∈ lengths b.length cs, k ≤ n) :
    (run b cs).value.bytes.toList.take k = b.bytes.toList.take k := by
  obtain ⟨hsound, hlength, hcell⟩ := cell_run h cs
  have hfirst : k ≤ b.length := hcs _ (by cases cs <;> simp [lengths])
  have hlast : k ≤ (run b cs).value.length := hlength ▸ hcs _ (last_mem_lengths _ cs)
  rw [bytes_eq hsound, bytes_eq h, ← List.map_take, ← List.map_take, List.take_range,
    List.take_range, Nat.min_eq_left hlast, Nat.min_eq_left hfirst]
  refine List.map_congr_left (fun i hi => ?_)
  rw [hcell, latest_of_lengths hcs (List.mem_range.mp hi)]

/-- After any changes the length is the one they say, and at each place before it stands the
byte written there last, also one that was cut off since, or zero where none was written.
Other changes in a block of another capacity show the same bytes if they wrote the same and
end at the same length, and changes at lengths from `k` on leave the first `k` bytes alone. -/
theorem run_eq_memory (capacity : Nat) (cs : List Change) :
    let b := (run (ofCapacity capacity) cs).value
    b.length = cs.foldl Change.lengthFrom 0
      ∧ b.bytes.size = b.length
      ∧ (∀ i < b.length, b.bytes[i]? = some (latest 0 (writes 0 cs) i))
      ∧ (∀ (other : Nat) (ds : List Change), writes 0 ds = writes 0 cs →
          ds.foldl Change.lengthFrom 0 = b.length →
          (run (ofCapacity other) ds).value.bytes = b.bytes)
      ∧ ∀ (k : Nat) (later : List Change), (∀ n ∈ lengths b.length later, k ≤ n) →
          (run b later).value.bytes.toList.take k = b.bytes.toList.take k := by
  intro b
  obtain ⟨hsound, hlength, hcell⟩ := cell_run (sound_ofCapacity capacity) cs
  have hmemory : ∀ i, b.cell i = latest 0 (writes 0 cs) i := fun i => by
    rw [hcell, cell_ofCapacity]
    rfl
  refine ⟨hlength, ?_, ?_, ?_, fun k later hlater => take_bytes_run hsound hlater⟩
  · rw [← Array.length_toList]
    exact length_bytes hsound
  · intro i hi
    rw [← hmemory]
    exact getElem?_bytes hsound hi
  · intro other ds hwrites hend
    obtain ⟨hsound', hlength', hcell'⟩ := cell_run (sound_ofCapacity other) ds
    refine bytes_congr hsound' hsound (hlength'.trans hend) (fun i => ?_)
    rw [hmemory, hcell', cell_ofCapacity, ← hwrites]
    rfl

/-- A block of three bytes that is cut off, overwritten in part and moved far out: the second
byte is seen again, and behind it are zeros. The same bytes come of a larger block that grows
otherwise, and of changes behind them. -/
theorem run_eq_memory_after_cuts :
    let cs : List Change := [.write 7, .write 8, .setLength 0, .write 9, .setLength 5]
    let ds : List Change :=
      [.write 7, .write 8, .setLength 40, .setLength 0, .write 9, .setLength 5]
    let later : List Change := [.write 1, .setLength 2, .write 2, .setLength 30]
    let b := (run (ofCapacity 3) cs).value
    b.bytes = #[9, 8, 0, 0, 0]
      ∧ (run (ofCapacity 64) ds).value.bytes = b.bytes
      ∧ (run b later).value.bytes.toList.take 2 = [9, 8] := by
  intro cs ds later b
  obtain ⟨hlength, -, -, hsame, hkept⟩ := run_eq_memory 3 cs
  have hb : b.bytes = #[9, 8, 0, 0, 0] := by decide +kernel
  refine ⟨hb, hsame 64 ds rfl hlength.symm, ?_⟩
  rw [hkept 2 later (by decide), hb]
  rfl

end ValueStream.Buffer
