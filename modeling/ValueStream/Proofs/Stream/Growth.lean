import ValueStream.Proofs.Buffer.Growth
import ValueStream.Proofs.Stream.Block

/-!
How a block grows under changes, and under one write of a stream.

`run_growth` puts together what is known of a buffer's capacity: where it
changes, what it changes to, what is reported of that, and how it is bounded.
One integer never makes a block grow twice. A value of two integers does where
the block was full at a small size and the first growth leaves less room than
the value takes (`write_grows_once_iff`): the floor is on the size of the block
and not on the room behind what is committed.
-/

namespace ValueStream

open Trace Traced Buffer

theorem Buffer.length_writes (b : Buffer) (bytes : List UInt8) :
    (run b (bytes.map .write)).value.length = b.length + bytes.length := by
  induction bytes generalizing b with
  | nil => rfl
  | cons byte bytes ih =>
    have hfirst : ((Change.write byte).perform b).value.length = b.length + 1 := length_write b byte
    rw [List.map_cons, value_run_cons, ih, hfirst, List.length_cons]
    omega

/-- Committing at most twelve bytes makes a sound block grow at most twice, and at most once just
where what is committed then fits the size of the first growth. -/
theorem Commits.growths {σ : Type} {block : σ → Buffer} {s : σ} {x : Traced σ} {n : Nat}
    (h : Commits block n s x) (hn : n ≤ 12) (hs : (block s).Sound) :
    (Buffer.growths x.events).length ≤ 2
      ∧ ((Buffer.growths x.events).length ≤ 1
        ↔ (block x.value).length ≤ max (2 * (block s).capacity) 12)
      ∧ (block x.value).length ≤ (block s).length + n := by
  obtain ⟨bytes, hbytes, hvalue, hevents⟩ := h
  obtain ⟨htwo, honce⟩ := growths_writes hs (Nat.le_trans hbytes hn)
  rw [hevents, hvalue, length_writes]
  exact ⟨htwo, honce, Nat.add_le_add_left hbytes _⟩

namespace Codec.Writer

/-- The block of a stream is one that changes of a fresh buffer lead to. -/
theorem exists_run_of_reached (c : Codec) (capacity : Nat) (calls : List (Call (Path × Value))) :
    ∃ cs, (Call.run Path.put (c.writer capacity) calls).value.2.buffer
      = (Buffer.run (ofCapacity capacity) cs).value := by
  have hfresh : (c.writer capacity).buffer = ofCapacity capacity := by cases c <;> rfl
  rw [← hfresh]
  exact exists_changes_run _ _

theorem sound_of_reached (c : Codec) (capacity : Nat) (calls : List (Call (Path × Value))) :
    (Call.run Path.put (c.writer capacity) calls).value.2.buffer.Sound := by
  obtain ⟨cs, hcs⟩ := exists_run_of_reached c capacity calls
  rw [hcs]
  exact (cell_run (sound_ofCapacity capacity) cs).1

/-- Six bytes always fit what a block grows to first. -/
theorem growths_writeInt {w : Writer} (h : w.buffer.Sound) (v : UInt32) :
    (growths (IntWriter.writeInt w v).events).length ≤ 1 := by
  have hsound : w.buffer.length ≤ w.buffer.capacity := h
  obtain ⟨-, honce, hlength⟩ := (commits_writeInt w v).growths (by decide) h
  exact honce.mpr (by omega)

end Codec.Writer

/-- The committed bytes of a buffer are always allocated. A change makes the block grow just where
it finds no room, and then to the least size that holds what it needs among the doublings of twice
the old size or the floor; it is reported, the reported growths lead from the first capacity to the
last, and no capacity is more than twice the largest length reached, the floor and the first one
apart. On a stream of either codec, whatever was called on it, an integer makes its block grow at
most once. -/
theorem Buffer.run_growth (capacity : Nat) (cs : List Change) :
    let r := run (ofCapacity capacity) cs
    let b := r.value
    b.length ≤ b.capacity
      ∧ (∀ c : Change,
        let next := c.perform b
        b.capacity ≤ next.value.capacity
          ∧ (¬c.Outgrows b → next.value.capacity = b.capacity ∧ next.events = [])
          ∧ (c.Outgrows b → next.events = [.growing b.capacity next.value.capacity b.length]
            ∧ IsLeast {m | c.lengthFrom b.length ≤ m ∧ ∃ j, m = max (2 * b.capacity) 12 * 2 ^ j}
              next.value.capacity))
      ∧ Leads capacity (growths r.events) b.capacity
      ∧ b.capacity ≤ max capacity (max 12 (2 * peak 0 cs))
      ∧ ∀ (codec : Codec) (calls : List (Call (Path × Value))) (v : UInt32),
        (growths (IntWriter.writeInt (Call.run Path.put (codec.writer capacity) calls).value.2
          v).events).length ≤ 1 := by
  intro r b
  have hfresh : (ofCapacity capacity).capacity = capacity := Array.size_replicate
  have hleads := leads_run (ofCapacity capacity) cs
  have hpeak := capacity_run_le (sound_ofCapacity capacity) cs
  rw [hfresh] at hleads hpeak
  refine ⟨(cell_run (sound_ofCapacity capacity) cs).1, fun c => ⟨capacity_le_perform b c, ?_, ?_⟩,
    hleads, hpeak, fun codec calls v => ?_⟩
  · intro hroom
    exact (perform_of_room hroom).symm
  · intro hout
    obtain ⟨hcapacity, hevents⟩ := perform_of_outgrows hout
    rw [hcapacity]
    exact ⟨hevents, isLeast_grownCapacity _ _⟩
  · exact Codec.Writer.growths_writeInt (Codec.Writer.sound_of_reached codec capacity calls) v

/-- A block of three bytes that is filled and then left far behind. -/
theorem Buffer.run_growth_over_a_move :
    let cs : List Change := [.write 1, .setLength 3, .write 2, .setLength 30, .setLength 0]
    let r := run (ofCapacity 3) cs
    let c : Change := .setLength 100
    growths r.events = [(3, 12), (12, 48)]
      ∧ Leads 3 (growths r.events) r.value.capacity
      ∧ r.value.capacity ≤ max 3 (max 12 (2 * 30))
      ∧ c.Outgrows r.value
      ∧ IsLeast {m | 100 ≤ m ∧ ∃ j, m = max (2 * r.value.capacity) 12 * 2 ^ j}
        (c.perform r.value).value.capacity := by
  intro cs r c
  obtain ⟨-, hchange, hleads, hpeak, -⟩ := run_growth 3 cs
  have hout : c.Outgrows r.value := by decide +kernel
  have hgrowths : growths r.events = [(3, 12), (12, 48)] := by decide +kernel
  exact ⟨hgrowths, hleads, hpeak, hout, ((hchange c).2.2 hout).2⟩

/-- A value makes the block of a stream grow at most twice, whatever was called on the stream. It
grows at most once just where the value fits what the block grows to first, and always where the
stream began with an empty block or with one not below the floor. -/
theorem Codec.Writer.write_grows_once_iff (c : Codec) (capacity : Nat)
    (calls : List (Call (Path × Value))) (p : Path) (v : Value) :
    let w := (Call.run Path.put (c.writer capacity) calls).value.2
    let r := p.write w v
    (growths r.events).length ≤ 2
      ∧ ((growths r.events).length ≤ 1
        ↔ IntWriter.length r.value ≤ max (2 * w.buffer.capacity) 12)
      ∧ (capacity = 0 ∨ 12 ≤ capacity → (growths r.events).length ≤ 1) := by
  intro w r
  have hsound : w.buffer.Sound := sound_of_reached c capacity calls
  have hallocated : w.buffer.length ≤ w.buffer.capacity := hsound
  obtain ⟨htwo, honce, hlength⟩ := (commits_put w (p, v)).growths (Nat.le_refl 12) hsound
  refine ⟨htwo, honce, fun hcapacity => honce.mpr ?_⟩
  -- a capacity from one to eleven is one that the stream began with
  have hlarge : w.buffer.capacity = 0 ∨ 12 ≤ w.buffer.capacity := by
    obtain ⟨cs, hcs⟩ : ∃ cs, w.buffer = (Buffer.run (ofCapacity capacity) cs).value :=
      exists_run_of_reached c capacity calls
    have hreached := capacity_run_eq_or (ofCapacity capacity) cs
    rw [← hcs] at hreached
    have hfirst : (ofCapacity capacity).capacity = capacity := Array.size_replicate
    omega
  omega

/-- A block of twelve bytes that is full when a value of twelve bytes comes. -/
theorem Codec.Writer.write_grows_once_iff_of_twelve :
    let v : Value := .double ⟨0xFFFFFFFFFFFFFFFF⟩
    let w := (Call.run Path.put (Codec.sparse.writer 12) [.write (.word, v)]).value.2
    w.buffer.length = w.buffer.capacity ∧ 12 ≤ 12
      ∧ (growths (Path.operation.write w v).events).length ≤ 1 := by
  intro v w
  have hfull : w.buffer.length = w.buffer.capacity := by decide +kernel
  obtain ⟨-, -, honce⟩ := write_grows_once_iff .sparse 12 [.write (.word, v)] .operation v
  exact ⟨hfull, Nat.le_refl 12, honce (Or.inr (Nat.le_refl 12))⟩

/-- A block of one byte that is full when a value of twelve bytes comes: twelve are one too few. -/
theorem Codec.Writer.double_grows_twice :
    let w := (Call.run Path.put (Codec.sparse.writer 1) [.write (.operation, .int 1)]).value.2
    let r := Path.operation.write w (.double ⟨0xFFFFFFFFFFFFFFFF⟩)
    r.events = [.growing 1 12 1, .growing 12 24 12] ∧ IntWriter.length r.value = 13 := by
  decide +kernel

end ValueStream
