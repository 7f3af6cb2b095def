import ValueStream.Proofs.Checked.Reader
import ValueStream.Proofs.Checked.Writer

/-!
Runs on streams and their copies, with every step checked.

A run begins with one stream and does one act after the other: something with one
of the streams that are held, or a copy of one of them, which is held from then
on. `Safe` is what a single step has to show so that no run of steps stops
(`Safe.run`): it keeps an invariant, and as long as it begins and ends near, it
does with the checks what it does without them. The steps of both codecs are
safe, and what comes of that for every run of write streams and of read streams
is `run_stops_nowhere`.
-/

namespace ValueStream

open Trace Traced Checked Buffer

/-- An act on the streams that are held. -/
inductive Act (α : Type) where
  /-- Do something with a stream. -/
  | on (i : Nat) (a : α)
  /-- Hold a copy of a stream besides. -/
  | copy (i : Nat)
  deriving DecidableEq

namespace Act

section

variable {m : Type → Type} [Monad m] {σ α β : Type}

/-- Do an act; where there is no such stream nothing happens. -/
def perform (step : σ → α → m (β × σ)) (held : List σ) : Act α → m (Option β × List σ)
  | on i a =>
    match held[i]? with
    | none => pure (none, held)
    | some s => do
      let (b, s) ← step s a
      pure (some b, held.set i s)
  | copy i => pure (none, held ++ held[i]?.toList)

/-- Do acts one after the other; their answers, and the streams held in the end. -/
def run (step : σ → α → m (β × σ)) (held : List σ) : List (Act α) → m (List (Option β) × List σ)
  | [] => pure ([], held)
  | act :: acts => do
    let (b, held) ← perform step held act
    let (bs, held) ← run step held acts
    pure (b :: bs, held)

end

variable {σ α β : Type}

/-- Every stream held is near, before the acts and after each of them. -/
def Within (near : σ → Prop) (step : σ → α → Traced (β × σ)) (held : List σ) :
    List (Act α) → Prop
  | [] => ∀ s ∈ held, near s
  | act :: acts => (∀ s ∈ held, near s) ∧ Within near step (perform step held act).value.2 acts

instance decidableWithin (near : σ → Prop) [DecidablePred near] (step : σ → α → Traced (β × σ)) :
    (held : List σ) → (acts : List (Act α)) → Decidable (Within near step held acts)
  | held, [] => inferInstanceAs (Decidable (∀ s ∈ held, near s))
  | held, act :: acts =>
    have := decidableWithin near step (perform step held act).value.2 acts
    inferInstanceAs (Decidable (_ ∧ _))

variable {near P : σ → Prop} {step : σ → α → Traced (β × σ)} {held : List σ}

theorem Within.now {acts : List (Act α)} (h : Within near step held acts) : ∀ s ∈ held, near s := by
  cases acts with
  | nil => exact h
  | cons act acts => exact h.1

/-- A stream that is held after an act was held before, or is what the step made of one that was. -/
theorem mem_perform {act : Act α} {s : σ} (h : s ∈ (perform step held act).value.2) :
    s ∈ held ∨ ∃ s₀ ∈ held, ∃ a, s = (step s₀ a).value.2 := by
  cases act with
  | on i a =>
    rw [perform] at h
    split at h
    · exact .inl h
    · next s₀ hs₀ =>
      rcases List.mem_or_eq_of_mem_set h with hold | hnew
      · exact .inl hold
      · exact .inr ⟨s₀, List.mem_of_getElem? hs₀, a, hnew⟩
  | copy i =>
    rcases List.mem_append.mp h with hold | hcopy
    · exact .inl hold
    · exact .inl (List.mem_of_getElem? (Option.mem_toList.mp hcopy))

/-- What the step makes of a stream is held afterwards. -/
theorem step_mem_perform {i : Nat} {s : σ} (hs : held[i]? = some s) (a : α) :
    (step s a).value.2 ∈ (perform step held (on i a)).value.2 := by
  have hi : i < held.length := (List.getElem?_eq_some_iff.mp hs).1
  simp only [perform, hs]
  exact List.mem_set hi _

/-- What every step keeps holds of every stream after every run. -/
theorem forall_run (hstep : ∀ s a, P s → P (step s a).value.2) (h : ∀ s ∈ held, P s)
    (acts : List (Act α)) : ∀ s ∈ (run step held acts).value.2, P s := by
  induction acts generalizing held with
  | nil => exact h
  | cons act acts ih =>
    have hnext : ∀ s ∈ (perform step held act).value.2, P s := by
      intro s hs
      rcases mem_perform hs with hold | ⟨s₀, hs₀, a, rfl⟩
      · exact h s hold
      · exact hstep s₀ a (h s₀ hs₀)
    exact ih hnext

end Act

/-- A step that begins and ends near keeps the invariant, and stops nowhere. -/
structure Safe {σ α β : Type} (Inv near : σ → Prop) (checked : σ → α → Checked (β × σ))
    (step : σ → α → Traced (β × σ)) : Prop where
  keeps : ∀ s a, Inv s → near s → near (step s a).value.2 → Inv (step s a).value.2
  agrees : ∀ s a, Inv s → near s → near (step s a).value.2 → checked s a = liftM (step s a)

namespace Safe

variable {σ α β : Type} {Inv near : σ → Prop} {checked : σ → α → Checked (β × σ)}
  {step : σ → α → Traced (β × σ)} {held : List σ}

theorem perform (S : Safe Inv near checked step) (act : Act α) (h : ∀ s ∈ held, Inv s)
    (hbefore : ∀ s ∈ held, near s) (hafter : ∀ s ∈ (act.perform step held).value.2, near s) :
    act.perform checked held = liftM (act.perform step held)
      ∧ ∀ s ∈ (act.perform step held).value.2, Inv s := by
  constructor
  · cases act with
    | on i a =>
      cases hs : held[i]? with
      | none =>
        simp only [Act.perform, hs]
        rfl
      | some s =>
        -- the step ends near, since what it leaves is among what is held afterwards
        have hmem := List.mem_of_getElem? hs
        have hend := hafter _ (Act.step_mem_perform hs a)
        simp only [Act.perform, hs]
        exact bind_eq_liftM (S.agrees s a (h s hmem) (hbefore s hmem) hend) rfl
    | copy i => rfl
  · intro s hs
    rcases Act.mem_perform hs with hold | ⟨s₀, hs₀, a, rfl⟩
    · exact h s hold
    · exact S.keeps s₀ a (h s₀ hs₀) (hbefore s₀ hs₀) (hafter _ hs)

/-- No run within the bounds stops, and the streams it leaves are as its first was. -/
theorem run (S : Safe Inv near checked step) {acts : List (Act α)} (h : ∀ s ∈ held, Inv s)
    (hwithin : Act.Within near step held acts) :
    Act.run checked held acts = liftM (Act.run step held acts)
      ∧ ∀ s ∈ (Act.run step held acts).value.2, Inv s ∧ near s := by
  induction acts generalizing held with
  | nil => exact ⟨rfl, fun s hs => ⟨h s hs, hwithin s hs⟩⟩
  | cons act acts ih =>
    obtain ⟨hbefore, hrest⟩ := hwithin
    obtain ⟨hfirst, hkept⟩ := S.perform act h hbefore hrest.now
    obtain ⟨hrun, hend⟩ := ih hkept hrest
    refine ⟨?_, hend⟩
    rw [Act.run, Act.run]
    apply bind_eq_liftM hfirst
    exact bind_eq_liftM hrun rfl

end Safe

/-! ## Streams of either codec -/

/-- The greatest place of a run, far from where the machine has no more. -/
def Checked.farthest : Nat := 0x1000000000000000

namespace Codec

def writerChecked (c : Codec) (capacity : Nat) : Checked Writer := do
  let buffer ← ofCapacityChecked capacity
  match c with
  | sparse => pure (.sparse ⟨buffer, 0, 0⟩)
  | dense => pure (.dense ⟨buffer⟩)

theorem writerChecked_eq (c : Codec) {capacity : Nat} (h : capacity ≤ largestBlock) :
    c.writerChecked capacity = pure (c.writer capacity) := by
  rw [writerChecked, ofCapacityChecked, require_of h, pure_bind]
  cases c <;> rfl

namespace Writer

variable {c : Codec} {w : Writer}

/-- The block could be allocated, whatever is waiting besides. -/
structure Allocated (c : Codec) (w : Writer) : Prop where
  sound : Sound c w
  block : w.buffer.capacity ≤ largestBlock

theorem Sound.buffer (h : Sound c w) : w.buffer.Sound := by
  match c, w, h with
  | .sparse, sparse w, h => exact Sparse.Writer.Sound.buffer h
  | .dense, dense w, h => exact h

/-- Less than a byte waits on a sparse stream, and nothing stands above it. -/
theorem Sound.cursor (h : Sound c w) : ∀ s, w = sparse s →
    s.pendingBits.toNat ≤ 7 ∧ s.pending.toNat < 2 ^ s.pendingBits.toNat := by
  rintro s rfl
  match c, h with
  | .sparse, h =>
    have hsound : s.Sound := h
    exact ⟨Nat.le_of_lt_succ hsound.few, hsound.clean⟩

theorem allocated_writer (c : Codec) {capacity : Nat} (h : capacity ≤ largestBlock) :
    Allocated c (c.writer capacity) := by
  have hcapacity : (c.writer capacity).buffer.capacity = capacity := by
    cases c <;> exact Array.size_replicate
  exact ⟨c.sound_writer capacity, hcapacity.trans_le h⟩

theorem Allocated.ample (h : Allocated c w) (hnear : IntWriter.length w ≤ farthest) :
    Ample 12 w.buffer := by
  refine ⟨h.sound.buffer, ?_, h.block⟩
  have hlength : w.buffer.length ≤ farthest := hnear
  unfold farthest at hlength
  unfold reach
  omega

theorem safe (c : Codec) : Safe (Allocated c) (fun w => IntWriter.length w ≤ farthest)
    performChecked (Call.perform Path.put) where
  keeps w call h hbefore hafter := by
    have hend := Nat.le_trans hafter (by decide : farthest ≤ reach)
    exact ⟨sound_perform h.sound call, (ample_perform (h.ample hbefore) hend).allocated⟩
  agrees w call h hbefore hafter := by
    have hend := Nat.le_trans hafter (by decide : farthest ≤ reach)
    exact performChecked_eq h.sound (h.ample hbefore) hend

end Writer

theorem Reader.safe (data : Array UInt8) (c : Codec) :
    Safe (Sound data c) (fun r => IntReader.position r ≤ farthest) performChecked
      (fun r q => pure (Request.perform r q)) where
  keeps r q h _ _ := sound_perform h q
  agrees r q h hbefore _ := by
    apply performChecked_eq h
    unfold farthest at hbefore
    omega

end Codec

/-- On every run of calls, roll-backs to any place and copies among them, the committed bytes of
each write stream are allocated, and what waits is less than a byte with nothing above it; on every
run of reads and seeks over any bytes the offset of each read stream is inside a byte. As long as
the places are far below the end of the numbers no step of such a run stops: no shift is by the
width of the word, no count leaves its type, no index is outside the block. -/
theorem run_stops_nowhere (c : Codec) :
    (∀ (capacity : Nat) (acts : List (Act (Call (Path × Value)))),
      let run := Act.run (Call.perform Path.put) [c.writer capacity] acts
      (∀ w ∈ run.value.2, w.buffer.length ≤ w.buffer.capacity ∧ ∀ s, w = .sparse s →
          s.pendingBits.toNat ≤ 7 ∧ s.pending.toNat < 2 ^ s.pendingBits.toNat)
        ∧ (capacity ≤ largestBlock →
          Act.Within (fun w => IntWriter.length w ≤ farthest) (Call.perform Path.put)
            [c.writer capacity] acts →
          (do
            let w ← c.writerChecked capacity
            Act.run Codec.Writer.performChecked [w] acts) = liftM run
          ∧ ∀ w ∈ run.value.2, w.bytesChecked = pure (IntWriter.bytes w)
            ∧ w.finishChecked = liftM (IntWriter.finish w)))
    ∧ ∀ (data : Array UInt8) (position : Nat) (acts : List (Act Request)),
      let step : Codec.Reader → Request → Traced (Option Value × Codec.Reader) :=
        fun r q => pure (q.perform r)
      let run := Act.run step [c.reader data position] acts
      (∀ r ∈ run.value.2, ∀ b ∈ r.bit?, b.toNat ≤ 7)
        ∧ (Act.Within (fun r => IntReader.position r ≤ farthest) step [c.reader data position] acts →
          Act.run Codec.Reader.performChecked [c.reader data position] acts = liftM run) := by
  constructor
  · intro capacity acts run
    -- soundness needs no bound: a roll-back that would allocate too much leaves a sound stream too
    have hsound : ∀ w ∈ run.value.2, Codec.Writer.Sound c w := by
      apply Act.forall_run (fun _ call h => Codec.Writer.sound_perform h call)
      exact List.forall_mem_singleton.mpr (c.sound_writer capacity)
    refine ⟨fun w hw => ⟨(hsound w hw).buffer, (hsound w hw).cursor⟩, ?_⟩
    intro hcapacity hwithin
    have hfirst := List.forall_mem_singleton.mpr (Codec.Writer.allocated_writer c hcapacity)
    obtain ⟨hrun, hend⟩ := (Codec.Writer.safe c).run hfirst hwithin
    constructor
    · rw [c.writerChecked_eq hcapacity, pure_bind]
      exact hrun
    · intro w hw
      obtain ⟨hallocated, hnear⟩ := hend w hw
      have hroom := hallocated.ample hnear
      exact ⟨bytesChecked_eq hroom.sound,
        Codec.Writer.finishChecked_eq hallocated.sound (hroom.mono (by decide))⟩
  · intro data position acts step run
    have hfirst := List.forall_mem_singleton.mpr (c.sound_reader data position)
    constructor
    · intro r hr
      have hsound := Act.forall_run (fun _ q h => Codec.Reader.sound_perform h q) hfirst acts r hr
      exact Codec.Reader.bit_le hsound
    · intro hwithin
      exact ((Codec.Reader.safe data c).run hfirst hwithin).1

/-- A copy is rolled forward, past what is allocated, while bits wait on the stream it was made of;
and bytes that no stream writes are read from inside a byte, and far past their end. -/
theorem run_stops_nowhere_forward_and_past_the_end :
    let acts : List (Act (Call (Path × Value))) :=
      [.on 0 (.write (.word, .int 0)), .copy 0, .on 1 (.write (.operation, .sint (-5))),
        .on 1 (.rollBack 40), .on 1 (.write (.kind, .double ⟨1⟩)), .on 0 .position]
    let run := Act.run (Call.perform Path.put) [Codec.sparse.writer 1] acts
    let data : Array UInt8 := #[0x7F, 0xFF, 0xFF, 0xFF, 0xFF, 0xFF, 0xFF, 0xFF]
    let requests : List (Act Request) :=
      [.on 0 (.read .word .bool), .copy 0, .on 0 (.read .kind .long), .on 1 (.seek 1000000),
        .on 1 (.read .operation .double), .on 0 (.read .word .byte)]
    let step : Codec.Reader → Request → Traced (Option Value × Codec.Reader) :=
      fun r q => pure (q.perform r)
    let reads := Act.run step [Codec.sparse.reader data 0] requests
    run.value.2.map IntWriter.length = [1, 46]
      ∧ (do
          let w ← Codec.sparse.writerChecked 1
          Act.run Codec.Writer.performChecked [w] acts) = liftM run
      ∧ reads.value.2.map Codec.Reader.bit? = [some 2, some 2]
      ∧ Act.run Codec.Reader.performChecked [Codec.sparse.reader data 0] requests = liftM reads := by
  intro acts run data requests step reads
  have hlengths : run.value.2.map IntWriter.length = [1, 46] := by decide +kernel
  have hbits : reads.value.2.map Codec.Reader.bit? = [some 2, some 2] := by decide +kernel
  have hwrites : Act.Within (fun w => IntWriter.length w ≤ farthest) (Call.perform Path.put)
      [Codec.sparse.writer 1] acts := by decide +kernel
  have hreads : Act.Within (fun r => IntReader.position r ≤ farthest) step
      [Codec.sparse.reader data 0] requests := by decide +kernel
  obtain ⟨hwriters, hreaders⟩ := run_stops_nowhere .sparse
  obtain ⟨hrun, -⟩ := (hwriters 1 acts).2 (by decide) hwrites
  exact ⟨hlengths, hrun, hbits, (hreaders data 0 requests).2 hreads⟩

end ValueStream
