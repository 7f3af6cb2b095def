import ValueStream.Proofs.Bits
import ValueStream.Stream.Writer

/-!
Calls on a write stream, and the bit list they build.

A run is a list of calls; `perform` makes one on a stream and `onBits` says
what it does to a plain list of bits, which knows neither buffers nor pending
bits. `Tracks` is what a stream has to show of its own operations so that the
two stay together: `Tracks.perform` for one call, `Tracks.run` for a run, and
`Tracks.finish` for the bytes that are taken in the end.
-/

namespace ValueStream

open Trace Traced Bits

/-- A call on a write stream that values of type `α` are written to. -/
inductive Call (α : Type) where
  | write (a : α)
  | position
  | startScope
  | align
  | rollBack (position : Nat)
  deriving DecidableEq

namespace Call

variable {σ α : Type} [IntWriter σ]

/-- Make a call, a value being written by `put`; the answer is an offset or nothing. -/
def perform (put : σ → α → Traced σ) (s : σ) : Call α → Traced (Option Nat × σ)
  | write a => do
    let s ← put s a
    pure (none, s)
  | position => do
    let (p, s) ← IntWriter.position s
    pure (some p, s)
  | startScope => do
    let (p, s) ← IntWriter.startScope s
    pure (some p, s)
  | align => do
    let s ← IntWriter.align s
    pure (none, s)
  | rollBack p => do
    let s ← IntWriter.rollBack s p
    pure (none, s)

/-- Make calls one after the other; their answers, and the stream in the end. -/
def run (put : σ → α → Traced σ) (s : σ) : List (Call α) → Traced (List (Option Nat) × σ)
  | [] => pure ([], s)
  | c :: cs => do
    let (a, s) ← perform put s c
    let (as, s) ← run put s cs
    pure (a :: as, s)

/-- The call moves the length back or leaves it: a roll-back is to what is committed. -/
def BackFrom (s : σ) : Call α → Prop
  | rollBack p => p ≤ IntWriter.length s
  | _ => True

/-- Every roll-back of the run is to what is committed when it is made. -/
def Backward (put : σ → α → Traced σ) (s : σ) : List (Call α) → Prop
  | [] => True
  | c :: cs => c.BackFrom s ∧ Backward put (perform put s c).value.2 cs

/-- What a call makes of a bit list, with its answer. -/
def onBits (code : α → List Bool) (bits : List Bool) : Call α → Option Nat × List Bool
  | write a => (none, bits ++ code a)
  | position => (some ((pad bits).length / 8), pad bits)
  | startScope => (some ((pad bits).length / 8), pad bits)
  | align => (none, pad bits)
  | rollBack p => (none, bits.take (8 * p))

/-- What a run makes of a bit list, with the answers. -/
def runOnBits (code : α → List Bool) (bits : List Bool) :
    List (Call α) → List (Option Nat) × List Bool
  | [] => ([], bits)
  | c :: cs =>
    let (a, bits) := c.onBits code bits
    let (as, bits) := runOnBits code bits cs
    (a :: as, bits)

instance (s : σ) (c : Call α) : Decidable (c.BackFrom s) := by
  cases c <;> unfold BackFrom <;> infer_instance

instance decidableBackward (put : σ → α → Traced σ) :
    (s : σ) → (cs : List (Call α)) → Decidable (Backward put s cs)
  | _, [] => inferInstanceAs (Decidable True)
  | s, c :: cs =>
    have := decidableBackward put (perform put s c).value.2 cs
    inferInstanceAs (Decidable (_ ∧ _))

theorem value_run_cons (put : σ → α → Traced σ) (s : σ) (c : Call α) (cs : List (Call α)) :
    (run put s (c :: cs)).value
      = ((perform put s c).value.1 :: (run put (perform put s c).value.2 cs).value.1,
        (run put (perform put s c).value.2 cs).value.2) := rfl

theorem runOnBits_cons (code : α → List Bool) (bits : List Bool) (c : Call α)
    (cs : List (Call α)) :
    runOnBits code bits (c :: cs)
      = ((c.onBits code bits).1 :: (runOnBits code (c.onBits code bits).2 cs).1,
        (runOnBits code (c.onBits code bits).2 cs).2) := rfl

/-- A run of two parts answers what the parts answer, the second begun where the first ends. -/
theorem runOnBits_append (code : α → List Bool) (bits : List Bool) (cs ds : List (Call α)) :
    runOnBits code bits (cs ++ ds)
      = ((runOnBits code bits cs).1 ++ (runOnBits code (runOnBits code bits cs).2 ds).1,
        (runOnBits code (runOnBits code bits cs).2 ds).2) := by
  induction cs generalizing bits with
  | nil => rfl
  | cons c cs ih => rw [List.cons_append, runOnBits_cons, runOnBits_cons, ih, List.cons_append]

end Call

/-- Streams that satisfy `Sound` stand for the bit list `bits`: a write appends
the code of what is written, flushing pads, and rolling back cuts off. The
committed bytes are those that the bits fill. -/
structure Tracks {σ α : Type} [IntWriter σ] (put : σ → α → Traced σ) (code : α → List Bool)
    (Sound : σ → Prop) (bits : σ → List Bool) : Prop where
  put : ∀ (s : σ) (a : α), Sound s →
    Sound (put s a).value ∧ bits (put s a).value = bits s ++ code a
  flush : ∀ s : σ, Sound s →
    Sound (IntWriter.flush s).value ∧ bits (IntWriter.flush s).value = pad (bits s)
  rollBack : ∀ (s : σ) (p : Nat), Sound s → p ≤ IntWriter.length s →
    Sound (IntWriter.rollBack s p).value
      ∧ bits (IntWriter.rollBack s p).value = (bits s).take (8 * p)
  length : ∀ s : σ, Sound s → IntWriter.length s = (bits s).length / 8
  bytes : ∀ s : σ, Sound s → (IntWriter.bytes s).toList = wholeBytes (bits s)

namespace Tracks

variable {σ α : Type} [IntWriter σ] {put : σ → α → Traced σ} {code : α → List Bool}
  {Sound : σ → Prop} {bits : σ → List Bool}

/-- One call keeps the stream sound and does to its bits what it does to a bit list. -/
theorem perform (T : Tracks put code Sound bits) {s : σ} (hs : Sound s) {c : Call α}
    (hc : c.BackFrom s) :
    Sound (c.perform put s).value.2
      ∧ c.onBits code (bits s) = ((c.perform put s).value.1, bits (c.perform put s).value.2) := by
  obtain ⟨hflush, hpad⟩ := T.flush s hs
  have hlength : IntWriter.length (IntWriter.flush s).value = (pad (bits s)).length / 8 := by
    rw [T.length _ hflush, hpad]
  cases c with
  | write a =>
    obtain ⟨hput, hbits⟩ := T.put s a hs
    exact ⟨hput, Prod.ext rfl hbits.symm⟩
  | position => exact ⟨hflush, Prod.ext (congrArg some hlength.symm) hpad.symm⟩
  | startScope => exact ⟨hflush, Prod.ext (congrArg some hlength.symm) hpad.symm⟩
  | align => exact ⟨hflush, Prod.ext rfl hpad.symm⟩
  | rollBack p =>
    obtain ⟨hroll, hbits⟩ := T.rollBack s p hs hc
    exact ⟨hroll, Prod.ext rfl hbits.symm⟩

/-- Writes one after the other append their codes one after the other. -/
theorem putAll (T : Tracks put code Sound bits) {s : σ} (hs : Sound s) (as : List α) :
    Sound (as.foldlM put s).value ∧ bits (as.foldlM put s).value = bits s ++ as.flatMap code := by
  induction as generalizing s with
  | nil => exact ⟨hs, (List.append_nil _).symm⟩
  | cons a as ih =>
    obtain ⟨hput, hbits⟩ := T.put s a hs
    obtain ⟨hend, hrest⟩ := ih hput
    refine ⟨hend, ?_⟩
    rw [List.foldlM_cons, value_bind, hrest, hbits, List.flatMap_cons, List.append_assoc]

/-- A run gives the answers and leaves the bits that it gives and leaves on a bit list. -/
theorem run (T : Tracks put code Sound bits) {s : σ} (hs : Sound s) {cs : List (Call α)}
    (hcs : Call.Backward put s cs) :
    Sound (Call.run put s cs).value.2
      ∧ Call.runOnBits code (bits s) cs
        = ((Call.run put s cs).value.1, bits (Call.run put s cs).value.2) := by
  induction cs generalizing s with
  | nil => exact ⟨hs, rfl⟩
  | cons c cs ih =>
    obtain ⟨hc, hrest⟩ := hcs
    obtain ⟨hsound, hbits⟩ := T.perform hs hc
    obtain ⟨hend, hrun⟩ := ih hsound hrest
    refine ⟨hend, ?_⟩
    rw [Call.runOnBits_cons, hbits, hrun, Call.value_run_cons]

/-- What is backward for a stream is backward for every stream of the same bits. -/
theorem backward_congr (T : Tracks put code Sound bits) {s s' : σ} (hs : Sound s) (hs' : Sound s')
    (h : bits s = bits s') {cs : List (Call α)} (hcs : Call.Backward put s cs) :
    Call.Backward put s' cs := by
  induction cs generalizing s s' with
  | nil => trivial
  | cons c cs ih =>
    obtain ⟨hc, hrest⟩ := hcs
    -- how far back a roll-back may go is read off the bits, which are the same
    have hc' : c.BackFrom s' := by
      cases c with
      | rollBack p =>
        show p ≤ IntWriter.length s'
        rw [T.length s' hs', ← h, ← T.length s hs]
        exact hc
      | write a => trivial
      | position => trivial
      | startScope => trivial
      | align => trivial
    obtain ⟨hnext, hbits⟩ := T.perform hs hc
    obtain ⟨hnext', hbits'⟩ := T.perform hs' hc'
    rw [← h, hbits] at hbits'
    exact ⟨hc', ih hnext hnext' (Prod.mk.inj hbits').2 hrest⟩

/-- The bytes taken in the end are the bits padded to a byte. -/
theorem finish (T : Tracks put code Sound bits) {s : σ} (hs : Sound s) :
    (IntWriter.finish s).value.toList = wholeBytes (pad (bits s)) := by
  obtain ⟨hflush, hpad⟩ := T.flush s hs
  rw [← hpad, ← T.bytes _ hflush]
  rfl

/-- A reader of the bytes sees the bits from the first one on. -/
theorem liesAt_finish (T : Tracks put code Sound bits) {s : σ} (hs : Sound s) :
    LiesAt (endless (IntWriter.finish s).value) 0 (bits s) := by
  have hbytes := T.finish hs
  have hwhole : (pad (bits s)).length % 8 = 0 := by rw [length_pad, Nat.mul_mod_right]
  have hlies := liesAt_bytes #[] #[] (IntWriter.finish s).value.toList
  -- a padded list is whole bytes, and begins with what was padded
  rw [hbytes, ofBytes_wholeBytes hwhole, ← hbytes] at hlies
  simp only [Array.toArray_toList, Array.empty_append, Array.append_empty] at hlies
  exact (liesAt_append.mp hlies).1

/-- Streams of the same bits give the same bytes in the end. -/
theorem finish_congr (T : Tracks put code Sound bits) {s s' : σ} (hs : Sound s) (hs' : Sound s')
    (h : bits s = bits s') : (IntWriter.finish s).value = (IntWriter.finish s').value := by
  apply Array.toList_inj.mp
  rw [T.finish hs, T.finish hs', h]

/-- Streams of the same bits cannot be told apart by any run of calls. -/
theorem run_congr (T : Tracks put code Sound bits) {s s' : σ} (hs : Sound s) (hs' : Sound s')
    (h : bits s = bits s') {cs : List (Call α)} (hcs : Call.Backward put s cs) :
    (Call.run put s cs).value.1 = (Call.run put s' cs).value.1
      ∧ IntWriter.bytes (Call.run put s cs).value.2 = IntWriter.bytes (Call.run put s' cs).value.2
      ∧ (IntWriter.finish (Call.run put s cs).value.2).value
        = (IntWriter.finish (Call.run put s' cs).value.2).value := by
  obtain ⟨hend, hrun⟩ := T.run hs hcs
  obtain ⟨hend', hrun'⟩ := T.run hs' (T.backward_congr hs hs' h hcs)
  rw [← h, hrun] at hrun'
  obtain ⟨hanswers, hbits⟩ := Prod.mk.inj hrun'
  refine ⟨hanswers, ?_, T.finish_congr hend hend' hbits⟩
  apply Array.toList_inj.mp
  rw [T.bytes _ hend, T.bytes _ hend', hbits]

end Tracks

end ValueStream
