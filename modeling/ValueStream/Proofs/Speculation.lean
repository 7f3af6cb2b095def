import ValueStream.Proofs.Codec
import ValueStream.Proofs.Value.Path

/-!
Scopes that are given up leave no trace.

A draft is a stream with the starts of its scopes that are left; a step writes,
starts a scope, or goes back to the start of a scope that is left, as often as
it likes and across any scopes inside it. `survivors` deletes from a list of
steps what was gone back over, and knows nothing of streams. In every draft the
bits are those of the surviving calls alone (`run_standsFor`), so nothing that
can be done with the stream tells it from one that never speculated
(`run_leaves_no_trace`).
-/

namespace ValueStream.Speculation

open Trace Traced Bits

/-- A step of a writer that may change its mind. -/
inductive Step (α : Type) where
  | write (a : α)
  | startScope
  /-- Back to the start of a scope, counted among those that are left, the oldest first. -/
  | rollBack (scope : Nat)

/-- A stream and the starts of its scopes that are left, the oldest first. -/
structure Draft (σ : Type) where
  stream : σ
  starts : List Nat

variable {σ α : Type} [IntWriter σ]

/-- Make a step, a value being written by `put`. -/
def perform (put : σ → α → Traced σ) (d : Draft σ) : Step α → Traced (Draft σ)
  | .write a => do
    let s ← put d.stream a
    pure ⟨s, d.starts⟩
  | .startScope => do
    let (start, s) ← IntWriter.startScope d.stream
    pure ⟨s, d.starts ++ [start]⟩
  | .rollBack scope => do
    let s ← IntWriter.rollBack d.stream (d.starts.getD scope 0)
    pure ⟨s, d.starts.take (scope + 1)⟩

/-- Make steps one after the other. -/
def run (put : σ → α → Traced σ) (d : Draft σ) (steps : List (Step α)) : Traced (Draft σ) :=
  steps.foldlM (perform put) d

/-! ## The surviving history -/

def isScope : Call α → Bool
  | .startScope => true
  | _ => false

/-- The calls up to the start of a scope, that call included. -/
def upTo : (scope : Nat) → List (Call α) → List (Call α)
  | _, [] => []
  | 0, .startScope :: _ => [.startScope]
  | scope + 1, .startScope :: cs => .startScope :: upTo scope cs
  | scope, c :: cs => c :: upTo scope cs

/-- What a step leaves of the calls before it, and adds to them. -/
def keep (history : List (Call α)) : Step α → List (Call α)
  | .write a => history ++ [.write a]
  | .startScope => history ++ [.startScope]
  | .rollBack scope => upTo scope history

/-- The calls that no roll-back deletes. -/
def survivors (steps : List (Step α)) : List (Call α) := steps.foldl keep []

/-- The step does not go back to a scope that is not left. -/
def Allowed (history : List (Call α)) : Step α → Prop
  | .rollBack scope => scope < history.countP isScope
  | _ => True

/-- Every step of the list is allowed when it is made. -/
def AllAllowed (history : List (Call α)) : List (Step α) → Prop
  | [] => True
  | step :: steps => Allowed history step ∧ AllAllowed (keep history step) steps

instance (history : List (Call α)) (step : Step α) : Decidable (Allowed history step) := by
  cases step <;> unfold Allowed <;> infer_instance

instance decidableAllAllowed :
    (history : List (Call α)) → (steps : List (Step α)) → Decidable (AllAllowed history steps)
  | _, [] => inferInstanceAs (Decidable True)
  | history, step :: steps =>
    have := decidableAllAllowed (keep history step) steps
    inferInstanceAs (Decidable (_ ∧ _))

/-! ## The history on bits -/

/-- Histories are made of writes and scopes. -/
def Plain (history : List (Call α)) : Prop := ∀ c ∈ history, (∃ a, c = .write a) ∨ c = .startScope

variable {code : α → List Bool}

/-- The starts of the scopes of a history, begun with some bits. -/
def starts (code : α → List Bool) (bits : List Bool) (history : List (Call α)) : List Nat :=
  (Call.runOnBits code bits history).1.filterMap id

theorem starts_write (bits : List Bool) (a : α) (cs : List (Call α)) :
    starts code bits (.write a :: cs) = starts code (bits ++ code a) cs := rfl

theorem starts_startScope (bits : List Bool) (cs : List (Call α)) :
    starts code bits (.startScope :: cs) = (pad bits).length / 8 :: starts code (pad bits) cs := rfl

theorem starts_append (bits : List Bool) (cs ds : List (Call α)) :
    starts code bits (cs ++ ds)
      = starts code bits cs ++ starts code (Call.runOnBits code bits cs).2 ds := by
  rw [starts, Call.runOnBits_append, List.filterMap_append]
  rfl

theorem prefix_upTo (scope : Nat) (history : List (Call α)) : upTo scope history <+: history := by
  fun_induction upTo scope history with
  | case1 scope => exact List.nil_prefix
  | case2 cs => exact List.prefix_append [.startScope] cs
  | case3 scope cs ih => exact (List.prefix_cons_inj _).mpr ih
  | case4 scope c cs _ _ ih => exact (List.prefix_cons_inj _).mpr ih

theorem Plain.cut {history : List (Call α)} (h : Plain history) (scope : Nat) :
    Plain (upTo scope history) := by
  intro c hc
  exact h c ((prefix_upTo scope history).mem hc)

theorem Plain.tail {c : Call α} {cs : List (Call α)} (h : Plain (c :: cs)) : Plain cs := by
  intro d hd
  exact h d (List.mem_cons_of_mem c hd)

/-- A history only adds bits. -/
theorem Plain.prefix_run (code : α → List Bool) {history : List (Call α)} (h : Plain history)
    (bits : List Bool) :
    bits <+: (Call.runOnBits code bits history).2 := by
  induction history generalizing bits with
  | nil => exact List.prefix_rfl
  | cons c cs ih =>
    have hcs : Plain cs := h.tail
    obtain ⟨a, rfl⟩ | rfl := h c List.mem_cons_self
    · exact (List.prefix_append bits (code a)).trans (ih hcs _)
    · exact (prefix_pad bits).trans (ih hcs _)

/-- Cutting the bits off at the start of a scope leaves the history up to it. -/
theorem Plain.upTo_spec (code : α → List Bool) {history : List (Call α)} (h : Plain history)
    {scope : Nat} (hscope : scope < history.countP isScope) (bits : List Bool) :
    ∃ start, (starts code bits history)[scope]? = some start
      ∧ 8 * start ≤ (Call.runOnBits code bits history).2.length
      ∧ (Call.runOnBits code bits (upTo scope history)).2
        = (Call.runOnBits code bits history).2.take (8 * start)
      ∧ starts code bits (upTo scope history)
        = (starts code bits history).take (scope + 1) := by
  induction history generalizing scope bits with
  | nil => exact absurd hscope (Nat.not_lt_zero _)
  | cons c cs ih =>
    have hcs : Plain cs := h.tail
    obtain ⟨a, rfl⟩ | rfl := h c List.mem_cons_self
    · have hrest : scope < cs.countP isScope := hscope
      -- a write is in front of the scope, whichever it is
      obtain ⟨start, hstart, hle, hbits, hstarts⟩ := ih hcs hrest (bits ++ code a)
      have hupTo : upTo scope (.write a :: cs) = .write a :: upTo scope cs := by
        cases scope <;> rfl
      rw [hupTo, starts_write, starts_write]
      exact ⟨start, hstart, hle, hbits, hstarts⟩
    · cases scope with
      | zero =>
        -- this is the scope: nothing behind its start is left, and the start is at a byte
        have hwhole : 8 * ((pad bits).length / 8) = (pad bits).length := by
          rw [length_pad, Nat.mul_div_cancel_left _ (by decide)]
        obtain ⟨rest, hrest⟩ := hcs.prefix_run code (pad bits)
        have hrun : (Call.runOnBits code bits (.startScope :: cs)).2 = pad bits ++ rest := hrest.symm
        refine ⟨(pad bits).length / 8, rfl, ?_, ?_, rfl⟩
        · rw [hrun, hwhole, List.length_append]
          exact Nat.le_add_right _ _
        · rw [hrun, hwhole, List.take_left]
          rfl
      | succ scope =>
        have hrest : scope < cs.countP isScope := by
          rw [List.countP_cons_of_pos (by rfl)] at hscope
          exact Nat.lt_of_succ_lt_succ hscope
        obtain ⟨start, hstart, hle, hbits, hstarts⟩ := ih hcs hrest (pad bits)
        refine ⟨start, hstart, hle, hbits, ?_⟩
        rw [starts_startScope, List.take_succ_cons, ← hstarts]
        rfl

/-! ## Drafts -/

/-- The draft stands for a history: its bits are those of the history alone, and the
starts it keeps are those of the scopes in it. -/
structure StandsFor (code : α → List Bool) (Sound : σ → Prop) (bits : σ → List Bool)
    (d : Draft σ) (history : List (Call α)) : Prop where
  sound : Sound d.stream
  plain : Plain history
  bits : bits d.stream = (Call.runOnBits code [] history).2
  starts : d.starts = starts code [] history

section

variable {put : σ → α → Traced σ} {Sound : σ → Prop} {bits : σ → List Bool}

theorem Plain.concat {history : List (Call α)} (h : Plain history) {c : Call α}
    (hc : (∃ a, c = .write a) ∨ c = .startScope) : Plain (history ++ [c]) := by
  intro d hd
  obtain hd | hd := List.mem_append.mp hd
  · exact h d hd
  · rw [List.mem_singleton.mp hd]
    exact hc

/-- A step of the draft is a step of the history. -/
theorem perform_standsFor (T : Tracks put code Sound bits) {d : Draft σ} {history : List (Call α)}
    (h : StandsFor code Sound bits d history) {step : Step α} (hstep : Allowed history step) :
    StandsFor code Sound bits (perform put d step).value (keep history step) := by
  cases step with
  | write a =>
    obtain ⟨hput, hbits⟩ := T.put d.stream a h.sound
    refine ⟨hput, h.plain.concat (.inl ⟨a, rfl⟩), ?_, ?_⟩
    · show bits (put d.stream a).value = (Call.runOnBits code [] (history ++ [.write a])).2
      rw [hbits, h.bits, Call.runOnBits_append]
      rfl
    · show d.starts = starts code [] (history ++ [.write a])
      rw [h.starts, starts_append]
      exact (List.append_nil _).symm
  | startScope =>
    obtain ⟨hflush, hpad⟩ := T.flush d.stream h.sound
    refine ⟨hflush, h.plain.concat (.inr rfl), ?_, ?_⟩
    · show bits (IntWriter.flush d.stream).value
        = (Call.runOnBits code [] (history ++ [.startScope])).2
      rw [hpad, h.bits, Call.runOnBits_append]
      rfl
    · show d.starts ++ [IntWriter.length (IntWriter.flush d.stream).value]
        = starts code [] (history ++ [.startScope])
      rw [T.length _ hflush, hpad, h.starts, h.bits, starts_append]
      rfl
  | rollBack scope =>
    -- the start that the draft keeps is where the history up to the scope ends
    obtain ⟨start, hstart, hle, hbits, hstarts⟩ := h.plain.upTo_spec code hstep []
    have hgoal : d.starts.getD scope 0 = start := by
      rw [h.starts, List.getD_eq_getElem?_getD, hstart, Option.getD_some]
    have hlength : start ≤ IntWriter.length d.stream := by
      rw [T.length _ h.sound, h.bits]
      omega
    obtain ⟨hroll, hcut⟩ := T.rollBack d.stream start h.sound hlength
    rw [← hgoal] at hroll
    refine ⟨hroll, h.plain.cut scope, ?_, ?_⟩
    · show bits (IntWriter.rollBack d.stream (d.starts.getD scope 0)).value
        = (Call.runOnBits code [] (upTo scope history)).2
      rw [hgoal, hcut, h.bits, hbits]
    · show d.starts.take (scope + 1) = starts code [] (upTo scope history)
      rw [h.starts, hstarts]

/-- A run of the draft stands for what survives of its steps. -/
theorem run_standsFor (T : Tracks put code Sound bits) {d : Draft σ} {history : List (Call α)}
    (h : StandsFor code Sound bits d history) {steps : List (Step α)}
    (hsteps : AllAllowed history steps) :
    StandsFor code Sound bits (run put d steps).value (steps.foldl keep history) := by
  induction steps generalizing d history with
  | nil => exact h
  | cons step steps ih =>
    obtain ⟨hstep, hrest⟩ := hsteps
    exact ih (perform_standsFor T h hstep) hrest

/-- A history rolls nothing back. -/
theorem Plain.backward {history : List (Call α)} (h : Plain history) (s : σ) :
    Call.Backward put s history := by
  induction history generalizing s with
  | nil => trivial
  | cons c cs ih =>
    have hcs : Plain cs := h.tail
    refine ⟨?_, ih hcs _⟩
    obtain ⟨a, rfl⟩ | rfl := h c List.mem_cons_self <;> trivial

end

theorem standsFor_writer (c : Codec) (capacity : Nat) :
    StandsFor (fun pv : Path × Value => pv.2.ints.flatMap c.code) (Codec.Writer.Sound c)
      Codec.Writer.bits ⟨c.writer capacity, []⟩ [] where
  sound := c.sound_writer capacity
  plain _ hc := absurd hc List.not_mem_nil
  bits := c.bits_writer capacity
  starts := rfl

/-- Whatever was begun and given up, in whatever block: the bytes in the end are those
of a stream that only did what survives, and no calls that follow tell the two apart. -/
theorem run_leaves_no_trace (c : Codec) (capacity capacity' : Nat)
    (steps : List (Step (Path × Value))) (h : AllAllowed [] steps) :
    let s := (run Path.put ⟨c.writer capacity, []⟩ steps).value.stream
    let s' := (Call.run Path.put (c.writer capacity') (survivors steps)).value.2
    (IntWriter.finish s).value = (IntWriter.finish s').value
      ∧ ∀ calls, Call.Backward Path.put s calls →
        (Call.run Path.put s calls).value.1 = (Call.run Path.put s' calls).value.1
          ∧ IntWriter.bytes (Call.run Path.put s calls).value.2
            = IntWriter.bytes (Call.run Path.put s' calls).value.2
          ∧ (IntWriter.finish (Call.run Path.put s calls).value.2).value
            = (IntWriter.finish (Call.run Path.put s' calls).value.2).value := by
  intro s s'
  have hdraft := run_standsFor c.tracks.paths (standsFor_writer c capacity) h
  obtain ⟨hsound', hrun⟩ :=
    c.tracks.paths.run (c.sound_writer capacity') (hdraft.plain.backward (c.writer capacity'))
  -- the blocks and what is left in them differ, the bits do not
  have hbits : s.bits = s'.bits := by
    rw [c.bits_writer] at hrun
    exact hdraft.bits.trans (congrArg Prod.snd hrun)
  refine ⟨c.tracks.paths.finish_congr hdraft.sound hsound' hbits, ?_⟩
  intro calls hcalls
  exact c.tracks.paths.run_congr hdraft.sound hsound' hbits hcalls

/-- An inner scope given up, then the outer one across it and at once again, in a block
of one byte; the calls that follow cut into what is left. -/
theorem run_leaves_no_trace_across_scopes :
    let steps : List (Step (Path × Value)) :=
      [.write (.operation, .int 5), .startScope, .write (.word, .int 4096), .startScope,
        .write (.kind, .bool false), .rollBack 1, .write (.word, .byte (-1)), .rollBack 0,
        .rollBack 0, .write (.kind, .float ⟨0x7FC00001⟩)]
    let kept : List (Call (Path × Value)) :=
      [.write (.operation, .int 5), .startScope, .write (.kind, .float ⟨0x7FC00001⟩)]
    let calls : List (Call (Path × Value)) :=
      [.startScope, .write (.word, .bool true), .rollBack 1, .align, .position]
    AllAllowed [] steps ∧ survivors steps = kept
      ∧ Call.Backward Path.put (run Path.put ⟨Codec.sparse.writer 1, []⟩ steps).value.stream calls
      ∧ (IntWriter.finish (run Path.put ⟨Codec.sparse.writer 1, []⟩ steps).value.stream).value
        = (IntWriter.finish (Call.run Path.put (Codec.sparse.writer 64) kept).value.2).value
      ∧ (Call.run Path.put (Call.run Path.put (Codec.sparse.writer 64) kept).value.2 calls).value.1
        = [some 7, none, none, none, some 1] := by
  intro steps kept calls
  have hsteps : AllAllowed [] steps := by decide +kernel
  have hkept : survivors steps = kept := by decide +kernel
  have hcalls : Call.Backward Path.put
      (run Path.put ⟨Codec.sparse.writer 1, []⟩ steps).value.stream calls := by
    decide +kernel
  have hanswers : (Call.run Path.put (run Path.put ⟨Codec.sparse.writer 1, []⟩ steps).value.stream
      calls).value.1 = [some 7, none, none, none, some 1] := by
    decide +kernel
  obtain ⟨hfinish, hfurther⟩ := run_leaves_no_trace .sparse 1 64 steps hsteps
  rw [hkept] at hfinish hfurther
  exact ⟨hsteps, hkept, hcalls, hfinish, (hfurther calls hcalls).1.symm.trans hanswers⟩

end ValueStream.Speculation
