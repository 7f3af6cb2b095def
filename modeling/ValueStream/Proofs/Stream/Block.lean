import ValueStream.Proofs.Buffer.History
import ValueStream.Proofs.Codec
import ValueStream.Proofs.Value.Path

/-!
What a stream does to its block.

Behind the bits of a stream is a block of bytes, and every call on the stream is
some changes of it. Writes are the simplest of them: they only commit bytes and
report nothing of their own, and how many bytes is known beforehand (`Commits`),
six for an integer of either codec and twelve for a value. Whatever the calls
were, the block of a stream is one that changes of a buffer lead to
(`exists_changes_run`), so what holds after every run of changes holds of the
block of every stream that can be reached.
-/

namespace ValueStream

open Trace Traced

/-- The operation commits at most `n` bytes, one after the other, and reports only what the
block reports of that. -/
def Commits {σ : Type} (block : σ → Buffer) (n : Nat) (s : σ) (x : Traced σ) : Prop :=
  ∃ bytes : List UInt8, bytes.length ≤ n
    ∧ block x.value = (Buffer.run (block s) (bytes.map .write)).value
    ∧ x.events = (Buffer.run (block s) (bytes.map .write)).events

theorem Buffer.run_append (b : Buffer) (cs ds : List Change) :
    run b (cs ++ ds) = run b cs >>= fun b => run b ds := List.foldlM_append

namespace Commits

variable {σ : Type} {block : σ → Buffer} {s : σ} {x : Traced σ} {m n : Nat}

theorem nothing (s : σ) : Commits block 0 s (pure s) := ⟨[], Nat.le_refl 0, rfl, rfl⟩

theorem mono (h : Commits block m s x) (hle : m ≤ n) : Commits block n s x := by
  obtain ⟨bytes, hlength, hvalue, hevents⟩ := h
  exact ⟨bytes, Nat.le_trans hlength hle, hvalue, hevents⟩

theorem bind {f : σ → Traced σ} (hx : Commits block m s x)
    (hf : Commits block n x.value (f x.value)) : Commits block (m + n) s (x >>= f) := by
  obtain ⟨xs, hxs, hvalue, hevents⟩ := hx
  obtain ⟨ys, hys, hvalue', hevents'⟩ := hf
  refine ⟨xs ++ ys, ?_, ?_, ?_⟩
  · rw [List.length_append]
    exact Nat.add_le_add hxs hys
  · rw [List.map_append, Buffer.run_append, value_bind, value_bind, hvalue', hvalue]
  · rw [List.map_append, Buffer.run_append, events_bind, events_bind, hevents, hevents', hvalue]

/-- Operations one after the other commit what each of them commits. -/
theorem foldlM {α : Type} {put : σ → α → Traced σ} (h : ∀ s a, Commits block n s (put s a))
    (as : List α) (s : σ) : Commits block (as.length * n) s (as.foldlM put s) := by
  induction as generalizing s with
  | nil => exact (nothing s).mono (Nat.zero_le _)
  | cons a as ih =>
    rw [List.foldlM_cons, List.length_cons, Nat.succ_mul, Nat.add_comm]
    exact (h s a).bind (ih _)

/-- What wraps a stream without touching its block commits what the stream commits. -/
theorem lift {τ : Type} {outer : τ → Buffer} {wrap : σ → τ} (h : Commits block n s x)
    (hwrap : ∀ s, outer (wrap s) = block s) : Commits outer n (wrap s) (wrap <$> x) := by
  obtain ⟨bytes, hlength, hvalue, hevents⟩ := h
  refine ⟨bytes, hlength, ?_, ?_⟩
  · rw [hwrap, ← hvalue]
    exact hwrap x.value
  · rw [hwrap, events_map, hevents]

end Commits

/-! ## Integers -/

namespace Sparse.Writer

theorem commits_writeToken (w : Writer) (token : UInt8) :
    Commits Writer.buffer 1 w (w.writeToken token) :=
  ⟨[filledByte w.pending w.pendingBits token], Nat.le_refl 1, rfl, rfl⟩

theorem commits_writeZero (w : Writer) : Commits Writer.buffer 1 w w.writeZero := by
  obtain ⟨buffer, pending, pendingBits⟩ := w
  simp only [writeZero]
  split
  · exact ⟨[pending <<< 1], Nat.le_refl 1, rfl, rfl⟩
  · exact ⟨[], Nat.zero_le 1, rfl, rfl⟩

theorem length_tokens_le (v : UInt32) : (tokens v).length ≤ 6 := by
  rw [tokens, List.length_append, List.length_map]
  exact Nat.succ_le_succ (List.length_filter_le _ upperGroups)

/-- An integer is at most six bytes of the block. -/
theorem commits_writeInt (w : Writer) (v : UInt32) : Commits Writer.buffer 6 w (w.writeInt v) := by
  unfold writeInt
  split
  · exact (commits_writeZero w).mono (by decide)
  · have htokens := Commits.foldlM commits_writeToken (tokens v) w
    exact htokens.mono ((Nat.mul_one _).trans_le (length_tokens_le v))

theorem exists_changes_flush (w : Writer) :
    ∃ cs, w.flush.value.buffer = (Buffer.run w.buffer cs).value := by
  rw [value_flush]
  split
  · exact ⟨[], rfl⟩
  · exact ⟨[.write (w.pending <<< (8 - w.pendingBits))], rfl⟩

end Sparse.Writer

namespace Dense.Writer

/-- An integer is as many bytes of the block as its code has. -/
theorem commits_code (w : Writer) (v : UInt32) :
    Commits Writer.buffer (code v).length w (w.writeInt v) := by
  -- on the number: each turn of the loop drops its seven lowest bits
  induction hn : v.toNat using Nat.strongRecOn generalizing w v with
  | ind n ih =>
    subst hn
    rw [writeInt]
    split
    · next hz =>
      rw [code_of_small hz]
      exact ⟨[v.toUInt8 &&& payloadMask], Nat.le_refl 1, rfl, rfl⟩
    · next hz =>
      rw [code_of_large hz, List.length_cons, Nat.add_comm]
      refine Commits.bind ?_ (ih _ (toNat_shiftRight_seven_lt hz) _ _ rfl)
      exact ⟨[(v.toUInt8 &&& payloadMask) ||| continuation], Nat.le_refl 1, rfl, rfl⟩

/-- An integer is at most five bytes of the block. -/
theorem commits_writeInt (w : Writer) (v : UInt32) : Commits Writer.buffer 5 w (w.writeInt v) := by
  refine (commits_code w v).mono ?_
  rw [code, length_marked]
  exact length_septets_word v

end Dense.Writer

theorem Kind.width_le (k : Kind) : k.width ≤ 2 := by
  cases k <;> decide

/-- A value is one or two integers, so it commits at most twice what an integer does. -/
theorem Commits.values {σ : Type} [IntWriter σ] {block : σ → Buffer} {n : Nat}
    (h : ∀ s v, Commits block n s (IntWriter.writeInt s v)) (s : σ) (pv : Path × Value) :
    Commits block (2 * n) s (Path.put s pv) := by
  have htwo : pv.2.ints.length ≤ 2 := by
    rw [Value.length_ints]
    exact Kind.width_le _
  rw [Path.put, Path.write_eq, Value.write_eq]
  exact (Commits.foldlM h pv.2.ints s).mono (Nat.mul_le_mul_right n htwo)

namespace Codec.Writer

/-- An integer of either codec is at most six bytes of the block. -/
theorem commits_writeInt (w : Writer) (v : UInt32) :
    Commits Writer.buffer 6 w (IntWriter.writeInt w v) := by
  cases w with
  | sparse w => exact (w.commits_writeInt v).lift (fun _ => rfl)
  | dense w => exact ((w.commits_writeInt v).mono (by decide)).lift (fun _ => rfl)

/-! ## Values, and runs of calls -/

/-- A value is at most twelve bytes of the block. -/
theorem commits_put (w : Writer) (pv : Path × Value) :
    Commits Writer.buffer 12 w (Path.put w pv) := Commits.values commits_writeInt w pv

theorem exists_changes_flush (w : Writer) :
    ∃ cs, (IntWriter.flush w).value.buffer = (Buffer.run w.buffer cs).value := by
  cases w with
  | sparse w => exact w.exists_changes_flush
  | dense w => exact ⟨[], rfl⟩

/-- A call on a stream is changes of its block. -/
theorem exists_changes_perform (w : Writer) (c : Call (Path × Value)) :
    ∃ cs, (c.perform Path.put w).value.2.buffer = (Buffer.run w.buffer cs).value := by
  cases c with
  | write pv =>
    obtain ⟨bytes, -, hvalue, -⟩ := commits_put w pv
    exact ⟨bytes.map .write, hvalue⟩
  | position => exact w.exists_changes_flush
  | startScope => exact w.exists_changes_flush
  | align => exact w.exists_changes_flush
  | rollBack p =>
    refine ⟨[.setLength p], ?_⟩
    cases w <;> rfl

/-- A run of calls on a stream is a run of changes of its block. -/
theorem exists_changes_run (w : Writer) (calls : List (Call (Path × Value))) :
    ∃ cs, (Call.run Path.put w calls).value.2.buffer = (Buffer.run w.buffer cs).value := by
  induction calls generalizing w with
  | nil => exact ⟨[], rfl⟩
  | cons c calls ih =>
    obtain ⟨cs, hfirst⟩ := exists_changes_perform w c
    obtain ⟨ds, hrest⟩ := ih (c.perform Path.put w).value.2
    refine ⟨cs ++ ds, ?_⟩
    rw [Call.value_run_cons, Buffer.run_append, value_bind, ← hfirst]
    exact hrest

end Codec.Writer

end ValueStream
