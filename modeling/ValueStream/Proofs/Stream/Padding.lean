import ValueStream.Proofs.Buffer.Growth
import ValueStream.Proofs.Stream.Block
import ValueStream.Proofs.Value.Record

/-!
Where the bits of a stream go: values, and padding that is reported.

A stream that is never rolled back only grows, by the bits of what is written
and by the bits that fill the last byte when it is flushed. `Pads` says what a
stream reports of its padding; from that each call accounts for the bits it adds
(`Tracks.length_perform`), and so does a run (`Tracks.length_run`). Cut into the
blocks of writes between two flushes, the length is the sum of the blocks, each
rounded up to bytes on its own (`Call.bytes_runOnBits`).
-/

namespace ValueStream

open Trace Traced Bits

/-- The bits that wait when a flush is reported, and the length committed before it. -/
def flush? : Event → Option (Nat × Nat)
  | .flushing pendingBits committed => some (pendingBits, committed)
  | _ => none

/-- The flushes that are reported, oldest first. -/
def flushes (es : List Event) : List (Nat × Nat) := es.filterMap flush?

/-- The bits that the reported flushes fill up. -/
def filled (es : List Event) : Nat := ((flushes es).map (fun f => 8 - f.1)).sum

theorem flushes_append (es fs : List Event) : flushes (es ++ fs) = flushes es ++ flushes fs :=
  List.filterMap_append

theorem filled_append (es fs : List Event) : filled (es ++ fs) = filled es + filled fs := by
  simp [filled, flushes_append]

theorem mem_flushes {es : List Event} {pendingBits committed : Nat}
    (h : Event.flushing pendingBits committed ∈ es) : (pendingBits, committed) ∈ flushes es :=
  List.mem_filterMap.mpr ⟨_, h, rfl⟩

/-! ## Calls that only add bits -/

namespace Call

variable {σ α : Type} [IntWriter σ]

/-- The calls that flush and do nothing else. -/
def Flushes : Call α → Prop
  | position | startScope | align => True
  | _ => False

/-- What a call writes, if it is a write. -/
def written? : Call α → Option α
  | write a => some a
  | _ => none

/-- What is written, in order. -/
def written (cs : List (Call α)) : List α := cs.filterMap written?

/-- What is written up to each call that is no write, and behind the last of them. -/
def blocks : List (Call α) → List (List α)
  | [] => [[]]
  | write a :: cs => (blocks cs).modifyHead (a :: ·)
  | _ :: cs => [] :: blocks cs

theorem write_or_flushes {c : Call α} (h : ∀ p, c ≠ rollBack p) : (∃ a, c = write a) ∨ c.Flushes := by
  cases c with
  | write a => exact Or.inl ⟨a, rfl⟩
  | rollBack p => exact absurd rfl (h p)
  | position => exact Or.inr trivial
  | startScope => exact Or.inr trivial
  | align => exact Or.inr trivial

theorem written_of_flushes {c : Call α} (h : c.Flushes) : written [c] = [] := by
  cases c with
  | write a => exact h.elim
  | rollBack p => exact h.elim
  | _ => rfl

theorem written_cons (c : Call α) (cs : List (Call α)) :
    written (c :: cs) = written [c] ++ written cs := by
  rw [← List.singleton_append]
  exact List.filterMap_append

theorem blocks_of_flushes {c : Call α} (h : c.Flushes) (cs : List (Call α)) :
    blocks (c :: cs) = [] :: blocks cs := by
  cases c with
  | write a => exact h.elim
  | rollBack p => exact h.elim
  | _ => rfl

theorem perform_of_flushes {c : Call α} (h : c.Flushes) (put : σ → α → Traced σ) (s : σ) :
    (c.perform put s).value.2 = (IntWriter.flush s).value
      ∧ (c.perform put s).events = (IntWriter.flush s).events := by
  have hevents : (IntWriter.flush s).events ++ [] ++ [] = (IntWriter.flush s).events := by simp
  cases c with
  | write a => exact h.elim
  | rollBack p => exact h.elim
  | position => exact ⟨rfl, hevents⟩
  | startScope => exact ⟨rfl, hevents⟩
  | align => exact ⟨rfl, List.append_nil _⟩

theorem events_perform_write (put : σ → α → Traced σ) (s : σ) (a : α) :
    (perform put s (.write a)).events = (put s a).events := List.append_nil _

theorem onBits_of_flushes {c : Call α} (h : c.Flushes) (code : α → List Bool) (bits : List Bool) :
    (c.onBits code bits).2 = pad bits := by
  cases c with
  | write a => exact h.elim
  | rollBack p => exact h.elim
  | _ => rfl

theorem backFrom_of_forward {c : Call α} (h : ∀ p, c ≠ rollBack p) (s : σ) : c.BackFrom s := by
  cases c with
  | rollBack p => exact absurd rfl (h p)
  | _ => trivial

theorem forward_cons {c : Call α} {cs : List (Call α)} (h : ∀ p, rollBack p ∉ c :: cs) :
    (∀ p, c ≠ rollBack p) ∧ ∀ p, rollBack p ∉ cs := by
  refine ⟨fun p hp => h p ?_, fun p hp => h p (List.mem_cons_of_mem c hp)⟩
  rw [hp]
  exact List.mem_cons_self

/-- Without a roll-back there is none that goes too far. -/
theorem backward_of_forward {cs : List (Call α)} (h : ∀ p, rollBack p ∉ cs)
    (put : σ → α → Traced σ) (s : σ) : Backward put s cs := by
  induction cs generalizing s with
  | nil => trivial
  | cons c cs ih =>
    obtain ⟨hc, hcs⟩ := forward_cons h
    exact ⟨backFrom_of_forward hc s, ih hcs _⟩

theorem value_run_append (put : σ → α → Traced σ) (s : σ) (cs ds : List (Call α)) :
    (run put s (cs ++ ds)).value
      = ((run put s cs).value.1 ++ (run put (run put s cs).value.2 ds).value.1,
        (run put (run put s cs).value.2 ds).value.2) := by
  induction cs generalizing s with
  | nil => rfl
  | cons c cs ih => rw [List.cons_append, value_run_cons, value_run_cons, ih, List.cons_append]

theorem events_run_cons (put : σ → α → Traced σ) (s : σ) (c : Call α) (cs : List (Call α)) :
    (run put s (c :: cs)).events
      = (c.perform put s).events ++ (run put (c.perform put s).value.2 cs).events := by
  show (c.perform put s).events ++ ((run put (c.perform put s).value.2 cs).events ++ []) = _
  rw [List.append_nil]

/-- Whatever a run reports is reported by one of its calls. -/
theorem exists_of_mem_events_run {put : σ → α → Traced σ} {s : σ} {cs : List (Call α)} {e : Event}
    (h : e ∈ (run put s cs).events) :
    ∃ before c after, cs = before ++ c :: after
      ∧ e ∈ (c.perform put (run put s before).value.2).events := by
  induction cs generalizing s with
  | nil => exact absurd h List.not_mem_nil
  | cons c cs ih =>
    rw [events_run_cons, List.mem_append] at h
    obtain hfirst | hrest := h
    · exact ⟨[], c, cs, rfl, hfirst⟩
    · obtain ⟨before, c', after, hsplit, he⟩ := ih hrest
      exact ⟨c :: before, c', after, by rw [hsplit, List.cons_append], he⟩

/-- The bytes of a run that is flushed in the end are those of its blocks, each rounded up on its
own; what was there before goes to the first. -/
theorem bytes_runOnBits (code : α → List Bool) {cs : List (Call α)} (h : ∀ p, rollBack p ∉ cs)
    (bits : List Bool) :
    ∃ b bs, blocks cs = b :: bs
      ∧ ((runOnBits code bits cs).2.length + 7) / 8
        = (bits.length + (b.map (fun a => (code a).length)).sum + 7) / 8
          + (bs.map (fun b => ((b.map (fun a => (code a).length)).sum + 7) / 8)).sum := by
  induction cs generalizing bits with
  | nil => exact ⟨[], [], rfl, rfl⟩
  | cons c cs ih =>
    obtain ⟨hc, hcs⟩ := forward_cons h
    rw [runOnBits_cons]
    obtain ⟨b, bs, hblocks, hbytes⟩ := ih hcs (c.onBits code bits).2
    obtain ⟨a, rfl⟩ | hflush := write_or_flushes hc
    · -- a write is one more of the first block
      refine ⟨a :: b, bs, by rw [blocks, hblocks]; rfl, ?_⟩
      rw [hbytes, onBits, List.length_append, List.map_cons, List.sum_cons, Nat.add_assoc bits.length]
    · -- a flush ends the first block, and what follows begins at a byte
      refine ⟨[], b :: bs, by rw [blocks_of_flushes hflush, hblocks], ?_⟩
      rw [hbytes, onBits_of_flushes hflush, length_pad, List.map_nil, List.sum_nil, List.map_cons,
        List.sum_cons]
      omega

end Call

/-! ## What is reported of the padding -/

/-- Writes report no flush, and a flush reports the bits that wait, where there are any. -/
structure Pads {σ α : Type} [IntWriter σ] (put : σ → α → Traced σ) (Sound : σ → Prop)
    (bits : σ → List Bool) : Prop where
  put : ∀ (s : σ) (a : α), flushes (put s a).events = []
  flush : ∀ s : σ, Sound s → flushes (IntWriter.flush s).events
    = if (bits s).length % 8 = 0 then [] else [((bits s).length % 8, IntWriter.length s)]

namespace Tracks

variable {σ α : Type} [IntWriter σ] {put : σ → α → Traced σ} {code : α → List Bool}
  {Sound : σ → Prop} {bits : σ → List Bool}

/-- A flush that is reported fills up one to seven bits behind what is committed. -/
theorem mem_flushes_perform (P : Pads put Sound bits) {s : σ} (hs : Sound s) {c : Call α}
    (hc : ∀ p, c ≠ Call.rollBack p) {f : Nat × Nat} (hf : f ∈ flushes (c.perform put s).events) :
    1 ≤ f.1 ∧ f.1 ≤ 7 ∧ f.2 = IntWriter.length s := by
  obtain ⟨a, rfl⟩ | hflush := Call.write_or_flushes hc
  · rw [Call.events_perform_write, P.put] at hf
    exact absurd hf List.not_mem_nil
  · rw [(Call.perform_of_flushes hflush put s).2, P.flush s hs] at hf
    split at hf
    · exact absurd hf List.not_mem_nil
    · rw [List.mem_singleton.mp hf]
      refine ⟨?_, ?_, rfl⟩ <;> simp only <;> omega

/-- A call adds the bits of what it writes and those that it reports to fill up. -/
theorem length_perform (T : Tracks put code Sound bits) (P : Pads put Sound bits) {s : σ}
    (hs : Sound s) {c : Call α} (hc : ∀ p, c ≠ Call.rollBack p) :
    (bits (c.perform put s).value.2).length
      = (bits s).length + ((Call.written [c]).map (fun a => (code a).length)).sum
        + filled (c.perform put s).events := by
  obtain ⟨a, rfl⟩ | hflush := Call.write_or_flushes hc
  · have hbits : bits (Call.perform put s (.write a)).value.2 = bits s ++ code a := (T.put s a hs).2
    rw [hbits, Call.events_perform_write, filled, P.put]
    simp [Call.written, Call.written?]
  · obtain ⟨hvalue, hevents⟩ := Call.perform_of_flushes hflush put s
    rw [hvalue, hevents, (T.flush s hs).2, length_pad, Call.written_of_flushes hflush, filled,
      P.flush s hs]
    split <;> simp <;> omega

/-- A run adds the bits of what it writes and those that it reports to fill up. -/
theorem length_run (T : Tracks put code Sound bits) (P : Pads put Sound bits) {s : σ}
    (hs : Sound s) {cs : List (Call α)} (hcs : ∀ p, Call.rollBack p ∉ cs) :
    (bits (Call.run put s cs).value.2).length
      = (bits s).length + ((Call.written cs).map (fun a => (code a).length)).sum
        + filled (Call.run put s cs).events := by
  induction cs generalizing s with
  | nil => rfl
  | cons c cs ih =>
    obtain ⟨hc, hrest⟩ := Call.forward_cons hcs
    have hnext : Sound (c.perform put s).value.2 :=
      (T.perform hs (Call.backFrom_of_forward hc s)).1
    rw [Call.value_run_cons, ih hnext hrest, T.length_perform P hs hc, Call.written_cons c cs,
      Call.events_run_cons, filled_append, List.map_append, List.sum_append]
    omega

/-- Asked for its position in the end, an empty stream that was never rolled back gives the bytes
of its blocks; in bits these are what was written and what was reported to be filled up. -/
theorem position_run (T : Tracks put code Sound bits) (P : Pads put Sound bits) {s : σ}
    (hs : Sound s) (hempty : bits s = []) {cs : List (Call α)} (hcs : ∀ p, Call.rollBack p ∉ cs) :
    let r := Call.run put s (cs ++ [.position])
    let n := IntWriter.length r.value.2
    r.value.1.getLast? = some (some n)
      ∧ n = ((Call.blocks cs).map (fun b => ((b.map (fun a => (code a).length)).sum + 7) / 8)).sum
      ∧ 8 * n = ((Call.written cs).map (fun a => (code a).length)).sum + filled r.events := by
  intro r n
  obtain ⟨hsound, hrun⟩ := T.run hs (Call.backward_of_forward hcs put s)
  obtain ⟨hflush, hpad⟩ := T.flush _ hsound
  obtain ⟨b, bs, hblocks, hbytes⟩ := Call.bytes_runOnBits code hcs []
  have hlast : r.value.2 = (IntWriter.flush (Call.run put s cs).value.2).value :=
    congrArg Prod.snd (Call.value_run_append put s cs [.position])
  have hanswer : r.value.1 = (Call.run put s cs).value.1 ++ [some n] := by
    have hlength : n = IntWriter.length (IntWriter.flush (Call.run put s cs).value.2).value :=
      congrArg IntWriter.length hlast
    rw [hlength]
    exact congrArg Prod.fst (Call.value_run_append put s cs [.position])
  -- the last call is a flush, so the bits in the end are those of the other calls, padded
  have hend : bits r.value.2 = pad (Call.runOnBits code [] cs).2 := by
    rw [hlast, hpad, ← hempty, hrun]
  have hn : n = ((Call.runOnBits code [] cs).2.length + 7) / 8 := by
    rw [← hlast] at hflush
    have hcommitted : n = (bits r.value.2).length / 8 := T.length _ hflush
    rw [hcommitted, hend, length_pad, Nat.mul_div_cancel_left _ (by decide)]
  refine ⟨?_, ?_, ?_⟩
  · rw [hanswer, List.getLast?_concat]
  · rw [hn, hbytes, hblocks, List.length_nil, Nat.zero_add, List.map_cons, List.sum_cons]
  · have hforward : ∀ p, Call.rollBack p ∉ cs ++ [.position] := fun p => by simp [hcs p]
    have hwritten : Call.written (cs ++ [.position]) = Call.written cs := by
      simp [Call.written, Call.written?]
    have hlength := T.length_run P hs hforward
    rw [hempty, List.length_nil, Nat.zero_add, hwritten] at hlength
    have hbits : 8 * n = (bits r.value.2).length := by rw [hend, length_pad, hn]
    exact hbits.trans hlength

/-- Whatever call of a run reports a flush fills up one to seven bits behind what was committed
when it was made. -/
theorem flushing_run (T : Tracks put code Sound bits) (P : Pads put Sound bits) {s : σ}
    (hs : Sound s) {before after : List (Call α)} {c : Call α}
    (hcs : ∀ p, Call.rollBack p ∉ before ++ c :: after) {pendingBits committed : Nat}
    (h : Event.flushing pendingBits committed
      ∈ (c.perform put (Call.run put s before).value.2).events) :
    1 ≤ pendingBits ∧ pendingBits ≤ 7
      ∧ committed = IntWriter.length (Call.run put s before).value.2 := by
  have hbefore : ∀ p, Call.rollBack p ∉ before := fun p hp => hcs p (List.mem_append_left _ hp)
  have hc : ∀ p, c ≠ Call.rollBack p := fun p hp => hcs p (by simp [hp])
  obtain ⟨hsound, -⟩ := T.run hs (Call.backward_of_forward hbefore put s)
  exact mem_flushes_perform P hsound hc (mem_flushes h)

/-- Where the bits are whole bytes at every state, there is nothing to fill up. -/
theorem flushes_run_eq_nil (T : Tracks put code Sound bits) (P : Pads put Sound bits)
    (hwhole : ∀ s, Sound s → (bits s).length % 8 = 0) {s : σ} (hs : Sound s)
    {cs : List (Call α)} (hcs : ∀ p, Call.rollBack p ∉ cs) :
    flushes (Call.run put s cs).events = [] := by
  induction cs generalizing s with
  | nil => rfl
  | cons c cs ih =>
    obtain ⟨hc, hrest⟩ := Call.forward_cons hcs
    have hnext : Sound (c.perform put s).value.2 :=
      (T.perform hs (Call.backFrom_of_forward hc s)).1
    have hfirst : flushes (c.perform put s).events = [] := by
      obtain ⟨a, rfl⟩ | hflush := Call.write_or_flushes hc
      · rw [Call.events_perform_write, P.put]
      · rw [(Call.perform_of_flushes hflush put s).2, P.flush s hs, if_pos (hwhole s hs)]
    rw [Call.events_run_cons, flushes_append, hfirst, ih hnext hrest]
    rfl

end Tracks

/-! ## Both codecs -/

/-- A block reports growths only. -/
theorem Buffer.flushes_perform (b : Buffer) (c : Change) : flushes (c.perform b).events = [] := by
  by_cases h : c.Outgrows b
  · rw [(perform_of_outgrows h).2]
    rfl
  · rw [(perform_of_room h).1]
    rfl

theorem Buffer.flushes_run (b : Buffer) (cs : List Change) : flushes (run b cs).events = [] := by
  induction cs generalizing b with
  | nil => rfl
  | cons c cs ih =>
    rw [events_run_cons, flushes_append, flushes_perform, ih]
    rfl

theorem Commits.flushes_eq_nil {σ : Type} {block : σ → Buffer} {n : Nat} {s : σ} {x : Traced σ}
    (h : Commits block n s x) : flushes x.events = [] := by
  obtain ⟨bytes, -, -, hevents⟩ := h
  rw [hevents]
  exact Buffer.flushes_run _ _

theorem Sparse.Writer.pads : Pads Path.put Sparse.Writer.Sound Sparse.Writer.bits where
  put w pv := (Commits.values Sparse.Writer.commits_writeInt w pv).flushes_eq_nil
  flush w h := by
    have hfew := h.few
    have hwaiting : w.bits.length % 8 = w.pendingBits.toNat := by
      rw [Sparse.Writer.length_bits h]
      omega
    have hnone : w.pendingBits.toNat = 0 ↔ w.pendingBits = 0 := by
      rw [← UInt8.toNat_inj]
      rfl
    -- the byte that is filled up may make the block grow, which is no flush
    have hwrite : flushes (w.buffer.write (w.pending <<< (8 - w.pendingBits))).events = [] :=
      Buffer.flushes_perform w.buffer (.write _)
    show flushes w.flush.events = _
    rw [Sparse.Writer.events_flush, hwaiting]
    simp only [hnone]
    split
    · rfl
    · rw [← List.singleton_append, flushes_append, hwrite]
      rfl

theorem Dense.Writer.pads : Pads Path.put Dense.Writer.Sound Dense.Writer.bits where
  put w pv := (Commits.values Dense.Writer.commits_writeInt w pv).flushes_eq_nil
  flush w h := by
    rw [Dense.Writer.length_bits h, Nat.mul_mod_right]
    rfl

/-- The codes of values are as long as those of their integers together. -/
theorem sum_length_codes {code : UInt32 → List Bool} {size : UInt32 → Nat}
    (h : ∀ v, (code v).length = size v) (pvs : List (Path × Value)) :
    (pvs.map (fun pv => (pv.2.ints.flatMap code).length)).sum
      = ((Value.intsOf (pvs.map Prod.snd)).map size).sum := by
  induction pvs with
  | nil => rfl
  | cons pv pvs ih =>
    rw [List.map_cons, List.sum_cons, ih, List.map_cons, Value.intsOf_cons, List.map_append,
      List.sum_append, List.length_flatMap]
    simp only [h]

theorem sum_length_codes_dense (pvs : List (Path × Value)) :
    (pvs.map (fun pv => (pv.2.ints.flatMap (fun v => ofBytes (Dense.code v))).length)).sum
      = 8 * ((Value.intsOf (pvs.map Prod.snd)).map Dense.byteLength).sum := by
  have hcode : ∀ v, (ofBytes (Dense.code v)).length = 8 * Dense.byteLength v := by
    intro v
    rw [length_ofBytes, Dense.length_code]
  rw [sum_length_codes hcode, List.sum_map_mul_left]

/-- The bits of what was written, over a run that is asked for its position in the end. A sparse
stream commits the blocks between two flushes, each rounded up to bytes; the bits beyond those of the
values are the ones that are reported to be filled up, one to seven in a flush, and a flush is
reported at what was committed before the call that makes it. A dense stream commits the bytes of the values, and never
reports a flush. -/
theorem position_accounts (capacity : Nat) (calls : List (Call (Path × Value)))
    (h : ∀ p, Call.rollBack p ∉ calls) :
    (let start := Sparse.Writer.ofCapacity capacity
      let r := Call.run Path.put start (calls ++ [.position])
      let n := IntWriter.length r.value.2
      let cost := fun pvs : List (Path × Value) =>
        ((Value.intsOf (pvs.map Prod.snd)).map Sparse.bitLength).sum
      r.value.1.getLast? = some (some n)
        ∧ n = ((Call.blocks calls).map (fun b => (cost b + 7) / 8)).sum
        ∧ 8 * n = cost (Call.written calls) + filled r.events
        ∧ (∀ pendingBits committed, Event.flushing pendingBits committed ∈ r.events →
          1 ≤ pendingBits ∧ pendingBits ≤ 7)
        ∧ ∀ (before after : List (Call (Path × Value))) (c : Call (Path × Value)),
          calls ++ [.position] = before ++ c :: after →
          let s := (Call.run Path.put start before).value.2
          ∀ pendingBits committed,
            Event.flushing pendingBits committed ∈ (c.perform Path.put s).events →
              committed = IntWriter.length s)
      ∧ (let r := Call.run Path.put (Dense.Writer.ofCapacity capacity) (calls ++ [.position])
        let n := IntWriter.length r.value.2
        r.value.1.getLast? = some (some n)
          ∧ n = ((Value.intsOf ((Call.written calls).map Prod.snd)).map Dense.byteLength).sum
          ∧ flushes r.events = []) := by
  have hforward : ∀ p, Call.rollBack p ∉ calls ++ [.position] := fun p => by simp [h p]
  constructor
  · intro start r n cost
    have hcost : ∀ pvs : List (Path × Value),
        (pvs.map (fun pv => (pv.2.ints.flatMap Sparse.code).length)).sum = cost pvs :=
      sum_length_codes Sparse.length_code
    have hstart : start.Sound := Sparse.Writer.sound_ofCapacity capacity
    obtain ⟨hanswer, hblocks, hbits⟩ := Sparse.Writer.tracks.paths.position_run
      Sparse.Writer.pads hstart (Sparse.Writer.bits_ofCapacity capacity) h
    simp only [hcost] at hblocks hbits
    have hflushing : ∀ (before after : List (Call (Path × Value))) (c : Call (Path × Value)),
        calls ++ [.position] = before ++ c :: after →
        ∀ pendingBits committed, Event.flushing pendingBits committed
            ∈ (c.perform Path.put (Call.run Path.put start before).value.2).events →
          1 ≤ pendingBits ∧ pendingBits ≤ 7
            ∧ committed = IntWriter.length (Call.run Path.put start before).value.2 := by
      intro before after c hsplit pendingBits committed hevent
      exact Sparse.Writer.tracks.paths.flushing_run Sparse.Writer.pads hstart
        (hsplit ▸ hforward) hevent
    refine ⟨hanswer, hblocks, hbits, ?_, ?_⟩
    · intro pendingBits committed hevent
      obtain ⟨before, c, after, hsplit, hcall⟩ := Call.exists_of_mem_events_run hevent
      obtain ⟨hpos, hseven, -⟩ := hflushing before after c hsplit pendingBits committed hcall
      exact ⟨hpos, hseven⟩
    · intro before after c hsplit s pendingBits committed hevent
      exact (hflushing before after c hsplit pendingBits committed hevent).2.2
  · intro r n
    have hstart := Dense.Writer.sound_ofCapacity capacity
    obtain ⟨hanswer, -, hbits⟩ := Dense.Writer.tracks.paths.position_run
      Dense.Writer.pads hstart (Dense.Writer.bits_ofCapacity capacity) h
    have hnone : flushes r.events = [] := Dense.Writer.tracks.paths.flushes_run_eq_nil
      Dense.Writer.pads (fun w hw => by rw [Dense.Writer.length_bits hw, Nat.mul_mod_right])
      hstart hforward
    rw [sum_length_codes_dense, filled, hnone] at hbits
    exact ⟨hanswer, Nat.eq_of_mul_eq_mul_left (by decide) hbits, hnone⟩

/-- Two blocks that end inside a byte, and one that a flush leaves empty. -/
theorem position_accounts_two_blocks :
    let calls : List (Call (Path × Value)) :=
      [.write (.word, .long 5), .write (.operation, .bool true), .align, .startScope,
        .write (.operation, .double ⟨1⟩)]
    let r := Call.run Path.put (Sparse.Writer.ofCapacity 1) (calls ++ [.position])
    (∀ p, Call.rollBack p ∉ calls)
      ∧ IntWriter.length r.value.2 = [3, 0, 7].sum
      ∧ flushes r.events = [(1, 2), (1, 9)]
      ∧ r.value.1.getLast? = some (some (IntWriter.length r.value.2)) := by
  intro calls r
  have hforward : ∀ p, Call.rollBack p ∉ calls := by simp [calls]
  obtain ⟨⟨hanswer, hblocks, -⟩, -⟩ := position_accounts 1 calls hforward
  have hcosts : (Call.blocks calls).map (fun b =>
      (((Value.intsOf (b.map Prod.snd)).map Sparse.bitLength).sum + 7) / 8) = [3, 0, 7] := by
    decide +kernel
  have hflushes : flushes r.events = [(1, 2), (1, 9)] := by decide +kernel
  rw [hcosts] at hblocks
  subst r
  exact ⟨hforward, hblocks, hflushes, hanswer⟩

end ValueStream
