import Mathlib.Data.List.Forall2
import ValueStream.Proofs.Codec
import ValueStream.Proofs.Value.Path

/-!
Scopes are read back wherever the bytes end up.

`Scopes.write` writes scopes, each at the start of a byte, and gives their
starts; `Scopes.visit` has one reader seek them in any order. The codes of a
scope lie in the bits of the stream from its start on (`write_spec`), and stay
where they are when bytes are put before and behind them. So every visit reads
the values of its scope and ends where their codes end (`visit_reads_back`).
-/

namespace ValueStream.Scopes

open Trace Traced Bits

/-! ## Writing and visiting -/

section

variable {σ ρ : Type} [IntWriter σ] [IntReader ρ]

/-- Start each scope in turn and write its values, each by its path; pad to a
byte at the end. Gives the starts. -/
def write (s : σ) : List (List (Path × Value)) → Traced (List Nat × σ)
  | [] => do
    let s ← IntWriter.align s
    pure ([], s)
  | scope :: scopes => do
    let (start, s) ← IntWriter.startScope s
    let s ← scope.foldlM Path.put s
    let (starts, s) ← write s scopes
    pure (start :: starts, s)

/-- The values of a scope. -/
def values (scope : List (Path × Value)) : List Value := scope.map Prod.snd

/-- The integers that a scope is on a stream. -/
def ints (scope : List (Path × Value)) : List UInt32 := (values scope).flatMap Value.ints

/-- A visit to one of `n` scopes; its `i`th value is read by path `paths i`. -/
structure Visit (n : Nat) where
  scope : Fin n
  paths : Nat → Path

/-- Visits made one after the other by one reader: each seeks its scope, which
starts `offset` bytes later than it was written, and reads by its kinds. Gives
what each visit read, and the reader after it. -/
def visit (scopes : List (List (Path × Value))) (starts : List Nat) (offset : Nat) (r : ρ) :
    List (Visit scopes.length) → List (List Value × ρ)
  | [] => []
  | v :: vs =>
    let r := IntReader.seek r (offset + starts.getD v.scope 0)
    let out := Path.readAll v.paths ((values (scopes.get v.scope)).map Value.kind) r
    out :: visit scopes starts offset out.2 vs

end

/-! ## Where the codes lie -/

/-- The bits hold the codes of a scope from byte `start` on. -/
def Holds (code : UInt32 → List Bool) (bits : List Bool) (start : Nat)
    (scope : List (Path × Value)) : Prop :=
  ∃ front back, bits = front ++ (ints scope).flatMap code ++ back ∧ front.length = 8 * start

/-- What is written pads and extends the bits, and ends at a byte; every scope lies
at its start. -/
theorem write_spec {σ : Type} [IntWriter σ] {code : UInt32 → List Bool} {Sound : σ → Prop}
    {bits : σ → List Bool} (T : Tracks IntWriter.writeInt code Sound bits) {s : σ} (hs : Sound s)
    (scopes : List (List (Path × Value))) :
    Sound (write s scopes).value.2
      ∧ bits s <+: bits (write s scopes).value.2
      ∧ (bits (write s scopes).value.2).length % 8 = 0
      ∧ List.Forall₂ (Holds code (bits (write s scopes).value.2)) (write s scopes).value.1 scopes := by
  induction scopes generalizing s with
  | nil =>
    obtain ⟨hflush, hpad⟩ := T.flush s hs
    refine ⟨hflush, ?_, ?_, List.Forall₂.nil⟩
    · show bits s <+: bits (IntWriter.flush s).value
      rw [hpad]
      exact prefix_pad (bits s)
    · show (bits (IntWriter.flush s).value).length % 8 = 0
      rw [hpad, length_pad, Nat.mul_mod_right]
  | cons scope scopes ih =>
    obtain ⟨hflush, hpad⟩ := T.flush s hs
    obtain ⟨hput, hbits⟩ := T.paths.putAll hflush scope
    obtain ⟨hend, hprefix, haligned, hholds⟩ := ih hput
    have hcode : scope.flatMap (fun pv => pv.2.ints.flatMap code) = (ints scope).flatMap code := by
      rw [ints, values, List.flatMap_map, List.flatMap_assoc]
    rw [hcode, hpad] at hbits
    rw [hbits] at hprefix
    refine ⟨hend, ?_, haligned, List.Forall₂.cons ?_ hholds⟩
    · exact (prefix_pad (bits s)).trans ((List.prefix_append _ _).trans hprefix)
    · -- the scope starts at the padded end of what was there before, and what follows
      -- only adds to it
      obtain ⟨back, hback⟩ := hprefix
      refine ⟨pad (bits s), back, hback.symm, ?_⟩
      show (pad (bits s)).length = 8 * IntWriter.length (IntWriter.flush s).value
      rw [T.length _ hflush, hpad, length_pad, Nat.mul_div_cancel_left _ (by decide)]

/-- What holds a scope among other bytes has the codes of the scope lie behind them. -/
theorem liesAt_of_holds {code : UInt32 → List Bool} {bits : List Bool} {start : Nat}
    {scope : List (Path × Value)} (h : Holds code bits start scope) {z : Nat → Bool} {offset : Nat}
    (hz : LiesAt z (8 * offset) bits) :
    LiesAt z (8 * (offset + start)) ((ints scope).flatMap code)
      ∧ 8 * start + ((ints scope).flatMap code).length ≤ bits.length := by
  obtain ⟨front, back, rfl, hfront⟩ := h
  have hcode := (liesAt_append.mp (liesAt_append.mp hz).1).2
  rw [hfront, ← Nat.mul_add] at hcode
  refine ⟨hcode, ?_⟩
  rw [List.length_append, List.length_append, hfront]
  exact Nat.le_add_right _ _

/-! ## What is read -/

/-- Visits read the values of their scopes, wherever the reader was before. -/
theorem visit_spec {ρ : Type} [IntReader ρ] {z : Nat → Bool} {code : UInt32 → List Bool}
    {Sound : ρ → Prop} {cursor : ρ → Nat} (R : Recalls z code Sound cursor)
    {scopes : List (List (Path × Value))} {starts : List Nat} {offset : Nat}
    (hlies : ∀ i : Fin scopes.length,
      LiesAt z (8 * (offset + starts.getD i 0)) ((ints (scopes.get i)).flatMap code))
    {r : ρ} (hr : Sound r) (visits : List (Visit scopes.length)) :
    List.Forall₂ (fun v out => out.1 = values (scopes.get v.scope)
        ∧ cursor out.2 = 8 * (offset + starts.getD v.scope 0)
          + ((ints (scopes.get v.scope)).flatMap code).length)
      visits (visit scopes starts offset r visits) := by
  induction visits generalizing r with
  | nil => exact List.Forall₂.nil
  | cons v visits ih =>
    obtain ⟨hseek, hcursor⟩ := R.seek r (offset + starts.getD v.scope 0) hr
    have hcode := hlies v.scope
    rw [← hcursor] at hcode
    obtain ⟨hend, hread, hlast⟩ := R.readAll hseek hcode
    rw [← Path.readAll_eq v.paths] at hend hread hlast
    rw [hcursor] at hlast
    exact List.Forall₂.cons ⟨hread, hlast⟩ (ih hend)

/-- Scopes written by either codec are read back by visits in any order, any number
of times and on any paths, whatever bytes stand before and behind them. Each visit
ends at the bit where the integers of its scope end, inside the bytes written. -/
theorem visit_reads_back (c : Codec) (capacity : Nat) (scopes : List (List (Path × Value)))
    (pre post : Array UInt8) (position : Nat) (visits : List (Visit scopes.length)) :
    let starts := (write (c.writer capacity) scopes).value.1
    let w := (write (c.writer capacity) scopes).value.2
    let r := c.reader (pre ++ IntWriter.bytes w ++ post) position
    starts.length = scopes.length
      ∧ List.Forall₂ (fun v out =>
          Value.allBitsEq (values (scopes.get v.scope)) out.1 = true
            ∧ out.2.cursor = 8 * (pre.size + starts.getD v.scope 0)
              + ((ints (scopes.get v.scope)).map c.cost).sum
            ∧ out.2.cursor ≤ 8 * (pre.size + IntWriter.length w))
        visits (visit scopes starts pre.size r visits) := by
  intro starts w r
  obtain ⟨hsound, -, haligned, hholds⟩ := write_spec c.tracks (c.sound_writer capacity) scopes
  have hcount : starts.length = scopes.length := hholds.length_eq
  -- the stream ends at a byte, so its bytes are all of its bits
  have hdata : LiesAt (endless (pre ++ IntWriter.bytes w ++ post)) (8 * pre.size) w.bits := by
    have hbytes := liesAt_bytes pre post (IntWriter.bytes w).toList
    rw [Array.toArray_toList, c.tracks.bytes w hsound, ofBytes_wholeBytes haligned] at hbytes
    exact hbytes
  have hscope : ∀ i : Fin scopes.length, Holds c.code w.bits (starts.getD i 0) (scopes.get i) := by
    intro i
    have hi : (i : Nat) < starts.length := by
      rw [hcount]
      exact i.isLt
    rw [List.getD_eq_getElem _ _ hi]
    exact hholds.get hi i.isLt
  refine ⟨hcount, ?_⟩
  refine (visit_spec (c.recalls _) (fun i => (liesAt_of_holds (hscope i) hdata).1)
    (c.sound_reader _ position) visits).imp ?_
  rintro v out ⟨hread, hcursor⟩
  rw [c.length_flatMap_code] at hcursor
  refine ⟨?_, hcursor, ?_⟩
  · rw [hread]
    exact Value.allBitsEq_self _
  · have hinside := (liesAt_of_holds (hscope v.scope) hdata).2
    have hlength : IntWriter.length w = w.bits.length / 8 := c.tracks.length w hsound
    have hwhole : w.bits.length % 8 = 0 := haligned
    rw [c.length_flatMap_code] at hinside
    omega

end ValueStream.Scopes
