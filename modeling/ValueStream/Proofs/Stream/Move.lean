import ValueStream.Stream.Reader

/-!
Moves of a reader, and the cursor they move.

A run is a list of moves, each of them reading an integer or seeking a byte;
`onCursor` says what a move does to a bare number of bits, given a function
that decodes the integer at a place. `Follows` is what a reader has to show of
its own operations to move as that number does, and `Follows.run` is what
comes of it for every run.
-/

namespace ValueStream

/-- A move of a reader. -/
inductive Move where
  | read
  | seek (position : Nat)
  deriving DecidableEq

namespace Move

variable {ρ : Type} [IntReader ρ]

/-- Make a move; reading gives an integer. -/
def perform (r : ρ) : Move → Option UInt32 × ρ
  | read => ((IntReader.readInt r).1, (IntReader.readInt r).2)
  | seek p => (none, IntReader.seek r p)

/-- Make moves one after the other; what was read, and the reader in the end. -/
def run (r : ρ) : List Move → List (Option UInt32) × ρ
  | [] => ([], r)
  | m :: ms => ((m.perform r).1 :: (run (m.perform r).2 ms).1, (run (m.perform r).2 ms).2)

/-- What a move makes of a cursor in bits, where `decode` gives the integer at a
cursor and the cursor after it. -/
def onCursor (decode : Nat → UInt32 × Nat) (c : Nat) : Move → Option UInt32 × Nat
  | read => ((decode c).1, (decode c).2)
  | seek p => (none, 8 * p)

/-- What a run makes of a cursor, with the integers that were read. -/
def runOnCursor (decode : Nat → UInt32 × Nat) (c : Nat) : List Move → List (Option UInt32) × Nat
  | [] => ([], c)
  | m :: ms =>
    ((m.onCursor decode c).1 :: (runOnCursor decode (m.onCursor decode c).2 ms).1,
      (runOnCursor decode (m.onCursor decode c).2 ms).2)

end Move

/-- Readers that satisfy `Sound` read what `decode` says at their cursor. -/
structure Follows {ρ : Type} [IntReader ρ] (decode : Nat → UInt32 × Nat) (Sound : ρ → Prop)
    (cursor : ρ → Nat) : Prop where
  readInt : ∀ r : ρ, Sound r → Sound (IntReader.readInt r).2
    ∧ decode (cursor r) = ((IntReader.readInt r).1, cursor (IntReader.readInt r).2)
  seek : ∀ (r : ρ) (p : Nat), Sound r → Sound (IntReader.seek r p) ∧ cursor (IntReader.seek r p) = 8 * p
  position : ∀ r : ρ, Sound r → IntReader.position r = cursor r / 8

namespace Follows

variable {ρ : Type} [IntReader ρ] {decode : Nat → UInt32 × Nat} {Sound : ρ → Prop}
  {cursor : ρ → Nat}

/-- One move keeps the reader sound and moves its cursor as it moves a number. -/
theorem perform (F : Follows decode Sound cursor) {r : ρ} (hr : Sound r) (m : Move) :
    Sound (m.perform r).2
      ∧ m.onCursor decode (cursor r) = ((m.perform r).1, cursor (m.perform r).2) := by
  cases m with
  | read =>
    obtain ⟨hsound, hdecode⟩ := F.readInt r hr
    refine ⟨hsound, ?_⟩
    rw [Move.onCursor, hdecode]
    rfl
  | seek p =>
    obtain ⟨hsound, hcursor⟩ := F.seek r p hr
    exact ⟨hsound, Prod.ext rfl hcursor.symm⟩

/-- A run reads the integers and ends at the cursor that a bare number does. -/
theorem run (F : Follows decode Sound cursor) {r : ρ} (hr : Sound r) (ms : List Move) :
    Sound (Move.run r ms).2
      ∧ Move.runOnCursor decode (cursor r) ms = ((Move.run r ms).1, cursor (Move.run r ms).2) := by
  induction ms generalizing r with
  | nil => exact ⟨hr, rfl⟩
  | cons m ms ih =>
    obtain ⟨hsound, hmove⟩ := F.perform hr m
    obtain ⟨hend, hrun⟩ := ih hsound
    refine ⟨hend, ?_⟩
    rw [Move.runOnCursor, hmove, hrun, Move.run]

end Follows

end ValueStream
