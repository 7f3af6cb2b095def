import ValueStream.Limits
import ValueStream.Trace.Traced

/-!
A growing block of bytes with a length.

The block is allocated larger than what is committed, and cells past the
length keep whatever was written there last. Moving the length back therefore
frees nothing: a scope can be encoded, measured, given up and encoded again in
the same block. Equality looks at the whole block.
-/

namespace ValueStream

open Trace

/-- An allocated block of which the first `length` bytes are committed. -/
structure Buffer where
  cells : Array UInt8
  length : Nat
  deriving DecidableEq

namespace Buffer

/-- A zeroed block of `capacity` bytes with nothing committed. -/
def ofCapacity (capacity : Nat) : Buffer := ⟨Array.replicate capacity 0, 0⟩

def capacity (b : Buffer) : Nat := b.cells.size

/-- The committed bytes, which are also what is left of a block that is cut off behind them. -/
def bytes (b : Buffer) : Array UInt8 := b.cells.extract 0 b.length

/-- Multiply a positive size by the growth factor until `required` fits. -/
def sizeFrom (size required : Nat) (positive : 0 < size) : Nat :=
  if size < required then
    sizeFrom (Limits.growthFactor * size) required
      (Nat.mul_pos (by decide) positive)
  else size
termination_by required - size
decreasing_by simp only [Limits.growthFactor]; omega

/-- The capacity a block of `old` bytes takes to hold `required`. -/
def grownCapacity (old required : Nat) : Nat :=
  sizeFrom (max (Limits.growthFactor * old) Limits.leastGrowth) required
    (Nat.lt_of_lt_of_le (by decide) (Nat.le_max_right _ _))

/-- Allocate more zeroed cells so that `required` bytes fit. -/
def grow : Buffer → (required : Nat) → Traced Buffer
  | ⟨cells, length⟩, required => do
    let new := grownCapacity cells.size required
    Traced.report (.growing cells.size new length)
    pure ⟨cells ++ Array.replicate (new - cells.size) 0, length⟩

/-- Commit one more byte, growing a full block first. -/
def write (b : Buffer) (byte : UInt8) : Traced Buffer := do
  match ← if b.length = b.capacity then b.grow (b.length + 1) else pure b with
  | ⟨cells, length⟩ => pure ⟨cells.setIfInBounds length byte, length + 1⟩

/-- Move the end of the committed bytes, growing the block if it lies outside. -/
def setLength (b : Buffer) (length : Nat) : Traced Buffer := do
  match ← if b.capacity < length then b.grow length else pure b with
  | ⟨cells, _⟩ => pure ⟨cells, length⟩

end Buffer

end ValueStream
