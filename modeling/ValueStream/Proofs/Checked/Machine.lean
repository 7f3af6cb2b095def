import ValueStream.Trace.Traced
import ValueStream.Word

/-!
Steps that stop the program where the machine would.

The operations on streams compute with words that wrap, with whole numbers that
have no end and with blocks of any size. A machine does not: a sum outside its
type, a shift by the width or more, an index outside the block and a block too
large to allocate each stop the program. `Checked` is a computation that may stop
in one of these ways, and the steps defined here (`add`, `shiftLeft`, `store`,
`resize` and the like) are made only where the machine makes them.

The transforms of words are written with them too, and never stop: whatever the
word is, they give what `ValueStream.Word` gives (`foldChecked_eq`,
`unfoldChecked_eq`, `highChecked_eq`, `joinChecked_eq`).
-/

namespace ValueStream

open Trace

/-- A way in which a step of the machine stops the program. -/
inductive Stop where
  /-- A result outside the numbers of its type. -/
  | overflow
  /-- A shift by a negative number, or by the width of the word or more. -/
  | shift
  /-- A cell outside the block, or a piece of it that ends outside. -/
  | index
  /-- A block of more bytes than one allocation can have. -/
  | allocation
  deriving DecidableEq

/-- A computation that may stop the program, and what it reports until then. -/
abbrev Checked (α : Type) : Type := ExceptT Stop Traced α

namespace Checked

/-- A type of the machine's numbers: its width in bits, its least and its greatest
number, and the whole number that an element is. -/
class Number (α : Type) where
  width : Nat
  least : Int
  greatest : Int
  value : α → Int

instance : Number UInt8 := ⟨8, 0, 0xFF, fun x => x.toNat⟩

instance : Number UInt32 := ⟨32, 0, 0xFFFFFFFF, fun x => x.toNat⟩

instance : Number UInt64 := ⟨64, 0, 0xFFFFFFFFFFFFFFFF, fun x => x.toNat⟩

instance : Number Int32 := ⟨32, -0x80000000, 0x7FFFFFFF, Int32.toInt⟩

/-- Sizes and places, which a machine keeps in 64 bits. -/
instance : Number Nat := ⟨64, 0, 0xFFFFFFFFFFFFFFFF, fun n => n⟩

variable {α : Type}

/-- A result that there is only under a condition; without it the program stops. -/
def require (p : Prop) [Decidable p] (stop : Stop) (a : α) : Checked α :=
  if p then pure a else throw stop

theorem require_of {p : Prop} [Decidable p] (h : p) (stop : Stop) (a : α) :
    require p stop a = pure a := if_pos h

/-- Steps that stop nowhere are chained as steps that cannot stop are: the second begins
with what the first leaves. -/
theorem bind_eq_liftM {β : Type} {c : Checked α} {x : Traced α} {f : α → Checked β}
    {g : α → Traced β} (hc : c = liftM x) (hf : f x.value = liftM (g x.value)) :
    c >>= f = liftM (x >>= g) := by
  have hfirst : (liftM x >>= f).run = x >>= fun a => (f a).run := ExceptT.run_bind_lift x f
  have hlift : (liftM (x >>= g) : Checked β).run
      = x >>= fun a => (liftM (g a) : Checked β).run := by
    rw [liftM_bind]
    exact ExceptT.run_bind_lift x _
  rw [hc]
  apply ExceptT.ext
  rw [hfirst, hlift]
  apply Traced.ext'
  · simp only [Traced.value_bind, hf]
  · simp only [Traced.events_bind, hf]

section Arithmetic

variable [Number α]

/-- The type has the number. -/
def Fits (α : Type) [Number α] (n : Int) : Prop := Number.least α ≤ n ∧ n ≤ Number.greatest α

/-- A word of the type can be shifted so far. -/
def Shifts (s : α) : Prop := 0 ≤ Number.value s ∧ Number.value s < Number.width α

instance (n : Int) : Decidable (Fits α n) := inferInstanceAs (Decidable (_ ∧ _))

instance (s : α) : Decidable (Shifts s) := inferInstanceAs (Decidable (_ ∧ _))

def add [Add α] (a b : α) : Checked α :=
  require (Fits α (Number.value a + Number.value b)) .overflow (a + b)

def sub [Sub α] (a b : α) : Checked α :=
  require (Fits α (Number.value a - Number.value b)) .overflow (a - b)

def mul [Mul α] (a b : α) : Checked α :=
  require (Fits α (Number.value a * Number.value b)) .overflow (a * b)

def neg [Neg α] (a : α) : Checked α := require (Fits α (-Number.value a)) .overflow (-a)

def shiftLeft [ShiftLeft α] (a s : α) : Checked α := require (Shifts s) .shift (a <<< s)

def shiftRight [ShiftRight α] (a s : α) : Checked α := require (Shifts s) .shift (a >>> s)

end Arithmetic

/-- The most bytes that one allocation can have. -/
def largestBlock : Nat := 0x7FFFFFFFFFFFFFFF

/-- Reallocate to a size; cells that come with it are zero. -/
def resize (cells : Array UInt8) (size : Nat) : Checked (Array UInt8) :=
  require (size ≤ largestBlock) .allocation
    (cells.extract 0 size ++ Array.replicate (size - cells.size) 0)

/-- Put a byte into a cell of the block. -/
def store (cells : Array UInt8) (place : Nat) (byte : UInt8) : Checked (Array UInt8) :=
  if h : place < cells.size then pure (cells.set place byte h) else throw .index

/-- The cells before a place. -/
def front (cells : Array UInt8) (place : Nat) : Checked (Array UInt8) :=
  require (place ≤ cells.size) .index (cells.extract 0 place)

/-! ## Where the steps do not stop -/

theorem shiftLeft_of [Number α] [ShiftLeft α] {s : α} (h : Shifts s) (a : α) :
    shiftLeft a s = pure (a <<< s) := require_of h _ _

theorem shiftRight_of [Number α] [ShiftRight α] {s : α} (h : Shifts s) (a : α) :
    shiftRight a s = pure (a >>> s) := require_of h _ _

theorem shifts_byte {s : UInt8} (h : s.toNat < 8) : Shifts s :=
  ⟨Int.natCast_nonneg _, Int.ofNat_lt.mpr h⟩

theorem shifts_word {s : UInt32} (h : s.toNat < 32) : Shifts s :=
  ⟨Int.natCast_nonneg _, Int.ofNat_lt.mpr h⟩

theorem fits_size {n : Nat} (h : n ≤ 0xFFFFFFFFFFFFFFFF) : Fits Nat n :=
  ⟨Int.natCast_nonneg _, Int.ofNat_le.mpr h⟩

theorem add_size {m n : Nat} (h : m + n ≤ 0xFFFFFFFFFFFFFFFF) : add m n = pure (m + n) := by
  apply require_of
  show Fits Nat ((m : Int) + n)
  rw [← Int.natCast_add]
  exact fits_size h

theorem mul_size {m n : Nat} (h : m * n ≤ 0xFFFFFFFFFFFFFFFF) : mul m n = pure (m * n) := by
  apply require_of
  show Fits Nat ((m : Int) * n)
  rw [← Int.natCast_mul]
  exact fits_size h

theorem add_byte {a b : UInt8} (h : a.toNat + b.toNat ≤ 0xFF) : add a b = pure (a + b) := by
  apply require_of
  show (0 : Int) ≤ a.toNat + b.toNat ∧ (a.toNat : Int) + b.toNat ≤ 0xFF
  omega

theorem add_word {a b : UInt32} (h : a.toNat + b.toNat ≤ 0xFFFFFFFF) : add a b = pure (a + b) := by
  apply require_of
  show (0 : Int) ≤ a.toNat + b.toNat ∧ (a.toNat : Int) + b.toNat ≤ 0xFFFFFFFF
  omega

theorem mul_word {a b : UInt32} (h : a.toNat * b.toNat ≤ 0xFFFFFFFF) : mul a b = pure (a * b) := by
  apply require_of
  show (0 : Int) ≤ a.toNat * b.toNat ∧ (a.toNat : Int) * b.toNat ≤ 0xFFFFFFFF
  rw [← Int.natCast_mul]
  omega

theorem sub_byte {a b : UInt8} (h : b.toNat ≤ a.toNat) : sub a b = pure (a - b) := by
  have hlt := a.toNat_lt
  apply require_of
  show (0 : Int) ≤ a.toNat - b.toNat ∧ (a.toNat : Int) - b.toNat ≤ 0xFF
  omega

theorem sub_word {a b : UInt32} (h : b.toNat ≤ a.toNat) : sub a b = pure (a - b) := by
  have hlt := a.toNat_lt
  apply require_of
  show (0 : Int) ≤ a.toNat - b.toNat ∧ (a.toNat : Int) - b.toNat ≤ 0xFFFFFFFF
  omega

/-- What is left of a byte behind some of its bits can be shifted by, where there are such bits. -/
theorem shifts_rest {s : UInt8} (hpos : s ≠ 0) (h : s.toNat < 8) : Shifts (8 - s) := by
  have hsome : s.toNat ≠ 0 := fun hz => hpos (UInt8.toNat_inj.mp hz)
  have hle : s ≤ 8 := UInt8.le_iff_toNat_le.mpr (Nat.le_of_lt h)
  apply shifts_byte
  rw [UInt8.toNat_sub_of_le _ _ hle]
  show 8 - s.toNat < 8
  omega

theorem store_of {cells : Array UInt8} {place : Nat} (h : place < cells.size) (byte : UInt8) :
    store cells place byte = pure (cells.setIfInBounds place byte) := by
  rw [store, dif_pos h, Array.setIfInBounds, dif_pos h]

/-- A block that becomes larger keeps its cells. -/
theorem resize_of {cells : Array UInt8} {size : Nat} (hle : cells.size ≤ size)
    (h : size ≤ largestBlock) :
    resize cells size = pure (cells ++ Array.replicate (size - cells.size) 0) := by
  rw [resize, require_of h, Array.extract_eq_self_of_le hle]

end Checked

/-! ## The transforms of words -/

namespace Word

open Checked

def foldChecked (v : Int32) : Checked UInt32 := do
  let doubled ← shiftLeft v 1
  let sign ← shiftRight v 31
  pure (doubled ^^^ sign).toUInt32

def unfoldChecked (w : UInt32) : Checked Int32 := do
  let half ← shiftRight w 1
  let mask ← neg (w &&& 1).toInt32
  pure (half.toInt32 ^^^ mask)

def highChecked (p : UInt64) : Checked UInt32 := do
  let upper ← shiftRight p 32
  pure upper.toUInt32

def joinChecked (upper lower : UInt32) : Checked UInt64 := do
  let moved ← shiftLeft upper.toUInt64 32
  pure (moved ||| lower.toUInt64)

theorem foldChecked_eq (v : Int32) : foldChecked v = pure (fold v) := rfl

/-- The lowest bit is zero or one, and either of them has a negative. -/
theorem unfoldChecked_eq (w : UInt32) : unfoldChecked w = pure (unfold w) := by
  have hlow : (w &&& 1).toNat = w.toNat % 2 := by
    rw [UInt32.toNat_and]
    exact Nat.and_two_pow_sub_one_eq_mod w.toNat 1
  have hbit : w &&& 1 = 0 ∨ w &&& 1 = 1 := by
    rw [← UInt32.toNat_inj, ← UInt32.toNat_inj, hlow]
    exact Nat.mod_two_eq_zero_or_one _
  have hneg : neg (w &&& 1).toInt32 = pure (-(w &&& 1).toInt32) := by
    rcases hbit with h | h
    · rw [h]
      rfl
    · rw [h]
      rfl
  rw [unfoldChecked, hneg]
  rfl

theorem highChecked_eq (p : UInt64) : highChecked p = pure (high p) := rfl

theorem joinChecked_eq (upper lower : UInt32) : joinChecked upper lower = pure (join upper lower) :=
  rfl

end Word

end ValueStream
