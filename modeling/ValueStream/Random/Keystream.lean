/-!
An endless stream of words that a key determines.

The stream is the keystream of ChaCha with twelve rounds: a block of sixteen
words for each value of a counter, from a key of eight words. A key is made
from a 64 bit seed by a linear congruential generator whose states are
permuted to words.
-/

namespace ValueStream.Random

structure Row where
  a : UInt32
  b : UInt32
  c : UInt32
  d : UInt32
  deriving DecidableEq

namespace Row

/-- The operation in each of the four places. -/
def zip (f : UInt32 → UInt32 → UInt32) (r s : Row) : Row := ⟨f r.a s.a, f r.b s.b, f r.c s.c, f r.d s.d⟩

/-- The words one place to the left, the first one last. -/
def shift (r : Row) : Row := ⟨r.b, r.c, r.d, r.a⟩

def toList (r : Row) : List UInt32 := [r.a, r.b, r.c, r.d]

end Row

/-- Rotate the bits of a word to the left. -/
def rotateLeft (w n : UInt32) : UInt32 := (w <<< n) ||| (w >>> (32 - n))

def turn (n : UInt32) (w v : UInt32) : UInt32 := rotateLeft (w ^^^ v) n

structure Grid where
  first : Row
  second : Row
  third : Row
  fourth : Row
  deriving DecidableEq

namespace Grid

def round (g : Grid) : Grid :=
  let first := g.first.zip (· + ·) g.second
  let fourth := g.fourth.zip (turn 16) first
  let third := g.third.zip (· + ·) fourth
  let second := g.second.zip (turn 12) third
  let first := first.zip (· + ·) second
  let fourth := fourth.zip (turn 8) first
  let third := third.zip (· + ·) fourth
  let second := second.zip (turn 7) third
  ⟨first, second, third, fourth⟩

/-- The diagonals as columns. -/
def toDiagonals (g : Grid) : Grid :=
  ⟨g.first, g.second.shift, g.third.shift.shift, g.fourth.shift.shift.shift⟩

/-- The columns as diagonals. -/
def ofDiagonals (g : Grid) : Grid :=
  ⟨g.first, g.second.shift.shift.shift, g.third.shift.shift, g.fourth.shift⟩

/-- Two rounds, in the columns and in the diagonals, so many times. -/
def rounds : (pairs : Nat) → Grid → Grid
  | 0, g => g
  | pairs + 1, g => rounds pairs g.round.toDiagonals.round.ofDiagonals

def add (g h : Grid) : Grid :=
  ⟨g.first.zip (· + ·) h.first, g.second.zip (· + ·) h.second, g.third.zip (· + ·) h.third,
    g.fourth.zip (· + ·) h.fourth⟩

end Grid

/-- A stream: its key, the counter of the next block, and the words of the
present block that are left. -/
structure Keystream where
  low : Row
  high : Row
  counter : UInt64
  left : List UInt32
  deriving DecidableEq

namespace Keystream

def block (s : Keystream) : Grid :=
  let start : Grid := ⟨⟨0x61707865, 0x3320646E, 0x79622D32, 0x6B206574⟩, s.low, s.high,
    ⟨s.counter.toUInt32, (s.counter >>> 32).toUInt32, 0, 0⟩⟩
  (Grid.rounds 6 start).add start

def next (s : Keystream) : UInt32 × Keystream :=
  match s.left with
  | w :: left => (w, { s with left })
  | [] =>
    let ⟨⟨w, b, c, d⟩, second, third, fourth⟩ := s.block
    (w, { s with
      counter := s.counter + 1
      left := [b, c, d] ++ second.toList ++ third.toList ++ fourth.toList })

/-- The next two words as one, the low half first. -/
def nextLong (s : Keystream) : UInt64 × Keystream :=
  let (low, s) := s.next
  let (high, s) := s.next
  (low.toUInt64 ||| (high.toUInt64 <<< 32), s)

end Keystream

/-- The state after a state of the generator of keys. -/
def advance (state : UInt64) : UInt64 := state * 6364136223846793005 + 11634580027462260723

/-- The word that a state of the generator of keys stands for. -/
def permute (state : UInt64) : UInt32 :=
  let turns := (state >>> 59).toUInt32
  let mixed := (((state >>> 18) ^^^ state) >>> 27).toUInt32
  (mixed >>> turns) ||| (mixed <<< ((32 - turns) % 32))

/-- Four words of a key, and the state behind them. -/
def keyRow (state : UInt64) : Row × UInt64 :=
  let a := advance state
  let b := advance a
  let c := advance b
  let d := advance c
  (⟨permute a, permute b, permute c, permute d⟩, d)

def Keystream.ofSeed (seed : UInt64) : Keystream :=
  let (low, state) := keyRow seed
  let (high, _) := keyRow state
  ⟨low, high, 0, []⟩

example : (Keystream.nextLong ⟨⟨1, 23, 456, 7890⟩, ⟨0, 0, 0, 0⟩, 0, []⟩).1 = 10719222850664546238 := by
  decide +kernel

end ValueStream.Random
