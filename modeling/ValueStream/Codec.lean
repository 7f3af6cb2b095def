import ValueStream.Dense.Reader
import ValueStream.Dense.Writer
import ValueStream.Sparse.Reader
import ValueStream.Sparse.Writer

/-!
The choice between the two codecs, made while running.

`Codec.writer` and `Codec.reader` give streams of the chosen codec; the sums
`Codec.Writer` and `Codec.Reader` do what the chosen stream does.
-/

namespace ValueStream

open Trace

inductive Codec where
  | sparse
  | dense
  deriving DecidableEq

namespace Codec

def all : List Codec := [sparse, dense]

/-- The codec used when none is asked for. -/
def default : Codec := sparse

/-- The name on a command line and in a JSON text. -/
def name : Codec → String
  | sparse => "sparse"
  | dense => "dense"

/-- The name in a report. -/
def label : Codec → String
  | sparse => "Sparse"
  | dense => "Dense"

def other : Codec → Codec
  | sparse => dense
  | dense => sparse

inductive Writer where
  | sparse (w : Sparse.Writer)
  | dense (w : Dense.Writer)
  deriving DecidableEq

namespace Writer

def writeInt : Writer → UInt32 → Traced Writer
  | sparse w, v => sparse <$> w.writeInt v
  | dense w, v => dense <$> w.writeInt v

def flush : Writer → Traced Writer
  | sparse w => sparse <$> w.flush
  | dense w => pure (dense w)

def rollBack : Writer → Nat → Traced Writer
  | sparse w, position => sparse <$> w.rollBack position
  | dense w, position => dense <$> w.rollBack position

def buffer : Writer → Buffer
  | sparse w => w.buffer
  | dense w => w.buffer

instance : IntWriter Writer where
  writeInt := writeInt
  flush := flush
  rollBack := rollBack
  length w := w.buffer.length
  bytes w := w.buffer.bytes

end Writer

inductive Reader where
  | sparse (r : Sparse.Reader)
  | dense (r : Dense.Reader)
  deriving DecidableEq

namespace Reader

def readInt : Reader → UInt32 × Reader
  | sparse r => let (v, r) := r.readInt; (v, sparse r)
  | dense r => let (v, r) := r.readInt; (v, dense r)

def position : Reader → Nat
  | sparse r => r.position
  | dense r => r.position

def seek : Reader → Nat → Reader
  | sparse r, p => sparse (r.seek p)
  | dense r, p => dense (r.seek p)

/-- The bit offset within the current byte, where the codec has one. -/
def bit? : Reader → Option UInt8
  | sparse r => some r.bit
  | dense _ => none

instance : IntReader Reader where
  readInt := readInt
  position := position
  seek := seek

end Reader

/-- A fresh write stream over a block of `capacity` bytes. -/
def writer (c : Codec) (capacity : Nat) : Writer :=
  match c with
  | sparse => .sparse (Sparse.Writer.ofCapacity capacity)
  | dense => .dense (Dense.Writer.ofCapacity capacity)

def reader (c : Codec) (data : Array UInt8) (position : Nat) : Reader :=
  match c with
  | sparse => .sparse (Sparse.Reader.ofBytes data position)
  | dense => .dense (Dense.Reader.ofBytes data position)

end Codec

end ValueStream
