import ValueStream.Proofs.Value.Wire

/-!
The three paths that values take onto and off a stream.

A value goes by the typed operation of its kind, by the type of its word, or by
a kind known only while running. The path makes no difference: writing is
`Value.write` and reading is `Kind.read` on each of them (`write_eq`,
`read_eq`), also when every value of a list takes a path of its own.
-/

namespace ValueStream

open Trace

/-- A way onto and off a stream. -/
inductive Path where
  /-- The typed operations of the stream. -/
  | operation
  /-- The type of the word. -/
  | word
  /-- The kind of the value, known only while running. -/
  | kind
  deriving DecidableEq

namespace Path

variable {σ ρ : Type} [IntWriter σ] [IntReader ρ]

/-- Append a value by a path. -/
def write (p : Path) (s : σ) (v : Value) : Traced σ :=
  match p, v with
  | operation, .int v => IntWriter.writeInt s v
  | operation, .sint v => IntWriter.writeSigned s v
  | operation, .float v => IntWriter.writeFloat s v
  | operation, .double v => IntWriter.writeDouble s v
  | operation, .long v => IntWriter.writeLong s v
  | operation, .bool v => IntWriter.writeBool s v
  | operation, .byte v => IntWriter.writeByte s v
  | word, .int v => Streamable.write s v
  | word, .sint v => Streamable.write s v
  | word, .float v => Streamable.write s v
  | word, .double v => Streamable.write s v
  | word, .long v => Streamable.write s v
  | word, .bool v => Streamable.write s v
  | word, .byte v => Streamable.write s v
  | kind, v => v.write s

/-- Read a value of a kind by a path. -/
def read (p : Path) (k : Kind) (r : ρ) : Value × ρ :=
  match p, k with
  | operation, .int => (IntReader.readInt r).map .int id
  | operation, .sint => (IntReader.readSigned r).map .sint id
  | operation, .float => (IntReader.readFloat r).map .float id
  | operation, .double => (IntReader.readDouble r).map .double id
  | operation, .long => (IntReader.readLong r).map .long id
  | operation, .bool => (IntReader.readBool r).map .bool id
  | operation, .byte => (IntReader.readByte r).map .byte id
  | word, .int => (Streamable.read r).map .int id
  | word, .sint => (Streamable.read r).map .sint id
  | word, .float => (Streamable.read r).map .float id
  | word, .double => (Streamable.read r).map .double id
  | word, .long => (Streamable.read r).map .long id
  | word, .bool => (Streamable.read r).map .bool id
  | word, .byte => (Streamable.read r).map .byte id
  | kind, k => k.read r

theorem write_eq (p : Path) (s : σ) (v : Value) : p.write s v = v.write s := by
  cases p <;> cases v <;> rfl

theorem read_eq (p : Path) (k : Kind) (r : ρ) : p.read k r = k.read r := by
  cases p <;> cases k <;> rfl

/-- Append a value, each by its path. -/
def put (s : σ) (pv : Path × Value) : Traced σ := pv.1.write s pv.2

/-- Read a value of each kind in turn, the `i`th by path `paths i`. -/
def readAll (paths : Nat → Path) : List Kind → ρ → List Value × ρ
  | [], r => ([], r)
  | k :: ks, r =>
    let (v, r) := (paths 0).read k r
    let (vs, r) := readAll (fun i => paths (i + 1)) ks r
    (v :: vs, r)

theorem readAll_eq (paths : Nat → Path) (ks : List Kind) (r : ρ) :
    readAll paths ks r = Kind.readAll ks r := by
  induction ks generalizing paths r with
  | nil => rfl
  | cons k ks ih => simp only [readAll, Kind.readAll, read_eq, ih]

end Path

/-- A stream that keeps track of integers keeps track of values on any path. -/
theorem Tracks.paths {σ : Type} [IntWriter σ] {code : UInt32 → List Bool} {Sound : σ → Prop}
    {bits : σ → List Bool} (T : Tracks IntWriter.writeInt code Sound bits) :
    Tracks Path.put (fun pv => pv.2.ints.flatMap code) Sound bits where
  put s pv hs := by
    rw [Path.put, Path.write_eq]
    exact T.values.put s pv.2 hs
  flush := T.flush
  rollBack := T.rollBack
  length := T.length
  bytes := T.bytes

end ValueStream
