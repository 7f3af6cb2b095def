import ValueStream.Stream.Reader
import ValueStream.Stream.Writer
import ValueStream.Value.Basic

/-!
Values on a stream.

There are two ways onto and off a stream besides the typed operations of
`IntWriter` and `IntReader`: by the type of a word, fixed where the program is
written (`Streamable`), and by a kind known only while it runs (`Value.write`,
`Kind.read`). All of them put the same integers on the stream.
-/

namespace ValueStream

open Trace

/-- A type whose words travel through a stream. -/
class Streamable (α : Type) where
  kind : Kind
  write : {σ : Type} → [IntWriter σ] → σ → α → Traced σ
  read : {ρ : Type} → [IntReader ρ] → ρ → α × ρ

namespace Streamable

instance : Streamable UInt32 := ⟨.int, IntWriter.writeInt, IntReader.readInt⟩

instance : Streamable Int32 := ⟨.sint, IntWriter.writeSigned, IntReader.readSigned⟩

instance : Streamable Binary32 := ⟨.float, IntWriter.writeFloat, IntReader.readFloat⟩

instance : Streamable Binary64 := ⟨.double, IntWriter.writeDouble, IntReader.readDouble⟩

instance : Streamable Int64 := ⟨.long, IntWriter.writeLong, IntReader.readLong⟩

instance : Streamable Bool := ⟨.bool, IntWriter.writeBool, IntReader.readBool⟩

instance : Streamable Int8 := ⟨.byte, IntWriter.writeByte, IntReader.readByte⟩

end Streamable

variable {σ ρ : Type} [IntWriter σ] [IntReader ρ]

def Value.write (s : σ) : Value → Traced σ
  | .int v => IntWriter.writeInt s v
  | .sint v => IntWriter.writeSigned s v
  | .float v => IntWriter.writeFloat s v
  | .double v => IntWriter.writeDouble s v
  | .long v => IntWriter.writeLong s v
  | .bool v => IntWriter.writeBool s v
  | .byte v => IntWriter.writeByte s v

def Value.writeAll (s : σ) : List Value → Traced σ
  | [] => pure s
  | v :: vs => do
    let s ← v.write s
    Value.writeAll s vs

def Kind.read (k : Kind) (r : ρ) : Value × ρ :=
  match k with
  | .int => (IntReader.readInt r).map .int id
  | .sint => (IntReader.readSigned r).map .sint id
  | .float => (IntReader.readFloat r).map .float id
  | .double => (IntReader.readDouble r).map .double id
  | .long => (IntReader.readLong r).map .long id
  | .bool => (IntReader.readBool r).map .bool id
  | .byte => (IntReader.readByte r).map .byte id

def Kind.readAll : List Kind → ρ → List Value × ρ
  | [], r => ([], r)
  | k :: ks, r =>
    let (v, r) := k.read r
    let (vs, r) := Kind.readAll ks r
    (v :: vs, r)

end ValueStream
