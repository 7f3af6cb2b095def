import ValueStream.Random.Draw
import ValueStream.Schema

/-!
Sample records, shaped like what scopes record: mostly zeros and small
numbers, now and then a word of any size. A seed gives the same records every
time.
-/

namespace ValueStream.Tool.Sample

open ValueStream.Random

/-- The double of a whole number of eighths. -/
def eighths (i : Int) : Nat :=
  Binary.Format.double.signed (i < 0) (Binary.Format.double.ofRatio ⟨i.natAbs, 8⟩)

/-- The float of a whole number of halves. -/
def halves (i : Int) : Nat :=
  Binary.Format.single.signed (i < 0) (Binary.Format.single.ofRatio ⟨i.natAbs, 2⟩)

/-- One fifth, as the double nearest to it says. -/
def oneFifth : UInt64 := 0x3333333333333400

/-- A small value of the kind. -/
def small (kind : Kind) (s : Keystream) : Value × Keystream :=
  match kind with
  | .int =>
    let (i, s) := shortWords.between 0 64 s
    (.int (UInt32.ofNat i.toNat), s)
  | .sint =>
    let (i, s) := shortWords.between (-32) 64 s
    (.sint (Int32.ofInt i), s)
  | .float =>
    let (i, s) := shortWords.between (-64) 128 s
    (.float ⟨UInt32.ofNat (halves i)⟩, s)
  | .double =>
    let (i, s) := shortWords.between (-1024) 2048 s
    (.double ⟨UInt64.ofNat (eighths i)⟩, s)
  | .long =>
    let (i, s) := longWords.between (-1000) 2000 s
    (.long (Int64.ofInt i), s)
  | .bool =>
    let (b, s) := happens oneFifth s
    (.bool b, s)
  | .byte => (.byte 0, s)

/-- A value of the kind of any size; floating numbers are below 1. -/
def large (kind : Kind) (s : Keystream) : Value × Keystream :=
  match kind with
  | .int =>
    let (w, s) := s.next
    (.int w, s)
  | .sint =>
    let (w, s) := s.next
    (.sint w.toInt32, s)
  | .float =>
    let (w, s) := s.next
    (.float ⟨UInt32.ofNat (Binary.Format.single.ofRatio ⟨(w >>> 8).toNat, 0x1000000⟩)⟩, s)
  | .double =>
    let (w, s) := s.nextLong
    (.double ⟨UInt64.ofNat (Binary.Format.double.ofRatio ⟨(w >>> 11).toNat, 0x20000000000000⟩)⟩, s)
  | .long =>
    let (w, s) := s.nextLong
    (.long w.toInt64, s)
  | .bool =>
    let (b, s) := happens oneFifth s
    (.bool b, s)
  | .byte =>
    let (w, s) := s.next
    (.byte w.toUInt8.toInt8, s)

/-- A value of the kind: small in four cases of five. -/
def value (kind : Kind) (s : Keystream) : Value × Keystream :=
  let (choice, s) := shortWords.below 100 s
  if choice < 80 then small kind s else large kind s

def record : List Kind → Keystream → List Value × Keystream
  | [], s => ([], s)
  | kind :: kinds, s =>
    let (v, s) := value kind s
    let (vs, s) := record kinds s
    (v :: vs, s)

/-- As many records as asked for. -/
def records (kinds : List Kind) : (count : Nat) → Keystream → List (List Value)
  | 0, _ => []
  | count + 1, s =>
    let (r, s) := record kinds s
    r :: records kinds count s

end ValueStream.Tool.Sample
