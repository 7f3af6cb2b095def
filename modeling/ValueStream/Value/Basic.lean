import ValueStream.Binary.Format
import ValueStream.Kind

/-!
Values of the seven kinds, and the two ways in which values are equal.

`bitsEq` tells apart whatever a stream tells apart: patterns are compared bit
by bit, so a not-a-number equals itself and the zeros differ. `numEq` compares
what the patterns are worth.
-/

namespace ValueStream

open Binary

inductive Value where
  | int (v : UInt32)
  | sint (v : Int32)
  | float (v : Binary32)
  | double (v : Binary64)
  | long (v : Int64)
  | bool (v : Bool)
  | byte (v : Int8)
  deriving DecidableEq

namespace Value

def kind : Value → Kind
  | int _ => .int
  | sint _ => .sint
  | float _ => .float
  | double _ => .double
  | long _ => .long
  | bool _ => .bool
  | byte _ => .byte

/-- Equality of kinds and of what the values are worth. -/
def numEq : Value → Value → Bool
  | int a, int b => a == b
  | sint a, sint b => a == b
  | float a, float b => Format.single.equal a.bits.toNat b.bits.toNat
  | double a, double b => Format.double.equal a.bits.toNat b.bits.toNat
  | long a, long b => a == b
  | bool a, bool b => a == b
  | byte a, byte b => a == b
  | _, _ => false

def bitsEq : Value → Value → Bool
  | float a, float b => a.bits == b.bits
  | double a, double b => a.bits == b.bits
  | a, b => a.numEq b

/-- Equality position by position, of lists of equal length. -/
def allBitsEq : List Value → List Value → Bool
  | [], [] => true
  | a :: as, b :: bs => a.bitsEq b && allBitsEq as bs
  | _, _ => false

end Value

end ValueStream
