/-!
JSON documents as trees.

A number is kept as it is written, because what it is worth depends on who
asks. A string is kept as its characters if they can be put together, and as
`none` if an escape names half of a pair alone: such a string may stand where
nobody looks, but it equals no text.
-/

namespace ValueStream.Json

/-- A number as written: digits before and after the point, and an exponent.
Without a point `fraction` is empty. -/
structure Number where
  negative : Bool
  whole : List Nat
  fraction : List Nat
  exponent : Option Int
  deriving DecidableEq

inductive Document where
  | null
  | bool (b : Bool)
  | number (n : Number)
  | string (text : Option (List Char))
  | array (elements : List Document)
  | object (members : List (Option (List Char) × Document))

end ValueStream.Json
