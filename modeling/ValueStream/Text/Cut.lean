/-!
Parts of a text between places that are counted in bytes of UTF-8.

A place may fall inside a character; there a text cannot be cut.
-/

namespace ValueStream.Text

def from? : (place : Nat) → List Char → Option (List Char)
  | 0, cs => some cs
  | _ + 1, [] => none
  | place + 1, c :: cs =>
    if c.utf8Size ≤ place + 1 then from? (place + 1 - c.utf8Size) cs else none

def before? : (place : Nat) → List Char → Option (List Char)
  | 0, _ => some []
  | _ + 1, [] => none
  | place + 1, c :: cs =>
    if c.utf8Size ≤ place + 1 then (before? (place + 1 - c.utf8Size) cs).map (c :: ·) else none

/-- The text between two places, the first not after the second. -/
def between? (start stop : Nat) (cs : List Char) : Option (List Char) :=
  (from? start cs).bind (before? (stop - start))

example : between? 2 5 "aé=bc".toList = none := by decide +kernel

example : between? 3 5 "aé=bc".toList = some "=b".toList := by decide +kernel

end ValueStream.Text
