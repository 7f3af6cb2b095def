/-!
Fields of a line: the blanks around a text, splitting at a separator and joining
again.

A character is blank when it has the Unicode property White_Space. There are
25 of them.
-/

namespace ValueStream.Text

/-- The ranges of characters with the property White_Space, by code point. -/
def blankRanges : List (Nat × Nat) :=
  [(0x09, 0x0D), (0x20, 0x20), (0x85, 0x85), (0xA0, 0xA0), (0x1680, 0x1680), (0x2000, 0x200A),
    (0x2028, 0x2029), (0x202F, 0x202F), (0x205F, 0x205F), (0x3000, 0x3000)]

def isBlank (c : Char) : Bool := blankRanges.any (fun (lo, hi) => lo ≤ c.toNat && c.toNat ≤ hi)

/-- The text without the blanks before and after it. -/
def trim (cs : List Char) : List Char :=
  ((cs.dropWhile isBlank).reverse.dropWhile isBlank).reverse

/-- The texts between the separators: one more than there are separators. -/
def split (separator : Char) : List Char → List (List Char)
  | [] => [[]]
  | c :: cs =>
    if c = separator then [] :: split separator cs
    else
      match split separator cs with
      | [] => [[c]]
      | field :: fields => (c :: field) :: fields

def join (separator : Char) : List (List Char) → List Char
  | [] => []
  | [field] => field
  | field :: fields => field ++ separator :: join separator fields

example : split ',' "a,,b".toList = ["a".toList, [], "b".toList] := by decide +kernel

theorem split_ne_nil (separator : Char) (cs : List Char) : split separator cs ≠ [] := by
  induction cs with
  | nil => simp [split]
  | cons c cs ih =>
    rw [split]
    split
    · simp
    · split <;> simp

theorem join_split (separator : Char) (cs : List Char) :
    join separator (split separator cs) = cs := by
  induction cs with
  | nil => rfl
  | cons c cs ih =>
    rw [split]
    cases h : split separator cs with
    | nil => exact absurd h (split_ne_nil separator cs)
    | cons field fields =>
      rw [h] at ih
      by_cases hc : c = separator
      · subst hc; simp [join, ih]
      · simp only [hc, if_false]
        cases fields with
        | nil => simpa [join] using ih
        | cons g gs => simpa [join] using ih

end ValueStream.Text
