/-!
Whole numbers as text, read strictly and printed plainly.

Nothing but digits and one leading sign is accepted: no blanks, no separators,
no empty text. Leading zeros are allowed.
-/

namespace ValueStream.Text

/-- The value of a digit in a base up to sixteen; letters of either case. -/
def digitValue? (base : Nat) (c : Char) : Option Nat :=
  let v :=
    if '0' ≤ c ∧ c ≤ '9' then c.toNat - '0'.toNat
    else if 'a' ≤ c ∧ c ≤ 'f' then c.toNat - 'a'.toNat + 10
    else if 'A' ≤ c ∧ c ≤ 'F' then c.toNat - 'A'.toNat + 10
    else 16
  if v < base then some v else none

def appendDigits? (base : Nat) : (n : Nat) → List Char → Option Nat
  | n, [] => some n
  | n, c :: cs => (digitValue? base c).bind (fun d => appendDigits? base (n * base + d) cs)

def digits? (base : Nat) (cs : List Char) : Option Nat :=
  if cs.isEmpty then none else appendDigits? base 0 cs

/-- An optional `+`, then one or more digits. -/
def natural? (base : Nat) : List Char → Option Nat
  | '+' :: cs => digits? base cs
  | cs => digits? base cs

/-- An optional sign, then one or more decimal digits. -/
def integer? : List Char → Option Int
  | '-' :: cs => (digits? 10 cs).map (fun n => -(n : Int))
  | '+' :: cs => (digits? 10 cs).map (fun n => (n : Int))
  | cs => (digits? 10 cs).map (fun n => (n : Int))

/-- The decimal digits of a number, without leading zeros. -/
def natural (n : Nat) : List Char := Nat.toDigits 10 n

/-- A minus sign if needed, then decimal digits. -/
def integer (i : Int) : List Char :=
  if i < 0 then '-' :: natural i.natAbs else natural i.natAbs

/-- Characters on the left until the text has the width. -/
def padLeft (width : Nat) (c : Char) (cs : List Char) : List Char :=
  List.replicate (width - cs.length) c ++ cs

/-- Characters on the right until the text has the width. -/
def padRight (width : Nat) (c : Char) (cs : List Char) : List Char :=
  cs ++ List.replicate (width - cs.length) c

/-- Equality where letters A to Z of either case are the same. -/
def sameLetters (a b : List Char) : Bool := a.map Char.toLower == b.map Char.toLower

example : [natural? 10 "+007".toList, natural? 16 "fF".toList, natural? 10 "-1".toList,
    natural? 10 "+".toList, natural? 10 [] ] = [some 7, some 255, none, none, none] := by
  decide +kernel

example : [integer? "-0128".toList, integer? "+5".toList, integer? "+-5".toList]
    = [some (-128), some 5, none] := by decide +kernel

end ValueStream.Text
