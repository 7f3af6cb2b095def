import ValueStream.Text.Fields

/-!
How the parts of a regular expression are read.

Flags change it, for the rest of a group or of the whole expression: blanks
and comments between parts may be skipped, letters may match in either case,
and the expression may be about single bytes instead of characters.
-/

namespace ValueStream.Regular

structure Mode where
  /-- Blanks, and comments from `#` to the end of the line, are skipped. -/
  spaced : Bool
  /-- Letters match in either case. -/
  caseless : Bool
  /-- Parts match whole characters of any script, not single bytes. -/
  wide : Bool
  deriving DecidableEq

namespace Mode

/-- The mode in which an expression begins. -/
def usual : Mode := ⟨false, false, true⟩

/-- Turn a flag on or off; the flags for lines, dots and greed change nothing here. -/
def set (on : Bool) (flag : Char) (m : Mode) : Mode :=
  match flag with
  | 'x' => { m with spaced := on }
  | 'i' => { m with caseless := on }
  | 'u' => { m with wide := on }
  | _ => m

/-- Turn on the flags before a minus sign and off those after it. -/
def change : (on : Bool) → List Char → Mode → Mode
  | _, [], m => m
  | _, '-' :: flags, m => change false flags m
  | on, flag :: flags, m => change on flags (m.set on flag)

/-- The text after blanks and comments; whether a comment is open at its start. -/
def afterSpace : (comment : Bool) → List Char → List Char
  | _, [] => []
  | true, c :: cs => afterSpace (c != '\n') cs
  | false, c :: cs =>
    if Text.isBlank c then afterSpace false cs
    else if c = '#' then afterSpace true cs
    else c :: cs

/-- The text from the next part on. -/
def skip (m : Mode) (cs : List Char) : List Char := if m.spaced then afterSpace false cs else cs

/-- The character that is looked at behind blanks and behind the first `#`. -/
def peek (m : Mode) (cs : List Char) : Option Char :=
  if m.spaced then
    match cs.dropWhile Text.isBlank with
    | '#' :: cs => (cs.dropWhile Text.isBlank).head?
    | cs => cs.head?
  else cs.head?

end Mode

/-- Whether the letters are flags that may stand together: each at most once,
and after a minus sign at least one. -/
def areFlags (cs : List Char) : Bool :=
  cs.all (fun c => "-imsuURx".toList.contains c) && decide cs.Nodup && cs.getLast? != some '-'

example : Mode.usual.change true "i-u".toList = ⟨false, true, false⟩ := by decide

example : (Mode.skip ⟨true, false, true⟩ " # a\n b".toList) = ['b'] := by decide +kernel

example : ["i", "i-s", "-", "ii", "i-", "i--s", "y", ""].map (fun s => areFlags s.toList)
    = [true, true, false, false, false, false, false, true] := by decide +kernel

end ValueStream.Regular
