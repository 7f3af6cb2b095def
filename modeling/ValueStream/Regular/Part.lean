import ValueStream.Regular.Mode
import ValueStream.Text.Numeral

/-!
The smallest parts of a regular expression: characters, escapes and signs.

Expressions are compiled without tables of characters, to automata that read
bytes of text. So a part that needs to know the letters of all scripts, or that
could match a byte inside a character, is well formed but not supported. The
short classes of digits, blanks and word characters and the edges of words are
those of ASCII, and only where the mode is not wide.
-/

namespace ValueStream.Regular

inductive Part where
  /-- A character; a byte if it is written as `\x` with two digits. -/
  | literal (c : Char) (byte : Bool)
  /-- One of the classes `\d`, `\s`, `\w`, or what is outside of it. -/
  | short (negated : Bool)
  /-- An edge of the text or of a line. -/
  | edge
  /-- An edge of a word, or a place that is none. -/
  | wordEdge
  /-- Any character. -/
  | any
  deriving DecidableEq

/-- Digits of a code in base sixteen, with space after each in a spaced mode. -/
def digits? (m : Mode) : (count value : Nat) → List Char → Option (Nat × List Char)
  | 0, value, cs => some (value, cs)
  | _ + 1, _, [] => none
  | count + 1, value, c :: cs =>
    (Text.digitValue? 16 c).bind (fun d => digits? m count (16 * value + d) (m.skip cs))

/-- A character by the digits of its code. -/
def ofCode? (m : Mode) (count : Nat) (byte : Bool) (cs : List Char) : Option (Part × List Char) :=
  (digits? m count 0 (m.skip cs)).bind (fun (code, rest) =>
    if code.isValidChar then some (.literal (Char.ofNat code) byte, rest) else none)

/-- The part that a backslash begins, and the rest. Any character of ASCII that
is neither letter nor digit stands for itself. -/
def escape? (m : Mode) : List Char → Option (Part × List Char)
  | [] => none
  | c :: cs =>
    match c with
    | 'x' => ofCode? m 2 true cs
    | 'u' => ofCode? m 4 false cs
    | 'U' => ofCode? m 8 false cs
    | 'a' => some (.literal '\x07' false, cs)
    | 'f' => some (.literal '\x0C' false, cs)
    | 't' => some (.literal '\t' false, cs)
    | 'n' => some (.literal '\n' false, cs)
    | 'r' => some (.literal '\r' false, cs)
    | 'v' => some (.literal '\x0B' false, cs)
    | 'd' => some (.short false, cs)
    | 's' => some (.short false, cs)
    | 'w' => some (.short false, cs)
    | 'D' => some (.short true, cs)
    | 'S' => some (.short true, cs)
    | 'W' => some (.short true, cs)
    | 'A' => some (.edge, cs)
    | 'z' => some (.edge, cs)
    | 'b' => some (.wordEdge, cs)
    | 'B' => some (.wordEdge, cs)
    | '<' => some (.wordEdge, cs)
    | '>' => some (.wordEdge, cs)
    | c => if c.toNat < 0x80 && !c.isAlphanum then some (.literal c false, cs) else none

def part? (m : Mode) : List Char → Option (Part × List Char)
  | [] => none
  | '\\' :: cs => escape? m cs
  | '.' :: cs => some (.any, cs)
  | '^' :: cs => some (.edge, cs)
  | '$' :: cs => some (.edge, cs)
  | c :: cs => some (.literal c false, cs)

/-- A part inside of a class, and the rest. -/
def member? (m : Mode) : List Char → Option (Part × List Char)
  | [] => none
  | '\\' :: cs => escape? m cs
  | c :: cs => some (.literal c false, cs)

/-- Whether the part is supported outside of classes. -/
def Part.isSupported (m : Mode) : Part → Bool
  | literal c byte => if m.wide then !m.caseless else !(byte && 0x7F < c.toNat)
  | short negated => !m.wide && !negated
  | edge => true
  | wordEdge => !m.wide
  | any => m.wide

/-- Whether the part may stand in a class and is supported there. -/
def Part.isMember (m : Mode) : Part → Bool
  | literal c _ => if m.wide then !m.caseless else c.toNat ≤ 0x7F
  | short negated => !m.wide && !negated
  | _ => false

example : escape? .usual "x41b".toList = some (.literal 'A' true, ['b']) := by decide +kernel

example : escape? .usual "uD800".toList = none := by decide +kernel

end ValueStream.Regular
