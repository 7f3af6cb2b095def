import ValueStream.Json.Document
import ValueStream.Text.Numeral

/-!
Reading JSON documents strictly.

Blanks are space, tab, line feed and carriage return. There are no trailing
commas, no comments, no leading zeros, no control characters in strings, and
nothing but blanks after the document. Every step consumes a character, so the
length of the text bounds the depth of the reading.
-/

namespace ValueStream.Json

def isBlank (c : Char) : Bool := c == ' ' || c == '\t' || c == '\n' || c == '\r'

def skipBlanks (cs : List Char) : List Char := cs.dropWhile isBlank

def hex4? (a b c d : Char) : Option Nat := Text.digits? 16 [a, b, c, d]

def isUpperHalf (n : Nat) : Bool := 0xD800 ≤ n && n < 0xDC00

def isLowerHalf (n : Nat) : Bool := 0xDC00 ≤ n && n < 0xE000

/-- The character that the two halves of a pair stand for. -/
def ofHalves (upper lower : Nat) : Char :=
  Char.ofNat (0x10000 + (upper - 0xD800) * 0x400 + (lower - 0xDC00))

/-- The character that a letter after a backslash stands for. -/
def escape? : Char → Option Char
  | '"' => some '"'
  | '\\' => some '\\'
  | '/' => some '/'
  | 'b' => some '\x08'
  | 'f' => some '\x0c'
  | 'n' => some '\n'
  | 'r' => some '\r'
  | 't' => some '\t'
  | _ => none

/-- Put a character in front of a string that is still read as text. -/
def prepend (c : Option Char) :
    Option (Option (List Char) × List Char) → Option (Option (List Char) × List Char)
  | none => none
  | some (text, cs) => some (c.bind (fun c => text.map (c :: ·)), cs)

/-- The rest of a string behind its opening quote, and the text after it. -/
def readString : List Char → Option (Option (List Char) × List Char)
  | [] => none
  | '"' :: cs => some (some [], cs)
  | '\\' :: 'u' :: a :: b :: c :: d :: '\\' :: 'u' :: e :: f :: g :: h :: cs =>
    match hex4? a b c d, hex4? e f g h with
    | some upper, some lower =>
      if isUpperHalf upper && isLowerHalf lower then
        prepend (some (ofHalves upper lower)) (readString cs)
      else
        let first := if isUpperHalf upper || isLowerHalf upper then none else some (Char.ofNat upper)
        prepend first (readString ('\\' :: 'u' :: e :: f :: g :: h :: cs))
    | _, _ => none
  | '\\' :: 'u' :: a :: b :: c :: d :: cs =>
    match hex4? a b c d with
    | some n =>
      let first := if isUpperHalf n || isLowerHalf n then none else some (Char.ofNat n)
      prepend first (readString cs)
    | none => none
  | '\\' :: c :: cs =>
    match escape? c with
    | some c => prepend (some c) (readString cs)
    | none => none
  | c :: cs => if c.toNat < 0x20 then none else prepend (some c) (readString cs)
termination_by cs => cs.length

def readDigits : List Char → List Nat × List Char
  | [] => ([], [])
  | c :: cs =>
    match Text.digitValue? 10 c with
    | some d =>
      let (ds, cs) := readDigits cs
      (d :: ds, cs)
    | none => ([], c :: cs)

/-- The digits before the point: a single zero, or no zero in front. -/
def readWhole (cs : List Char) : Option (List Nat × List Char) :=
  match readDigits cs with
  | ([], _) => none
  | (0 :: _ :: _, _) => none
  | (ds, cs) => some (ds, cs)

/-- A point and the digits behind it, if there is a point. -/
def readFraction : List Char → Option (List Nat × List Char)
  | '.' :: cs =>
    match readDigits cs with
    | ([], _) => none
    | (ds, cs) => some (ds, cs)
  | cs => some ([], cs)

def ofDigits (ds : List Nat) : Nat := ds.foldl (fun n d => 10 * n + d) 0

def readExponent : List Char → Option (Option Int × List Char)
  | [] => some (none, [])
  | c :: cs =>
    if c = 'e' ∨ c = 'E' then
      let (negative, cs) :=
        match cs with
        | '-' :: cs => (true, cs)
        | '+' :: cs => (false, cs)
        | cs => (false, cs)
      match readDigits cs with
      | ([], _) => none
      | (ds, cs) =>
        let n : Int := ofDigits ds
        some (some (if negative then -n else n), cs)
    else some (none, c :: cs)

def readNumber (negative : Bool) (cs : List Char) : Option (Document × List Char) := do
  let (whole, cs) ← readWhole cs
  let (fraction, cs) ← readFraction cs
  let (exponent, cs) ← readExponent cs
  pure (.number ⟨negative, whole, fraction, exponent⟩, cs)

/-- Anything but an array or an object. -/
def readScalar : List Char → Option (Document × List Char)
  | 'n' :: 'u' :: 'l' :: 'l' :: cs => some (.null, cs)
  | 't' :: 'r' :: 'u' :: 'e' :: cs => some (.bool true, cs)
  | 'f' :: 'a' :: 'l' :: 's' :: 'e' :: cs => some (.bool false, cs)
  | '"' :: cs => (readString cs).map (fun (text, cs) => (.string text, cs))
  | '-' :: cs => readNumber true cs
  | cs => readNumber false cs

mutual

/-- A document behind blanks, and the text after it. -/
def readDocument (depth : Nat) (cs : List Char) : Option (Document × List Char) :=
  match depth with
  | 0 => none
  | depth + 1 =>
    match skipBlanks cs with
    | '[' :: cs =>
      match skipBlanks cs with
      | ']' :: cs => some (.array [], cs)
      | cs => (readElements depth cs).map (fun (elements, cs) => (.array elements, cs))
    | '\x7b' :: cs =>
      match skipBlanks cs with
      | '\x7d' :: cs => some (.object [], cs)
      | cs => (readMembers depth cs).map (fun (members, cs) => (.object members, cs))
    | cs => readScalar cs

/-- One or more elements up to the closing bracket. -/
def readElements (depth : Nat) (cs : List Char) : Option (List Document × List Char) :=
  match depth with
  | 0 => none
  | depth + 1 =>
    match readDocument depth cs with
    | none => none
    | some (element, cs) =>
      match skipBlanks cs with
      | ',' :: cs => (readElements depth cs).map (fun (elements, cs) => (element :: elements, cs))
      | ']' :: cs => some ([element], cs)
      | _ => none

/-- One or more members up to the closing brace. -/
def readMembers (depth : Nat) (cs : List Char) :
    Option (List (Option (List Char) × Document) × List Char) :=
  match depth with
  | 0 => none
  | depth + 1 =>
    match skipBlanks cs with
    | '"' :: cs =>
      match readString cs with
      | none => none
      | some (key, cs) =>
        match skipBlanks cs with
        | ':' :: cs =>
          match readDocument depth cs with
          | none => none
          | some (member, cs) =>
            match skipBlanks cs with
            | ',' :: cs =>
              (readMembers depth cs).map (fun (members, cs) => ((key, member) :: members, cs))
            | '\x7d' :: cs => some ([(key, member)], cs)
            | _ => none
        | _ => none
    | _ => none

end

/-- The document that a whole text is. Each bracket uses two steps of depth. -/
def ofChars? (cs : List Char) : Option Document :=
  match readDocument (2 * cs.length + 1) cs with
  | some (document, cs) => if (skipBlanks cs).isEmpty then some document else none
  | none => none

end ValueStream.Json
