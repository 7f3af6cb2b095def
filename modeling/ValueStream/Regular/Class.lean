import ValueStream.Regular.Part

/-!
Classes of characters in brackets.

Of a class only its depth is kept: how many brackets, lists of members and
operations are nested in it. Classes may stand in classes, and `&&`, `--` and
`~~` combine what is before them with what is after them.
-/

namespace ValueStream.Regular

/-- The depth of parts that stand together: a part alone adds nothing. -/
def depthTogether : List Nat → Nat
  | [] => 0
  | [d] => d
  | ds => ds.foldl max 0 + 1

/-- A class that is still open: the depth of what an operation combines it
with, if there is one, and the depths of its members. -/
structure OpenClass where
  left : Option Nat
  members : List Nat
  deriving DecidableEq

namespace OpenClass

/-- The class with one more member of a depth. -/
def add (k : OpenClass) (depth : Nat) : OpenClass := { k with members := depth :: k.members }

/-- The depth of what is in the brackets so far. -/
def depth (k : OpenClass) : Nat :=
  match k.left with
  | none => depthTogether k.members
  | some left => max left (depthTogether k.members) + 1

def combine (k : OpenClass) : OpenClass := ⟨some k.depth, []⟩

end OpenClass

def classNames : List String :=
  ["alnum", "alpha", "ascii", "blank", "cntrl", "digit", "graph", "lower", "print", "punct",
    "space", "upper", "word", "xdigit"]

/-- Whether a class by its name, such as `[:digit:]` or `[:^digit:]`, is turned
around, and the text after it. -/
def named? : List Char → Option (Bool × List Char)
  | '[' :: ':' :: cs =>
    let negated := cs.head? == some '^'
    let (name, rest) := (if negated then cs.tail else cs).span (· != ':')
    match rest with
    | ':' :: ']' :: rest =>
      if classNames.contains (String.ofList name) then some (negated, rest) else none
    | _ => none
  | _ => none

/-- The minus signs that a class begins with are members. Each step consumes one. -/
def leadingMinus (m : Mode) : (fuel : Nat) → OpenClass → List Char → OpenClass × List Char
  | fuel + 1, k, '-' :: cs => leadingMinus m fuel (k.add 0) (m.skip cs)
  | _, k, cs => (k, cs)

/-- The start of a class behind its opening bracket. It may be turned around,
if it is about characters; and a closing bracket that comes first is a member. -/
def openClass? (m : Mode) (cs : List Char) : Option (OpenClass × List Char) :=
  let cs := m.skip cs
  let negated := cs.head? == some '^'
  let cs := if negated then m.skip cs.tail else cs
  let (k, cs) := leadingMinus m cs.length ⟨none, []⟩ cs
  let (k, cs) :=
    match k.members, cs with
    | [], ']' :: cs => (k.add 0, m.skip cs)
    | _, cs => (k, cs)
  if (negated && !m.wide) || (!k.members.isEmpty && !(Part.literal '-' false).isMember m) then none
  else some (k, cs)

/-- A member of a class or a range of characters, and the text behind it. -/
def item? (m : Mode) (cs : List Char) : Option (List Char) := do
  let (first, rest) ← member? m cs
  match m.skip rest with
  | '-' :: behind =>
    if m.peek behind == some ']' || m.peek behind == some '-' then
      if first.isMember m then some ('-' :: behind) else none
    else
      let (last, rest) ← member? m (m.skip behind)
      match first, last with
      | .literal a _, .literal z _ =>
        if a ≤ z && first.isMember m && last.isMember m then some rest else none
      | _, _ => none
  | rest => if first.isMember m then some rest else none

/-- The depth of a class and the text behind its closing bracket, from inside
of it; the classes around it are open too. Each step consumes a character. -/
def closeClass? (m : Mode) : (fuel : Nat) → OpenClass → (around : List OpenClass) → List Char →
    Option (Nat × List Char)
  | 0, _, _, _ => none
  | fuel + 1, k, around, cs =>
    match m.skip cs with
    | [] => none
    | '[' :: cs =>
      match named? ('[' :: cs) with
      | some (negated, rest) =>
        if (if m.wide then !m.caseless else !negated) then closeClass? m fuel (k.add 0) around rest
        else none
      | none =>
        (openClass? m cs).bind (fun (inner, rest) => closeClass? m fuel inner (k :: around) rest)
    | ']' :: cs =>
      match around with
      | [] => some (k.depth + 1, cs)
      | outer :: around => closeClass? m fuel (outer.add (k.depth + 1)) around cs
    | '&' :: '&' :: cs => closeClass? m fuel k.combine around cs
    | '-' :: '-' :: cs => closeClass? m fuel k.combine around cs
    | '~' :: '~' :: cs => closeClass? m fuel k.combine around cs
    | cs => (item? m cs).bind (closeClass? m fuel (k.add 0) around)

/-- The depth of the class behind an opening bracket, and the text behind the class. -/
def class? (m : Mode) (cs : List Char) : Option (Nat × List Char) :=
  (openClass? m cs).bind (fun (k, rest) => closeClass? m (rest.length + 1) k [] rest)

example : class? .usual "a-z]b".toList = some (1, ['b']) := by decide +kernel

example : class? .usual "]^[:alpha:]&&[^x]]".toList = some (3, []) := by decide +kernel

example : ["z-a]", "a", "\\w]", "a-\\A]"].map (fun s => class? .usual s.toList)
    = [none, none, none, none] := by decide +kernel

end ValueStream.Regular
