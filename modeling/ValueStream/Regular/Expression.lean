import ValueStream.Regular.Class
import ValueStream.Text.Alphanumeric

/-!
Which texts are regular expressions that can be used.

An expression is read once from left to right. What is kept of it is the mode
that flags have set, the depths of the parts that stand together, the groups
that are open, and the names of groups. An expression whose parts are nested
too deeply is refused.
-/

namespace ValueStream.Regular

/-- What stands in a sequence: its depth, and whether it can be repeated. -/
structure Item where
  depth : Nat
  repeatable : Bool
  deriving DecidableEq

/-- The inside of a group so far: the depths of the alternatives that are
finished, and the sequence that is not, the last item first. -/
structure Body where
  alternatives : List Nat
  items : List Item
  deriving DecidableEq

namespace Body

def add (b : Body) (i : Item) : Body := { b with items := i :: b.items }

def sequenceDepth (b : Body) : Nat := depthTogether (b.items.map Item.depth)

/-- The body with its sequence finished as an alternative. -/
def split (b : Body) : Body := ⟨b.sequenceDepth :: b.alternatives, []⟩

def depth (b : Body) : Nat := depthTogether b.split.alternatives

def repeat? (b : Body) : Option Body :=
  match b.items with
  | last :: items =>
    if last.repeatable then some { b with items := ⟨last.depth + 1, true⟩ :: items } else none
  | [] => none

end Body

structure State where
  mode : Mode
  body : Body
  /-- The bodies around the open groups, and the modes to go back to. -/
  around : List (Body × Mode)
  names : List (List Char)
  deriving DecidableEq

namespace State

def start : State := ⟨.usual, ⟨[], []⟩, [], []⟩

/-- Go into a group, in a mode of its own. -/
def enter (s : State) (inner : Mode) : State :=
  { s with mode := inner, body := ⟨[], []⟩, around := (s.body, s.mode) :: s.around }

def leave? (s : State) : Option State :=
  match s.around with
  | [] => none
  | (outer, mode) :: around =>
    some { s with mode, body := outer.add ⟨s.body.depth + 1, true⟩, around }

end State

def isName : List Char → Bool
  | [] => false
  | c :: cs => (c == '_' || Text.isAlphabetic c)
    && cs.all (fun c => "_.[]".toList.contains c || Text.isAlphanumeric c)

/-- Into a group with a name, from the name on. -/
def enterNamed? (s : State) (cs : List Char) : Option (State × List Char) :=
  match cs.span (· != '>') with
  | (name, '>' :: rest) =>
    if isName name && !s.names.contains name then
      some ({ s.enter s.mode with names := name :: s.names }, rest)
    else none
  | _ => none

/-- Into a group from the text behind its bracket, or, if there are flags
only, on with these flags. -/
def open? (s : State) (cs : List Char) : Option (State × List Char) :=
  match s.mode.skip cs with
  | '?' :: 'P' :: '<' :: cs => enterNamed? s cs
  | '?' :: '<' :: cs => enterNamed? s cs
  | '?' :: cs =>
    match cs.span (fun c => c != ':' && c != ')') with
    | (flags, ':' :: rest) =>
      if areFlags flags then some (s.enter (s.mode.change true flags), rest) else none
    | (flags, ')' :: rest) =>
      if areFlags flags && !flags.isEmpty then
        some ({ s with mode := s.mode.change true flags, body := s.body.add ⟨0, false⟩ }, rest)
      else none
    | _ => none
  | cs => some (s.enter s.mode, cs)

/-- The text behind a question mark that makes a repetition reluctant. -/
def afterReluctance : List Char → List Char
  | '?' :: cs => cs
  | cs => cs

/-- The state at the end of the text. Each step consumes a character. A brace
outside of classes would have to be closed, and never is. -/
def walk? : (fuel : Nat) → State → List Char → Option State
  | 0, _, _ => none
  | fuel + 1, s, cs =>
    match s.mode.skip cs with
    | [] => some s
    | '(' :: cs => (open? s cs).bind (fun (s, rest) => walk? fuel s rest)
    | ')' :: cs => s.leave?.bind (fun s => walk? fuel s cs)
    | '|' :: cs => walk? fuel { s with body := s.body.split } cs
    | '[' :: cs =>
      (class? s.mode cs).bind (fun (depth, rest) =>
        walk? fuel { s with body := s.body.add ⟨depth, true⟩ } rest)
    | '\x7b' :: _ => none
    | c :: cs =>
      if c = '?' ∨ c = '*' ∨ c = '+' then
        s.body.repeat?.bind (fun body => walk? fuel { s with body } (afterReluctance cs))
      else
        (part? s.mode (c :: cs)).bind (fun (p, rest) =>
          if p.isSupported s.mode then walk? fuel { s with body := s.body.add ⟨0, true⟩ } rest
          else none)

def greatestDepth : Nat := 250

/-- Whether the text is a regular expression that can be used. -/
def isExpression (cs : List Char) : Bool :=
  match walk? (cs.length + 1) .start cs with
  | some s => s.around.isEmpty && decide (s.body.depth ≤ greatestDepth)
  | none => false

example : ["", "a|b*", "(?:x)", "\\x41", "a**?", "(?i)", "(?i:)a", "(?-u)\\d\\b", "(?x) # a"].all
    (fun s => isExpression s.toList) = true := by decide +kernel

example : ["(", "a)", "*", "\\d", "\\", "x\x7b2", "(?i)a", "a|+", "(?)", "(?<a>)(?<a>)"].any
    (fun s => isExpression s.toList) = false := by decide +kernel

end ValueStream.Regular
