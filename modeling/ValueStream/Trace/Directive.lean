import ValueStream.Text.Cut
import ValueStream.Text.Fields
import ValueStream.Trace.Event
import ValueStream.Trace.FieldPattern

/-!
Rules of a log, and how they are read.

A directive is a level, or a target, each optional in `target[span{field}]=level`.
Without a level everything is shown. Reading goes through the characters once,
in stages, without the blanks around them, and the places where parts begin and
end are counted from the first character that is not blank. The parts are then
cut out of the text as it was given: blanks in front shift every part, and
blanks behind belong to the last one. So a directive with blanks in front
never fits a source, and one whose part would begin inside a character
cannot be read at all.
-/

namespace ValueStream.Trace

/-- A condition on the fields of an event: one of this name must be there.
With a value asked for, the condition is about the spans around the event. -/
structure FieldTest where
  name : List Char
  valued : Bool
  deriving DecidableEq

/-- A rule for the sources whose names begin with `target`. Without a level
nothing is shown. -/
structure Directive where
  target : List Char
  span : Option (List Char)
  field : Option FieldTest
  level : Option Level
  deriving DecidableEq

namespace Directive

/-- The level that a text names, by word or by number; `off` and 0 show nothing. -/
def level? (cs : List Char) : Option (Option Level) :=
  match Text.natural? 10 cs with
  | some n => [none, some .error, some .warn, some .info, some .debug, some .trace][n]?
  | none =>
    if Text.sameLetters cs "off".toList then some none
    else if Text.sameLetters cs "error".toList then some (some .error)
    else if Text.sameLetters cs "warn".toList then some (some .warn)
    else if Text.sameLetters cs "info".toList then some (some .info)
    else if Text.sameLetters cs "debug".toList then some (some .debug)
    else if Text.sameLetters cs "trace".toList then some (some .trace)
    else none

inductive Refusal where
  | malformed
  | unknownLevel
  | badPattern
  deriving DecidableEq

def Refusal.message : Refusal → String
  | malformed => "invalid filter directive"
  | unknownLevel =>
    "error parsing level filter: expected one of \"off\", \"error\", \"warn\", "
      ++ "\"info\", \"debug\", \"trace\", or a number 0-5"
  | badPattern => "invalid field filter: error building NFA"

inductive Fault where
  | refused (reason : Refusal)
  /-- A part would begin or end inside a character; the program cannot go on. -/
  | cutCharacter
  deriving DecidableEq

/-- How far reading has come. A stage with a place is inside a part that began there. -/
inductive Stage where
  | start
  | word
  | span (place : Nat)
  | field (place : Nat)
  | fieldDone
  | spanDone
  | level (place : Nat)
  deriving DecidableEq

/-- The stage, and what the directive is so far. -/
structure Progress where
  stage : Stage
  read : Directive
  deriving DecidableEq

/-- Nothing read: a directive that shows everything. -/
def Progress.start : Progress := ⟨.start, ⟨[], none, none, some .trace⟩⟩

def malformed {α : Type} : Except Fault α := .error (.refused .malformed)

def part (text : List Char) (start stop : Nat) : Except Fault (List Char) :=
  match Text.between? start stop text with
  | some cs => .ok cs
  | none => .error .cutCharacter

/-- A condition from `name` or `name=value`. -/
def fieldTest : List Char → Except Fault FieldTest
  | [] => malformed
  | cs =>
    match Text.split '=' cs with
    | name :: value :: _ =>
      if FieldPattern.isValid value then .ok ⟨name, true⟩ else .error (.refused .badPattern)
    | _ => .ok ⟨cs, false⟩

/-- Whether a directive may begin with the character, unless it is a bracket. -/
def startsWord (c : Char) : Bool := c == '_' || c == '-' || c == ':' || Text.isAlphanumeric c

def step (text : List Char) (place : Nat) (p : Progress) (c : Char) : Except Fault Progress :=
  match p.stage with
  | .start =>
    if c = '[' then .ok ⟨.span (place + 1), p.read⟩
    else if startsWord c then .ok ⟨.word, p.read⟩
    else malformed
  | .word =>
    if c = '=' then do
      let target ← part text 0 place
      pure ⟨.level (place + 1), { p.read with target }⟩
    else if c = '[' then do
      let target ← part text 0 place
      pure ⟨.span (place + 1), { p.read with target }⟩
    else .ok p
  | .span start =>
    if c = ']' then do
      let name ← part text start place
      pure ⟨.spanDone, { p.read with span := some name }⟩
    else if c = '\x7b' then do
      let name ← part text start place
      let span := if name.isEmpty then none else some name
      pure ⟨.field (place + 1), { p.read with span }⟩
    else .ok p
  | .field start =>
    if c = '\x7d' then do
      let test ← fieldTest (← part text start place)
      pure ⟨.fieldDone, { p.read with field := some test }⟩
    else .ok p
  | .fieldDone => if c = ']' then .ok ⟨.spanDone, p.read⟩ else malformed
  | .spanDone => if c = '=' then .ok ⟨.level (place + 1), p.read⟩ else malformed
  | .level _ => .ok p

def walk (text : List Char) : (place : Nat) → Progress → List Char → Except Fault Progress
  | _, p, [] => .ok p
  | place, p, c :: cs => do walk text (place + c.utf8Size) (← step text place p c) cs

/-- What is read when the text is at its end. A word alone is a level if it
names one, else a target. -/
def finish (text : List Char) (p : Progress) : Except Fault Directive :=
  match p.stage with
  | .word =>
    match level? text with
    | some level => .ok { p.read with level }
    | none => .ok { p.read with target := text }
  | .level place =>
    match Text.from? place text with
    | none => .error .cutCharacter
    | some [] => .ok p.read
    | some cs =>
      match level? cs with
      | some level => .ok { p.read with level }
      | none => .error (.refused .unknownLevel)
  | .spanDone => .ok p.read
  | _ => malformed

def ofChars (text : List Char) : Except Fault Directive := do
  finish text (← walk text 0 .start (Text.trim text))

/-- Whether the directive is about spans only, which this log never has. -/
def needsSpan (d : Directive) : Bool := d.span.isSome || d.field.any FieldTest.valued

/-- Whether the directive is about an event with these field names, from a
source of this name. -/
def fits (d : Directive) (name : List Char) (fields : List (List Char)) : Bool :=
  !d.needsSpan && d.target.isPrefixOf name && d.field.all (fun test => fields.contains test.name)

/-- The field's name, if a field is asked for; no event has a field without a name. -/
def fieldName (d : Directive) : List Char := (d.field.map FieldTest.name).getD []

/-- Whether of two rules that fit the later one decides: its target is longer,
or equal while its field comes later in the order of names or is the same. -/
def yieldsTo (d later : Directive) : Bool :=
  d.target.length < later.target.length ||
    d.target.length = later.target.length && !(decide (later.fieldName < d.fieldName))

example : (ofChars "stream::buffer[\x7bold\x7d]=debug".toList).toOption
    = some ⟨"stream::buffer".toList, none, some ⟨"old".toList, false⟩, some .debug⟩ := by
  decide +kernel

example : (ofChars " warn".toList).toOption = some ⟨" warn".toList, none, none, some .trace⟩ := by
  decide +kernel

example : (ofChars " dump=info".toList).toOption = none := by decide +kernel

end Directive

end ValueStream.Trace
