import ValueStream.Trace.Directive

/-!
Which events a log shows.

A filter is a list of directives separated by commas. Of the directives that
fit an event the most specific one decides: the one with the longest target,
then one that asks for a field, then the later one. Without one the event is
not shown.
-/

namespace ValueStream.Trace

structure Filter where
  directives : List Directive
  deriving DecidableEq

namespace Filter

def parts (text : String) : List (List Char) :=
  (Text.split ',' text.toList).filter (fun part => !part.isEmpty)

/-- Without any directive only errors are shown. -/
def ofDirectives (ds : List Directive) : Filter :=
  if ds.isEmpty then ⟨[⟨[], none, none, some .error⟩]⟩ else ⟨ds⟩

/-- The filter a text describes, if all of its directives can be used. -/
def ofText (text : String) : Except Directive.Fault Filter :=
  ((parts text).mapM Directive.ofChars).map ofDirectives

/-- The more specific of two rules, the later one of two that are alike. -/
def prefer (best? : Option Directive) (d : Directive) : Option Directive :=
  match best? with
  | none => some d
  | some best => if best.yieldsTo d then some d else some best

/-- The level of the rule that decides about an event of a source of this name. -/
def levelFor (f : Filter) (name : String) (e : Event) : Option Level :=
  let fields := e.fieldNames.map String.toList
  let fitting := f.directives.filter (fun d => d.fits name.toList fields)
  (fitting.foldl prefer none).bind Directive.level

/-- Whether an event of a source of this name is shown. -/
def admits (f : Filter) (name : String) (e : Event) : Bool :=
  match f.levelFor name e with
  | none => false
  | some most => e.level.rank ≤ most.rank

/-- The events that are shown, with the names that the sources go by. -/
def select (f : Filter) (nameOf : Source → String) (events : List Event) : List Event :=
  events.filter (fun e => f.admits (nameOf e.source) e)

end Filter

/-- What setting up a log gives: its filter, unless a directive stops the
program, and a complaint about each directive that is left out. -/
structure Setup where
  filter : Option Filter
  complaints : List String
  deriving DecidableEq

namespace Setup

def complaint (part : List Char) (reason : Directive.Refusal) : String :=
  "ignoring `" ++ String.ofList part ++ "`: " ++ reason.message

/-- The directives that can be used, unless one stops the program, and a
complaint about each of the others before that. -/
def collect : List (List Char) → Option (List Directive) × List String
  | [] => (some [], [])
  | part :: rest =>
    match Directive.ofChars part with
    | .ok d =>
      let (ds?, complaints) := collect rest
      (ds?.map (d :: ·), complaints)
    | .error (.refused reason) =>
      let (ds?, complaints) := collect rest
      (ds?, complaint part reason :: complaints)
    | .error .cutCharacter => (none, [])

def ofText (text : String) : Setup :=
  let (ds?, complaints) := collect (Filter.parts text)
  ⟨ds?.map Filter.ofDirectives, complaints⟩

/-- The log of a run: the override if it is given and all of its directives can
be used, else the text that was asked for. -/
def choose (override? : Option String) (text : String) : Setup :=
  match override? with
  | none => ofText text
  | some overriding =>
    match Filter.ofText overriding with
    | .ok filter => ⟨some filter, []⟩
    | .error (.refused _) => ofText text
    | .error .cutCharacter => ⟨none, []⟩

/-- Whether a source of this name may show the event. -/
def admits (s : Setup) (name : String) (e : Event) : Bool := s.filter.any (fun f => f.admits name e)

example : (ofText "warn,dump=trace").admits "dump" (.decodeFinished 1 1) = true := by
  decide +kernel

example : (ofText "warn,dump=trace").admits "buffer" (.growing 0 12 0) = false := by
  decide +kernel

example : (ofText "trace,[\x7bold\x7d]=off").admits "buffer" (.growing 0 12 0) = false := by
  decide +kernel

example : (choose (some "x y z,(") "info").admits "generate" (.encoded 1 1 true) = true := by
  decide +kernel

example : (ofText "info,\u00A0a=info").filter = none := by decide +kernel

end Setup

end ValueStream.Trace
