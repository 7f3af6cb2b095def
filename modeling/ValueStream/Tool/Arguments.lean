import ValueStream.Text.Numeral

/-!
The grammar of command lines.

An option has a long name behind two dashes and may have a letter behind one.
A value follows as the next argument, behind `=`, or, for a letter, directly.
The next argument is no value if it looks like an option itself. After `--`
everything is positional; a single dash is positional too. No option is given
twice, and there is one positional argument, a path.

Arguments are read from left to right, and each value is checked when it is
read. So a call for help is heard if nothing before it is at fault; what is
behind it, or missing, does not matter then.
-/

namespace ValueStream.Tool

/-- What a tool is called by: its own name, the name of the format, and the
variable of the environment that overrides its log. -/
structure Names where
  program : String
  format : String
  logVariable : String

inductive Use where
  /-- It carries a value that is accepted or not. -/
  | value (accepts : String → Bool)
  | switch
  /-- It asks for help and ends the reading. -/
  | help

/-- An option that a tool knows: its names, its use, and what help says of it,
with notes in brackets. -/
structure Flag where
  name : String
  letter : Option Char
  use : Use
  about : Names → String
  notes : List String

inductive UsageError where
  | unknown (argument : String)
  | missingValue (name : String)
  | unexpectedValue (name : String)
  | repeated (name : String)
  | missing (name : String)
  | surplus (argument : String)
  | invalid (name value : String)
  /-- Not a fault: the usage is asked for. -/
  | helpWanted
  deriving DecidableEq

def UsageError.message : UsageError → String
  | unknown argument => "unexpected argument '" ++ argument ++ "' found"
  | missingValue name => "a value is required for '--" ++ name ++ "' but none was supplied"
  | unexpectedValue name => "unexpected value for '--" ++ name ++ "' found"
  | repeated name => "the argument '--" ++ name ++ "' cannot be used multiple times"
  | missing name => "the required argument " ++ name ++ " was not provided"
  | surplus argument => "unexpected argument '" ++ argument ++ "' found"
  | invalid name value => "invalid value '" ++ value ++ "' for '" ++ name ++ "'"
  | helpWanted => ""

/-- What a command line gives: options, the last one first, and the path. An
option without a value stands with an empty text. -/
structure Arguments where
  options : List (String × String)
  path : Option String
  deriving DecidableEq

namespace Arguments

def looksLikeOption (argument : String) : Bool :=
  match argument.toList with
  | '-' :: _ :: _ => true
  | _ => false

/-- A text behind `=`, if there is one. -/
def attached : List Char → Option String
  | '=' :: cs => some (String.ofList cs)
  | _ => none

/-- What is attached to the letter of an option; a letter that takes no value
leaves what follows to be read as letters. -/
def behindLetter (use : Use) (cs : List Char) : Option String :=
  match use with
  | .value _ => if cs.isEmpty then none else some ((attached cs).getD (String.ofList cs))
  | _ => none

/-- The option that an argument starts with, and what is attached to it. -/
def recognise (known : List Flag) (argument : String) :
    Except UsageError (Flag × Option String) :=
  match argument.toList with
  | '-' :: '-' :: cs =>
    let (name, rest) := cs.span (· != '=')
    match known.find? (fun flag => flag.name.toList == name) with
    | some flag => .ok (flag, attached rest)
    | none => .error (.unknown argument)
  | '-' :: c :: cs =>
    match known.find? (fun flag => flag.letter == some c) with
    | some flag => .ok (flag, behindLetter flag.use cs)
    | none => .error (.unknown argument)
  | _ => .error (.unknown argument)

def withOption (a : Arguments) (name value : String) : Except UsageError Arguments :=
  if a.options.any (fun o => o.1 == name) then .error (.repeated name)
  else .ok { a with options := (name, value) :: a.options }

/-- Note the path, which is the only one and not empty. -/
def withPath (a : Arguments) (path : String) : Except UsageError Arguments :=
  if a.path.isSome then .error (.surplus path)
  else if path.isEmpty then .error (.invalid "path" path)
  else .ok { a with path := some path }

def positional (a : Arguments) : List String → Except UsageError Arguments
  | [] => .ok a
  | argument :: rest => (a.withPath argument).bind (fun a => positional a rest)

/-- Read a command line on from what was read of it. -/
def read (known : List Flag) (a : Arguments) : List String → Except UsageError Arguments
  | [] => .ok a
  | "--" :: rest => a.positional rest
  | argument :: rest =>
    if looksLikeOption argument then
      match recognise known argument with
      | .error e => .error e
      | .ok (flag, value?) =>
        match flag.use, value?, rest with
        | .value accepts, some value, rest =>
          if accepts value then (a.withOption flag.name value).bind (fun a => read known a rest)
          else .error (.invalid flag.name value)
        | .value accepts, none, value :: rest =>
          if looksLikeOption value then .error (.missingValue flag.name)
          else if accepts value then
            (a.withOption flag.name value).bind (fun a => read known a rest)
          else .error (.invalid flag.name value)
        | .value _, none, [] => .error (.missingValue flag.name)
        | _, some _, _ => .error (.unexpectedValue flag.name)
        | .switch, none, rest => (a.withOption flag.name "").bind (fun a => read known a rest)
        | .help, none, _ => .error .helpWanted
    else (a.withPath argument).bind (fun a => read known a rest)

def ofList (known : List Flag) (arguments : List String) : Except UsageError Arguments :=
  read known ⟨[], none⟩ arguments

def value? (a : Arguments) (name : String) : Option String := a.options.lookup name

def has (a : Arguments) (name : String) : Bool := (a.value? name).isSome

def thePath (a : Arguments) (name : String) : Except UsageError String :=
  match a.path with
  | none => .error (.missing name)
  | some path => .ok path

/-- The value of an option as `ofText` takes it, or what stands for no value. -/
def valueOr {α : Type} (a : Arguments) (name : String) (fallback : α)
    (ofText : String → Option α) : Except UsageError α :=
  match a.value? name with
  | none => .ok fallback
  | some text =>
    match ofText text with
    | some v => .ok v
    | none => .error (.invalid name text)

/-- A number of at most 64 bits. -/
def count? (text : String) : Option Nat := (Text.natural? 10 text.toList).filter (· < UInt64.size)

end Arguments

end ValueStream.Tool
