import ValueStream.Tool.Arguments
import ValueStream.Tool.Outcome

/-!
Help about a tool: what it does, how it is called, and its options in a table.

The labels of the options make a column that is as wide as the widest of them;
options without a letter leave its place free. Lines are never broken.
-/

namespace ValueStream.Tool

/-- A tool as help presents it: what it does, its path, its options, which of
them must be given, and closing words. -/
structure Command where
  about : Names → String
  path : String
  pathAbout : String
  flags : List Flag
  required : List String
  closing : List String

/-- How an option is given in full, with a place for its value. -/
def Flag.form (f : Flag) : String :=
  match f.use with
  | .value _ => "--" ++ f.name ++ " <" ++ f.name.toUpper ++ ">"
  | _ => "--" ++ f.name

/-- The option in the first column of the table. -/
def Flag.label (f : Flag) : String :=
  match f.letter with
  | some c => String.ofList ['-', c, ',', ' '] ++ f.form
  | none => "    " ++ f.form

def Flag.description (f : Flag) (names : Names) : String :=
  f.about names ++ String.join (f.notes.map (fun note => " [" ++ note ++ "]"))

namespace Command

def usage (c : Command) (names : Names) : String :=
  let required := c.flags.filter (fun f => c.required.contains f.name)
  "Usage: " ++ names.program ++ " [OPTIONS]" ++ String.join (required.map (fun f => " " ++ f.form))
    ++ " <" ++ c.path ++ ">"

def table (c : Command) (names : Names) : List String :=
  let width := (c.flags.map (fun f => f.label.length)).foldl max 0
  c.flags.map (fun f =>
    "  " ++ String.ofList (Text.padRight (width + 2) ' ' f.label.toList) ++ f.description names)

def help (c : Command) (names : Names) : String :=
  Outcome.linesOf
    ([c.about names, "", c.usage names, "", "Arguments:",
        "  <" ++ c.path ++ ">  " ++ c.pathAbout, "", "Options:"]
      ++ c.table names ++ "" :: c.closing)

/-- A run that shows the help and does nothing else. -/
def helpOutcome (c : Command) (names : Names) : Outcome := ⟨0, c.help names, [], []⟩

end Command

/-- The options that both tools have. -/
def logFlag : Flag :=
  ⟨"log", none, .value (fun _ => true),
    fun names => "Log filter directives (" ++ names.logVariable ++ " overrides)",
    ["default: warn"]⟩

def prettyFlag : Flag :=
  ⟨"pretty", none, .switch, fun _ => "Human readable logs instead of JSON", []⟩

def helpFlag : Flag := ⟨"help", some 'h', .help, fun _ => "Print help", []⟩

example :
    (Flag.mk "seed" none (.value (fun _ => true)) (fun _ => "") []).label = "    --seed <SEED>" := by
  decide +kernel

end ValueStream.Tool
