import ValueStream.Tool.Dump
import ValueStream.Tool.Session
import ValueStream.Trace.Log

/-!
The command line of the two tools: `generate` encodes records to a file,
`dump` prints the records of a file. Reading arguments, the steps of a run,
encoding, decoding and every text that is shown are the library's; here the files
of the system are given to it as a storage, and lines are printed.
-/

namespace ValueStream.Main

open Tool Trace

def sourceName : Source → String
  | .buffer => "stream::buffer"
  | .sparse => "stream::sparse"
  | .dense => "stream::dense"
  | .generate => "generate"
  | .dump => "dump"

/-- The variable of the environment that overrides the log. -/
def logVariable : String := "VALUE_STREAM_LOG"

/-- The fault that an error of the system stands for. -/
def faultOf (e : IO.Error) : Fault :=
  match e with
  | .noFileOrDirectory .. => .notFound
  | .inappropriateType _ 21 _ => .isDirectory
  | .inappropriateType _ 20 _ => .notDirectory
  | .resourceExhausted _ 28 _ => .noSpace
  | .permissionDenied _ code reason => .other code.toNat reason
  | e => .other 5 (toString e)

/-- An action's result, or the fault that it met. -/
def attempt {α : Type} (action : IO α) : IO (Except Fault α) := do
  match ← action.toBaseIO with
  | .ok a => pure (.ok a)
  | .error e => pure (.error (faultOf e))

/-- Set up the log, then act; an override comes from the environment. -/
def withLog (log : String) (act : Filter → IO UInt32) : IO UInt32 := do
  let setup := Setup.choose (← IO.getEnv logVariable) log
  for complaint in setup.complaints do
    IO.eprintln complaint
  match setup.filter with
  | some filter => act filter
  | none =>
    IO.eprintln "a log directive is cut inside a character"
    pure (UInt32.ofNat stoppedCode)

def present (filter : Filter) (pretty : Bool) (outcome : Outcome) : IO UInt32 := do
  for event in filter.select sourceName outcome.events do
    IO.eprintln (if pretty then event.plain else event.json)
  IO.print outcome.output
  for message in outcome.messages do
    IO.eprintln message
  pure (UInt32.ofNat outcome.exitCode)

/-- The files of the system. -/
def storage : Storage IO where
  Input := IO.FS.Handle
  Output := IO.FS.Handle
  openInput path := attempt (IO.FS.Handle.mk path .read)
  readAll input := attempt (return (← input.readBinToEnd).data)
  create path := attempt (IO.FS.Handle.mk path .write)
  write output bytes := attempt do
    output.write ⟨bytes⟩
    output.flush

def generate (o : Generate.Options) : IO UInt32 := withLog o.log fun filter => do
  present filter o.pretty (← Generate.steps storage o)

def dump (o : Dump.Options) : IO UInt32 := withLog o.log fun filter => do
  let bytes ← attempt (IO.FS.readBinFile o.input)
  present filter o.pretty (Dump.outcome o (bytes.map ByteArray.data))

/-- The names of a tool that is called as `program`. -/
def names (program : String) : Names := ⟨program, "value", logVariable⟩

/-- Refuse a command line, or show help if it is asked for. -/
def refuse (command : Command) (program : String) (e : UsageError) : IO UInt32 := do
  match e with
  | .helpWanted =>
    IO.print (command.help (names program))
    pure 0
  | e =>
    IO.eprintln ("error: " ++ e.message ++ "\n\n" ++ command.usage (names program)
      ++ "\n\nFor more information, try '--help'.")
    pure 2

end ValueStream.Main

open ValueStream ValueStream.Main ValueStream.Tool in
def main (arguments : List String) : IO UInt32 := do
  match arguments with
  | "generate" :: rest =>
    match Generate.Options.ofList rest with
    | .ok options => generate options
    | .error e => refuse Generate.command "generate" e
  | "dump" :: rest =>
    match Dump.Options.ofList rest with
    | .ok options => dump options
    | .error e => refuse Dump.command "dump" e
  | _ =>
    IO.eprintln "usage: generate or dump, and its arguments; each has --help"
    pure 2
