import ValueStream.Trace.Event

/-!
What a run of a tool shows: an exit code, what it prints, the messages it
gives besides, and the events it reports.
-/

namespace ValueStream.Tool

structure Outcome where
  exitCode : Nat
  /-- What is printed as the result. -/
  output : String
  /-- Lines for the person at the terminal. -/
  messages : List String
  events : List Trace.Event
  deriving DecidableEq

namespace Outcome

/-- A run that ends with one message and exit code 1. -/
def failure (output message : String) (events : List Trace.Event) : Outcome :=
  ⟨1, output, [message], events⟩

def linesOf (lines : List String) : String := String.join (lines.map (· ++ "\n"))

end Outcome

end ValueStream.Tool
