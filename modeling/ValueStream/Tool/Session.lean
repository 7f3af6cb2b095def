import ValueStream.Tool.Files
import ValueStream.Tool.Outcome
import ValueStream.Trace.Filter

/-!
A run of a tool under its log.

The log is set up before anything else. Its complaints come before the run's
own messages, and it keeps the events that its filter lets through. When it
cannot be set up, the run never begins and no file is touched.
-/

namespace ValueStream.Tool

open Trace

/-- The exit code of a run that never begins. -/
def stoppedCode : Nat := 101

/-- What a run over files shows under a log, and the files after it. -/
def runLogged (setup : Setup) (nameOf : Source → String) (files : Files)
    (run : Files → Outcome × Files) : Outcome × Files :=
  match setup.filter with
  | none => (⟨stoppedCode, "", setup.complaints, []⟩, files)
  | some filter =>
    let (outcome, after) := run files
    ({ outcome with
        messages := setup.complaints ++ outcome.messages
        events := filter.select nameOf outcome.events }, after)

/-- A log that cannot be set up leaves the files as they are. -/
theorem files_of_stopped {setup : Setup} {nameOf : Source → String} {files : Files}
    {run : Files → Outcome × Files} (h : setup.filter = none) :
    (runLogged setup nameOf files run).2 = files := by
  rw [runLogged, h]

/-- A log never changes what is printed, how a run ends or the files after it. -/
theorem runLogged_of_ready {setup : Setup} {nameOf : Source → String} {files : Files}
    {run : Files → Outcome × Files} {filter : Filter} (h : setup.filter = some filter) :
    (runLogged setup nameOf files run).1.output = (run files).1.output ∧
      (runLogged setup nameOf files run).1.exitCode = (run files).1.exitCode ∧
      (runLogged setup nameOf files run).2 = (run files).2 := by
  rw [runLogged, h]
  exact ⟨rfl, rfl, rfl⟩

end ValueStream.Tool
