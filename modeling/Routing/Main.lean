import Routing.Command

/-!
# The program

Reads the file that the command line names, and prints the report of the command. Notes go where complaints go.
-/

namespace Routing.Command

/-- The name of the environment variable of a setting. -/
def environmentName (setting : Text) : String :=
  String.ofList ((Settings.variableStart ++ setting).map Char.toUpper)

/-- The environment variables that are set, for all settings. -/
def readEnvironment : IO (List (Text × Text)) := do
  let found ← Settings.names.mapM fun setting => do
    let name := environmentName setting
    let content ← IO.getEnv name
    return content.map fun t => (name.toList, t.toList)
  return found.filterMap id

/-- The text of a file, if it can be read. -/
def readTable (path : String) : IO (Option Text) := do
  try
    let content ← IO.FS.readFile path
    return some content.toList
  catch _ => return none

/-- Prints lines to the standard error output. -/
def complain (lines : List Text) : IO Unit := do
  for line in lines do
    IO.eprintln (String.ofList line)

/-- The text of the file that a command line names, if there is one. -/
def readNamed : Invocation → IO (Option Text)
  | .run q => readTable (String.ofList (normalizePath q.table))
  | .information | .refused => return none

/-- Prints the report of a run, and the notes that a verbosity lets through. -/
def print (verbosity : Nat) (result : Traced Report) : IO UInt32 := do
  complain (result.shownNotes verbosity)
  match result.outcome with
  | .error e =>
    complain [e.message]
    return 1
  | .ok report =>
    for line in report.lines do
      IO.println (String.ofList line)
    complain (report.complaints.map Complaint.message)
    return UInt32.ofNat report.status

/-- Does what the words of a command line ask for. -/
def serve (words : List Text) : IO UInt32 := do
  match Settings.read .empty (.ofList (← readEnvironment)) with
  | .error faults =>
    complain (faults.map Prod.fst)
    return 1
  | .ok settings =>
    let invocation := Invocation.read words
    match invocation.report settings (← readNamed invocation) with
    | none => return 0
    | some result => print (invocation.noteLevel settings) result

end Routing.Command

/-- The command line. -/
def main (args : List String) : IO UInt32 := Routing.Command.serve (args.map String.toList)
