import SqlBridge.CommandLine.Run

/-!
# The command line program

Reads the files that the options name, runs, and prints the output. Errors go to the error stream.
SQL is printed as it is rendered, without a layout of its own.
-/

open SqlBridge

def readFileText (path : String) : IO FileText := do
  try
    return .text (← IO.FS.readFile path)
  catch
    | .noFileOrDirectory .. => return .missing
    | _ => return .unreadable

/-- The paths of the files that a run may read. -/
def pathsOf (o : CommandLine.Options) : List String :=
  (o.configuration.map (· ++ "/" ++ Settings.fileName)).toList ++ o.paramsFile.toList

def describe (e : CommandLine.RunError) : String :=
  match e with
  | .compile error => error.message
  | .sql error => error.message
  | .document error => error.message
  | .configuration _ error =>
    e.context?.getD "" ++ (error.message?.map (": " ++ ·)).getD ""
  | _ => e.context?.getD ""

def usage : String :=
  "Usage: query-compiler [--configuration DIR] [--params JSON | --params-file PATH] "
    ++ "[--format descriptor|sql|document] [--pretty] [-v]... (STATEMENT | --print-schema)"

def main (arguments : List String) : IO UInt32 := do
  match CommandLine.Options.parse arguments with
  | .error .displayHelp =>
    IO.println usage
    return 0
  | .error .displayVersion =>
    IO.println "query-compiler 0.1.1"
    return 0
  | .error error =>
    IO.eprintln (error.name ++ "\n" ++ usage)
    return 2
  | .ok options =>
    let mut texts : OrderedMap FileText := ∅
    for path in pathsOf options do
      texts := texts.insert path (← readFileText path)
    match CommandLine.run id (fun path => (texts.get? path).getD .missing) options with
    | .ok output =>
      IO.println output
      return 0
    | .error error =>
      IO.eprintln (describe error)
      return 1
