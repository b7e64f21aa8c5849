/-
  The command: reads the file that its arguments name and prints the report.
-/
import ClauseLearning.CommandLine.Run

open ClauseLearning

/-- The text of an error that the system gives when a file is opened. -/
def openErrorText : IO.Error → String
  | .noFileOrDirectory .. => "No such file or directory (os error 2)"
  | .permissionDenied .. => "Permission denied (os error 13)"
  | e => toString e

/-- The bytes of a file, or why it can not be opened. -/
def contentsOf (path : String) : IO (Except String (List UInt8)) := do
  try
    return .ok (← IO.FS.readBinFile path).toList
  catch e =>
    return .error (openErrorText e)

/-- Runs the command. -/
def main (args : List String) : IO UInt32 := do
  let contents ← match CommandLine.parse args with
    | .ok o => contentsOf o.path
    | .error _ => pure (.ok [])
  let report := CommandLine.run args fun _ => contents
  for line in report.lines do
    IO.println line
  return report.code.toUInt32
