/-
The command line.

The program reads the files that its arguments name and prints the report on them.
-/
import LiveMarkup.Command.Report

set_option autoImplicit false

namespace LiveMarkup.Command

/-- What an error of the system means for a file. -/
def readErrorOf : IO.Error → ReadError
  | .noFileOrDirectory .. => .notFound
  | .permissionDenied .. => .denied
  | .inappropriateType .. => .isFolder
  | e => .other (toString e)

/-- The text of a file, or why it cannot be read. -/
def readText (file : String) : IO (Except ReadError String) := do
  try
    let bytes ← IO.FS.readBinFile file
    return match String.fromUTF8? bytes with
      | some text => .ok text
      | none => .error .notText
  catch e => return .error (readErrorOf e)

end LiveMarkup.Command

open LiveMarkup Command

/-- Runs the program: prints the report and gives its code. -/
def main (args : List String) : IO UInt32 := do
  let names := match Invocation.ofArguments args with
    | .ok i => i.request.files
    | .error _ => []
  let texts ← names.mapM fun name => return (name, ← readText name)
  let report := Report.ofArguments args fun name =>
    (texts.lookup name).getD (.error .notFound)
  (← IO.getStdout).putStr report.stdout
  (← IO.getStderr).putStr report.stderr
  return report.code
