import JobMarkup.CommandLine.Report

/-!
# The command line program

The outer layer of the command line: it reads the files that the arguments name, and prints what
`CommandLine.run` gives.
-/

namespace JobMarkup.CommandLine

/-- Why a file cannot be read, given the error of the system. -/
def fileError : IO.Error → FileError
  | .noFileOrDirectory .. => .missing
  | .permissionDenied .. => .accessDenied
  | .inappropriateType .. => .isDirectory
  | error => .other (toString error)

/-- The contents of a file. -/
def readContents (path : String) : IO (Except FileError String) := do
  try
    return decodeFile (← IO.FS.readBinFile path)
  catch error =>
    return .error (fileError error)

/-- Print a line where it belongs. -/
def Line.print : Line → IO Unit
  | .out text => IO.println text
  | .err text => IO.eprintln text

end JobMarkup.CommandLine

open JobMarkup.CommandLine in
/-- Run the command line. -/
def main (arguments : List String) : IO UInt32 := do
  let paths :=
    match Invocation.parse arguments with
    | .ok invocation => invocation.files
    | .error _ => []
  let contents ← paths.mapM fun path => return (path, ← readContents path)
  let outcome := run arguments fun path => (contents.lookup path).getD (.error .missing)
  outcome.lines.forM Line.print
  return outcome.exitCode.toUInt32
