import JobMarkup.CommandLine.Arguments
import JobMarkup.Compilation

/-!
# What the command line prints

A run of the command line is lines of text, each for the standard output or for the error output,
and an exit code: 0 if nothing is wrong, 1 if something is wrong with a file, and 2 if the
arguments cannot be followed. A file that cannot be read does not keep others from being handled.
-/

namespace JobMarkup.CommandLine

open Variable

/-- A line of output. -/
inductive Line where
  | out (text : String)
  | err (text : String)
deriving DecidableEq

/-- The output of a run, and its exit code. -/
structure Outcome where
  lines : List Line
  exitCode : Nat
deriving DecidableEq

/-- The lines of the standard output. -/
def Outcome.standardOutput (outcome : Outcome) : List String :=
  outcome.lines.filterMap fun
    | .out text => some text
    | .err _ => none

/-- The lines of the error output. -/
def Outcome.errorOutput (outcome : Outcome) : List String :=
  outcome.lines.filterMap fun
    | .out _ => none
    | .err text => some text

/-- Why a file cannot be read. -/
inductive FileError where
  | missing
  | accessDenied
  | isDirectory
  | notUtf8
  /-- Any other reason, in words. -/
  | other (reason : String)
deriving DecidableEq

/-- The wording of a file error. -/
def FileError.message : FileError → String
  | missing => "No such file or directory (os error 2)"
  | accessDenied => "Permission denied (os error 13)"
  | isDirectory => "Is a directory (os error 21)"
  | notUtf8 => "stream did not contain valid UTF-8"
  | other reason => reason

/-- The text of a file with the given bytes. -/
def decodeFile (bytes : ByteArray) : Except FileError String :=
  match String.fromUTF8? bytes with
  | some text => .ok text
  | none => .error .notUtf8

/-- The document that the text of a file is. -/
def fileDocument : DocumentId := DocumentId.ofNat 0

/-- How to use the command line. -/
def usage : List String := [
  "Usage: foreman <command> [files...] [--var namespace/key=value]...",
  "",
  "Commands:",
  "  check   Report parse and bind diagnostics",
  "  render  Print the document with variables substituted",
  "  tokens  Print semantic highlighting tokens",
  "",
  "Token kinds: " ++ ", ".intercalate Category.legend,
  "",
  "Examples:",
  "  foreman check build.job",
  "  foreman render build.job --var env/name=prod",
  "  RUST_LOG=debug foreman tokens build.job"]

/-- The wording of an argument error, line by line. -/
def ArgumentError.lines : ArgumentError → List String
  | .usage => CommandLine.usage
  | unknownCommand name => [s!"Error: unknown command: {name}"]
  | invalidAssignment text =>
    [s!"Error: invalid --var '{text}': expected namespace/key=value"]
  | invalidIdentifier error => [s!"Error: invalid --var: {error.message}"]
  | noFiles => ["Error: no files specified"]

/-- A diagnostic in one line, with the file and the place in front, counted from one. -/
def diagnosticLine (path : String) (diagnostic : Diagnostic) : Line :=
  let start := diagnostic.span.start
  .err s!"{path}:{start.line + 1}:{start.column + 1}: {diagnostic.message}"

/-- A highlight in one line, with the file and the place in front, counted from one. -/
def highlightLine (path : String) (highlight : Highlight) : Line :=
  let place := s!"{path}:{highlight.line + 1}:{highlight.start + 1}"
  .out s!"{place} {highlight.length} {highlight.category.name}"

/-- What a command prints for a compiled text, and whether something is wrong with the text. -/
def reportCompilation (command : Command) (values : Values) (path : String)
    (compilation : Compilation) : List Line × Bool :=
  let diagnostics := compilation.diagnostics.map (diagnosticLine path)
  match command with
  | .check =>
    if compilation.hasErrors then (diagnostics, true) else ([.err s!"{path}: ok"], false)
  | .render =>
    (diagnostics ++ [.out (compilation.instantiate values)], compilation.hasErrors)
  | .tokens => (compilation.highlights.map (highlightLine path), false)

/-- What a command prints for a file, and whether something is wrong with the file. -/
def reportFile (command : Command) (values : Values) (path : String)
    (contents : Except FileError String) : List Line × Bool :=
  match contents with
  | .error error => ([.err s!"{path}: {error.message}"], true)
  | .ok text =>
    reportCompilation command values path (SourceText.ofString fileDocument text).compile

/-- The outcome of an invocation, given the contents of its files. -/
def Invocation.run (invocation : Invocation) (contents : String → Except FileError String) :
    Outcome :=
  let reports := invocation.files.map fun path =>
    reportFile invocation.command invocation.values path (contents path)
  ⟨reports.flatMap Prod.fst, if reports.any Prod.snd then 1 else 0⟩

/-- The outcome of arguments that cannot be followed. -/
def ArgumentError.outcome (error : ArgumentError) : Outcome := ⟨error.lines.map .err, 2⟩

/-- The outcome of a run with the given arguments, given the contents of files. -/
def run (arguments : List String) (contents : String → Except FileError String) : Outcome :=
  match Invocation.parse arguments with
  | .ok invocation => invocation.run contents
  | .error error => error.outcome

end JobMarkup.CommandLine
