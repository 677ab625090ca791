import JobMarkup.Variable.Values

/-!
# Command line arguments

The first argument is a command. The others are files, and assignments of values to variables in
either of two forms: `--var` followed by an argument, or one argument that begins with `--var=`.
An assignment is an identifier, an equals sign and a value; the value may hold further ones.
-/

namespace JobMarkup.CommandLine

open Variable

/-- What can be done with files. -/
inductive Command where
  | check
  | render
  | tokens
deriving DecidableEq

/-- The command with the given name. -/
def Command.ofName? : String → Option Command
  | "check" => some check
  | "render" => some render
  | "tokens" => some tokens
  | _ => none

/-- Why arguments cannot be followed. -/
inductive ArgumentError where
  /-- No command, or a request for help. -/
  | usage
  | unknownCommand (name : String)
  /-- An assignment without an equals sign, or no assignment where one is due. -/
  | invalidAssignment (text : String)
  | invalidIdentifier (error : IdentifierError)
  | noFiles
deriving DecidableEq

/-- The text behind a mark that it begins with. -/
def behindMark : (mark text : List Char) → Option (List Char)
  | [], text => some text
  | _ :: _, [] => none
  | m :: mark, c :: text => if m = c then behindMark mark text else none

/-- What stands behind a mark is found exactly if the text begins with the mark, and it is all
the rest. -/
theorem behindMark_eq_some_iff {mark text rest : List Char} :
    behindMark mark text = some rest ↔ text = mark ++ rest := by
  induction mark generalizing text with
  | nil => simp [behindMark]
  | cons m mark ih =>
    cases text with
    | nil => simp [behindMark]
    | cons c text =>
      rw [behindMark]
      by_cases h : m = c
      · simp [h, ih]
      · simp [h, Ne.symm h]

/-- The characters before and behind the first occurrence of a separator. -/
def splitFirst (separator : Char) : List Char → Option (List Char × List Char)
  | [] => none
  | c :: rest =>
    if c = separator then some ([], rest)
    else (splitFirst separator rest).map fun (before, behind) => (c :: before, behind)

/-- A separator with none in front of it is the first one. -/
theorem splitFirst_append_cons {separator : Char} {before : List Char} (h : separator ∉ before)
    (behind : List Char) :
    splitFirst separator (before ++ separator :: behind) = some (before, behind) := by
  induction before with
  | nil => simp [splitFirst]
  | cons c rest ih =>
    obtain ⟨hc, hrest⟩ := not_or.mp fun hmem => h (List.mem_cons.mpr hmem)
    simp [splitFirst, Ne.symm hc, ih hrest]

/-- Read the assignment of a value to a variable. -/
def parseAssignment (text : String) : Except ArgumentError (Identifier × String) :=
  match splitFirst '=' text.toList with
  | none => .error (.invalidAssignment text)
  | some (name, value) =>
    match Identifier.parse (String.ofList name) with
    | .ok identifier => .ok (identifier, String.ofList value)
    | .error error => .error (.invalidIdentifier error)

/-- The argument that announces an assignment. -/
def assignmentMark : String := "--var"

/-- The text of an assignment that is one argument with its mark. -/
def joinedAssignment? (argument : String) : Option String :=
  (behindMark (assignmentMark.toList ++ ['=']) argument.toList).map String.ofList

/-- The files and the assignments in arguments, in order. -/
def parseOptions :
    List String → Except ArgumentError (List String × List (Identifier × String))
  | [] => .ok ([], [])
  | argument :: rest =>
    if argument = assignmentMark then
      match rest with
      | [] => .error (.invalidAssignment "")
      | text :: others => do
        let assignment ← parseAssignment text
        let (files, assignments) ← parseOptions others
        return (files, assignment :: assignments)
    else
      match joinedAssignment? argument with
      | some text => do
        let assignment ← parseAssignment text
        let (files, assignments) ← parseOptions rest
        return (files, assignment :: assignments)
      | none => do
        let (files, assignments) ← parseOptions rest
        return (argument :: files, assignments)

/-- What to do, with which files, under which values. -/
structure Invocation where
  command : Command
  files : List String
  values : Values

/-- A request for help. -/
def isHelp (argument : String) : Bool := argument == "--help" || argument == "-h"

/-- Read all arguments. -/
def Invocation.parse : List String → Except ArgumentError Invocation
  | [] => .error .usage
  | name :: options =>
    if isHelp name then .error .usage
    else
      match Command.ofName? name with
      | none => .error (.unknownCommand name)
      | some command => do
        let (files, assignments) ← parseOptions options
        if files.isEmpty then .error .noFiles
        else return ⟨command, files, Values.ofList assignments⟩

end JobMarkup.CommandLine
