import JobMarkup.SourceText.Basic

/-!
# Loading a text in one pass

A text can also be cut into lines while its characters are taken in one by one. A loader keeps the
lines that have ended and the line that has begun. A carriage return ends the line as a line feed
does, and a line feed directly behind it is passed over.
-/

namespace JobMarkup

/-- The lines that have ended, and the characters of the line that has begun. -/
structure Loader where
  lines : List (List Char) := []
  begun : List Char := []

namespace Loader

/-- Take a character into the line that has begun. -/
def push (loader : Loader) (c : Char) : Loader := { loader with begun := loader.begun ++ [c] }

/-- End the line that has begun with a line feed. -/
def endLine (loader : Loader) : Loader := ⟨loader.lines ++ [loader.begun ++ ['\n']], []⟩

/-- All lines. A line that has begun is one of them if it has characters. -/
def finish (loader : Loader) : List (List Char) :=
  if loader.begun.isEmpty then loader.lines else loader.lines ++ [loader.begun]

/-- Take in all characters. -/
def load (loader : Loader) : List Char → List (List Char)
  | [] => loader.finish
  | '\n' :: rest => loader.endLine.load rest
  | '\r' :: '\n' :: rest => loader.endLine.load rest
  | '\r' :: rest => loader.endLine.load rest
  | c :: rest => (loader.push c).load rest

end Loader

end JobMarkup
