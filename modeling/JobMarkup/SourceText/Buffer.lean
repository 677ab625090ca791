import JobMarkup.SourceText.Edit

/-!
# Texts that are edited in place

A buffer is a text whose lines are changed where they are. It also keeps what has been counted from
them: all characters, where every line starts and how many characters it has. These are read instead
of the lines, and counted anew at the end of an edit.

An edit is run on a buffer. It may be refused, and what it has changed until then stays changed. It has
no outcome at all if it reads or writes a line that there is none of, or takes a number from a lesser
one.
-/

namespace JobMarkup

/-- The lines of a document and what has been counted from them. -/
structure Buffer where
  document : DocumentId
  lines : List (List Char)
  /-- All characters, in reading order. -/
  chars : List Char
  /-- The offset at which each line starts. -/
  lineStarts : List Nat
  /-- The number of characters of each line, its line feed included. -/
  lineLengths : List Nat
deriving DecidableEq

namespace Buffer

/-- Where each of some lines starts if the first one starts at an offset. -/
def startsFrom : Nat → List (List Char) → List Nat
  | _, [] => []
  | start, line :: rest => start :: startsFrom (start + line.length) rest

/-- Count anew what is counted from the lines. -/
def refresh (buffer : Buffer) : Buffer :=
  { buffer with
    chars := buffer.lines.flatten
    lineStarts := startsFrom 0 buffer.lines
    lineLengths := buffer.lines.map List.length }

/-- A text, to be edited. -/
def ofText (text : SourceText) : Buffer := refresh ⟨text.document, text.lines, [], [], []⟩

/-- The text that is held. -/
def text (buffer : Buffer) : SourceText := ⟨buffer.document, buffer.lines⟩

/-- A buffer holds the text from which it is made, which is the start of every history of edits. -/
theorem text_ofText (text : SourceText) : (ofText text).text = text := rfl

variable (buffer : Buffer)

/-- The number of characters before a position, by where its line starts. -/
def offset (position : Position) : Nat :=
  (buffer.lineStarts[position.line]?).getD buffer.chars.length + position.column

/-- The position of an offset: on the last of the lines that start up to it, as many columns behind the
start as there are characters between them. There is none if the line starts behind the offset. -/
def locate (offset : Nat) : Option Position :=
  let line := (buffer.lineStarts.takeWhile (· ≤ offset)).length - 1
  let start := (buffer.lineStarts[line]?).getD 0
  if start ≤ offset then some ⟨line, offset - start⟩ else none

/-- The character at an offset. -/
def charAt (offset : Nat) : Option Char := buffer.chars[offset]?

/-- The character at a position, if the line is long enough to have it. -/
def charAtPosition (position : Position) : Option Char :=
  match buffer.lineLengths[position.line]? with
  | some length =>
    if position.column < length then buffer.charAt (buffer.offset position) else none
  | none => none

/-- At most `count` characters from an offset on: those between two offsets, neither of them behind
the end. -/
def slice (offset count : Nat) : List Char :=
  let first := min offset buffer.chars.length
  let behind := min (offset + count) buffer.chars.length
  (buffer.chars.take behind).drop first

/-- Both ends of the span are characters of the text, by the lengths of their lines. -/
def checkSpan (span : Span) : Except RangeError Unit :=
  if span.document ≠ buffer.document then .error .documentMismatch
  else match buffer.lineLengths[span.start.line]?, buffer.lineLengths[span.stop.line]? with
    | some first, some last =>
      if first ≤ span.start.column ∨ last ≤ span.stop.column then .error (.spanOutOfRange span)
      else .ok ()
    | _, _ => .error (.spanOutOfRange span)

/-- The characters of a line without those from one column up to another one, which stays. -/
def removeChars (line : List Char) (first behind : Nat) : List Char :=
  (line.zipIdx.filter fun (_, index) => index < first || behind ≤ index).map Prod.fst

/-! ## Edits -/

/-- What is done to a buffer, and the value that it gives. -/
abbrev Edit (α : Type) := ExceptT RangeError (StateT Buffer Option) α

namespace Edit

variable {α β : Type}

/-- The value of an edit, or why it is refused, and the buffer as the edit leaves it. -/
def run (edit : Edit α) (buffer : Buffer) : Option (Except RangeError α × Buffer) :=
  StateT.run (ExceptT.run edit) buffer

/-- No outcome: what is asked for is not there. -/
def absent : Edit α := ExceptT.lift failure

/-- The difference of two numbers, the second of which is not greater. -/
def difference (a b : Nat) : Edit Nat := if b ≤ a then pure (a - b) else absent

/-- A line of the buffer. -/
def lineAt (index : Nat) : Edit (List Char) := do
  match (← get).lines[index]? with
  | some line => return line
  | none => absent

/-- Put a line in the place of one. -/
def setLine (index : Nat) (line : List Char) : Edit Unit := do
  if index < (← get).lines.length then
    modify fun buffer => { buffer with lines := buffer.lines.set index line }
  else absent

/-- Take a line out; those behind it move up. -/
def eraseLine (index : Nat) : Edit Unit := do
  if index < (← get).lines.length then
    modify fun buffer => { buffer with lines := buffer.lines.eraseIdx index }
  else absent

/-- Leave nothing of the lines from one up to another one, which stays. -/
def clearLines (first behind : Nat) : Edit Unit := do
  if first ≤ behind ∧ behind ≤ (← get).lines.length then
    modify fun buffer => { buffer with
      lines := buffer.lines.take first ++ List.replicate (behind - first) []
        ++ buffer.lines.drop behind }
  else absent

/-- Take out the empty ones of a number of lines from one on. -/
def eraseEmptied (index : Nat) : (remaining : Nat) → Edit Unit
  | 0 => return
  | remaining + 1 => do
    if (← lineAt index).isEmpty then
      eraseLine index
      eraseEmptied index remaining
    else eraseEmptied (index + 1) remaining

end Edit

open Edit

/-- The characters of a span, both ends included. -/
def extract (span : Span) : Edit (List Char) := do
  let buffer ← get
  buffer.checkSpan span
  let first := buffer.offset span.start
  let last := buffer.offset span.stop
  return buffer.slice first ((← difference last first) + 1)

/-- Cut out one line. -/
def removeLine (line : Nat) : Edit Unit := do
  let buffer ← get
  if buffer.lines.length ≤ line then throw (.lineOutOfRange line buffer.lines.length)
  else
    eraseLine line
    modify refresh

/-- Cut out some characters of one line, and the line if it has no others. -/
def removeWithin (line first last : Nat) : Edit Unit := do
  setLine line (removeChars (← lineAt line) first (last + 1))
  if (← lineAt line).isEmpty then eraseLine line
  modify refresh

/-- Put what is left of the ends of two lines on the first one, or on the second one if nothing is left of
the first. -/
def joinLines (first last : Nat) (head tail : List Char) : Edit Unit := do
  if head.isEmpty then
    setLine first head
    setLine last tail
  else
    setLine first (head ++ tail)
    setLine last []

/-- Cut out the characters from one position to another on a later line, and the lines of which nothing
is left. -/
def removeAcross (start stop : Position) : Edit Unit := do
  let head := (← lineAt start.line).take start.column
  let tail := (← lineAt stop.line).drop (stop.column + 1)
  clearLines (start.line + 1) stop.line
  joinLines start.line stop.line head tail
  eraseEmptied start.line ((← difference stop.line start.line) + 1)
  modify refresh

/-- Cut out the characters of a span, both ends included. -/
def removeSpan (span : Span) : Edit Unit := do
  (← get).checkSpan span
  if span.start.line = span.stop.line then
    removeWithin span.start.line span.start.column span.stop.column
  else removeAcross span.start span.stop

end Buffer

end JobMarkup
