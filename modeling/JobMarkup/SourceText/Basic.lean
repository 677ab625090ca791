import JobMarkup.Span

/-!
# Source texts

A source text is a document held as lines of characters. Reading it makes all line ends alike:
a carriage return, alone or before a line feed, becomes one line feed. Every line keeps its line
feed. Offsets count the characters of all lines one after the other, and `offset` and `locate`
convert between offsets and positions.
-/

namespace JobMarkup

/-- The lines of one document, each with the line feed that ends it. -/
structure SourceText where
  document : DocumentId
  lines : List (List Char)
deriving DecidableEq

namespace SourceText

/-- Every line end written as one line feed. -/
def normalizeLineEnds : List Char → List Char
  | [] => []
  | '\r' :: '\n' :: rest => '\n' :: normalizeLineEnds rest
  | '\r' :: rest => '\n' :: normalizeLineEnds rest
  | c :: rest => c :: normalizeLineEnds rest

/-- Once line ends are line feeds, there is no carriage return left. -/
theorem return_not_mem_normalizeLineEnds (cs : List Char) : '\r' ∉ normalizeLineEnds cs := by
  fun_induction normalizeLineEnds cs with
  | case1 => simp
  | case2 rest ih => simpa using ih
  | case3 rest _ ih => simpa using ih
  | case4 c rest _ hreturn ih =>
    rw [List.mem_cons, not_or]
    exact ⟨fun heq => hreturn heq.symm, ih⟩

/-- A text without carriage returns stays as it is. -/
theorem normalizeLineEnds_eq_self {cs : List Char} (h : '\r' ∉ cs) : normalizeLineEnds cs = cs := by
  fun_induction normalizeLineEnds cs with
  | case1 => rfl
  | case2 rest ih => simp at h
  | case3 rest _ ih => simp at h
  | case4 c rest _ _ ih =>
    rw [List.mem_cons, not_or] at h
    rw [ih h.2]

/-- A character that is no carriage return stays as it is. -/
theorem normalizeLineEnds_cons {c : Char} (h : c ≠ '\r') (rest : List Char) :
    normalizeLineEnds (c :: rest) = c :: normalizeLineEnds rest := by
  rw [normalizeLineEnds]
  · rintro rest rfl
    exact absurd rfl h
  · exact h

/-- A carriage return that no line feed follows becomes a line feed of its own. -/
theorem normalizeLineEnds_return {rest : List Char} (h : rest.head? ≠ some '\n') :
    normalizeLineEnds ('\r' :: rest) = '\n' :: normalizeLineEnds rest := by
  rw [normalizeLineEnds]
  rintro behind rfl
  exact absurd rfl h

/-- Characters do not vanish altogether when line ends are replaced, so a text that is not empty
keeps a line. -/
theorem normalizeLineEnds_ne_nil {cs : List Char} (h : cs ≠ []) : normalizeLineEnds cs ≠ [] := by
  fun_cases normalizeLineEnds cs <;> simp_all

/-- Cut after every line feed. -/
def splitLines : List Char → List (List Char)
  | [] => []
  | '\n' :: rest => ['\n'] :: splitLines rest
  | c :: rest =>
    match splitLines rest with
    | [] => [[c]]
    | line :: lines => (c :: line) :: lines

/-- Cutting into lines loses no character. -/
theorem flatten_splitLines (cs : List Char) : (splitLines cs).flatten = cs := by
  fun_induction splitLines cs with
  | case1 => rfl
  | case2 rest ih => simp [ih]
  | case3 c rest _ h ih => rw [h] at ih; simp [← ih]
  | case4 c rest _ line lines h ih => rw [h] at ih; simp [← ih]

/-- The text of a document with the given contents. -/
def ofString (document : DocumentId) (contents : String) : SourceText :=
  ⟨document, splitLines (normalizeLineEnds contents.toList)⟩

variable (text : SourceText)

/-- All characters, in reading order. -/
def chars : List Char := text.lines.flatten

/-- Reading a text keeps all its characters, line ends made alike. -/
theorem chars_ofString (document : DocumentId) (contents : String) :
    (ofString document contents).chars = normalizeLineEnds contents.toList :=
  flatten_splitLines _

/-- The number of characters. -/
def length : Nat := text.chars.length

/-- The whole text. -/
def contents : String := String.ofList text.chars

/-- The number of lines. -/
def lineCount : Nat := text.lines.length

/-- One line, its line feed included. -/
def line (index : Nat) : Except RangeError (List Char) :=
  match text.lines[index]? with
  | some cs => .ok cs
  | none => .error (.lineOutOfRange index text.lineCount)

/-- The number of characters of a line, its line feed included. -/
def lineLength (index : Nat) : Except RangeError Nat :=
  (text.line index).map List.length

/-- The number of characters before a position. A line past the end starts where the text ends. -/
def offset (position : Position) : Nat :=
  (text.lines.take position.line).flatten.length + position.column

/-- The position of an offset in a list of lines; past the end, on the last line. -/
def locateIn : List (List Char) → Nat → Position
  | [], offset => ⟨0, offset⟩
  | [_], offset => ⟨0, offset⟩
  | line :: next :: rest, offset =>
    if offset < line.length then ⟨0, offset⟩
    else
      let position := locateIn (next :: rest) (offset - line.length)
      ⟨position.line + 1, position.column⟩

/-- The position of an offset; past the end, on the last line. -/
def locate (offset : Nat) : Position := locateIn text.lines offset

/-- The character at an offset. -/
def charAt (offset : Nat) : Option Char := text.chars[offset]?

/-- The character at a position. -/
def charAtPosition (position : Position) : Option Char :=
  text.lines[position.line]? >>= fun cs => cs[position.column]?

/-- At most `count` characters from an offset on. -/
def slice (offset count : Nat) : List Char := (text.chars.drop offset).take count

/-- The span from one offset to another, both included. -/
def spanOf (first last : Nat) : Span := ⟨text.document, text.locate first, text.locate last⟩

/-- Both ends of the span are characters of this text. -/
def checkSpan (span : Span) : Except RangeError Unit :=
  if span.document ≠ text.document then .error .documentMismatch
  else if (text.charAtPosition span.start).isSome && (text.charAtPosition span.stop).isSome then
    .ok ()
  else .error (.spanOutOfRange span)

/-- The characters of a span, both ends included. -/
def extract (span : Span) : Except RangeError (List Char) := do
  text.checkSpan span
  let first := text.offset span.start
  let last := text.offset span.stop
  return text.slice first (last - first + 1)

end SourceText

end JobMarkup
