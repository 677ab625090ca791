import JobMarkup.SourceText.Basic

/-!
# Cutting from a source text

Whole lines and spans can be cut out of a text. A cut that does not address the text is refused
and changes nothing. What is left of the first and the last line of a span becomes one line, with
no line feed added, and a line left empty disappears.
-/

namespace JobMarkup.SourceText

/-- Cut out one line. -/
def removeLine (text : SourceText) (line : Nat) : Except RangeError SourceText :=
  if line < text.lineCount then .ok { text with lines := text.lines.eraseIdx line }
  else .error (.lineOutOfRange line text.lineCount)

/-- The line with this text, or no line when there is no text. -/
def nonemptyLine (cs : List Char) : List (List Char) := if cs.isEmpty then [] else [cs]

/-- Cut out the characters of a span, both ends included. -/
def removeSpan (text : SourceText) (span : Span) : Except RangeError SourceText := do
  text.checkSpan span
  let head := ((text.lines[span.start.line]?).getD []).take span.start.column
  let tail := ((text.lines[span.stop.line]?).getD []).drop (span.stop.column + 1)
  return { text with
    lines := text.lines.take span.start.line ++ nonemptyLine (head ++ tail)
      ++ text.lines.drop (span.stop.line + 1) }

end JobMarkup.SourceText
