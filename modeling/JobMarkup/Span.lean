/-!
# Positions and spans

A position is a line and a column, both counted from zero, and positions are ordered as they are
read: by line, then by column. A span is the stretch of one document between two positions, both
included. Spans of one document can be joined; spans of two documents cannot.
-/

namespace JobMarkup

/-- The 128-bit name of a document. -/
structure DocumentId where
  value : BitVec 128
deriving DecidableEq, Inhabited

namespace DocumentId

/-- The document whose name is the given number. -/
def ofNat (n : Nat) : DocumentId := ⟨BitVec.ofNat 128 n⟩

/-- The last `width` lower-case hexadecimal digits of a number, leading zeros included. -/
def hexDigits : (width n : Nat) → List Char
  | 0, _ => []
  | width + 1, n => hexDigits width (n / 16) ++ [Nat.digitChar (n % 16)]

/-- The written form of a name: 32 hexadecimal digits in groups of 8, 4, 4, 4 and 12. -/
def toText (id : DocumentId) : String :=
  let digits := hexDigits 32 id.value.toNat
  let group := fun start count => String.ofList ((digits.drop start).take count)
  "-".intercalate [group 0 8, group 8 4, group 12 4, group 16 4, group 20 12]

end DocumentId

/-- A place in a text, counted from zero. -/
structure Position where
  line : Nat
  column : Nat
deriving DecidableEq, Inhabited

namespace Position

/-- Reading order: by line, then by column. -/
instance : LE Position :=
  ⟨fun a b => a.line < b.line ∨ (a.line = b.line ∧ a.column ≤ b.column)⟩

/-- Strict reading order. -/
instance : LT Position :=
  ⟨fun a b => a.line < b.line ∨ (a.line = b.line ∧ a.column < b.column)⟩

/-- Positions can be compared by their numbers, so checks on spans can be evaluated. -/
instance (a b : Position) : Decidable (a ≤ b) :=
  inferInstanceAs (Decidable (a.line < b.line ∨ (a.line = b.line ∧ a.column ≤ b.column)))

/-- Whether one position is before another is decided by their numbers as well. -/
instance (a b : Position) : Decidable (a < b) :=
  inferInstanceAs (Decidable (a.line < b.line ∨ (a.line = b.line ∧ a.column < b.column)))

/-- The lesser of two positions is the first one in the order of reading. -/
instance : Min Position := minOfLe

/-- The greater of two positions is the last one in the order of reading. -/
instance : Max Position := maxOfLe

/-- The order of reading goes by lines first and by columns within one line. -/
theorem le_def {a b : Position} :
    a ≤ b ↔ a.line < b.line ∨ (a.line = b.line ∧ a.column ≤ b.column) :=
  Iff.rfl

/-- The strict order of reading, spelled out in lines and columns for arithmetic. -/
theorem lt_def {a b : Position} :
    a < b ↔ a.line < b.line ∨ (a.line = b.line ∧ a.column < b.column) :=
  Iff.rfl

end Position

/-- The stretch of one document from `start` to `stop`, both included. -/
structure Span where
  document : DocumentId
  start : Position
  stop : Position
deriving DecidableEq, Inhabited

namespace Span

/-- The end of a span does not precede its start. -/
def Ordered (span : Span) : Prop := span.start ≤ span.stop

/-- Whether the ends of a span are in order can be evaluated. -/
instance (span : Span) : Decidable span.Ordered :=
  inferInstanceAs (Decidable (span.start ≤ span.stop))

/-- The span of a single position. -/
def point (document : DocumentId) (position : Position) : Span :=
  ⟨document, position, position⟩

/-- The very start of a document, the place of what has no place of its own. -/
def origin (document : DocumentId) : Span := point document ⟨0, 0⟩

/-- Both ends lie on one line. -/
def isSingleLine (span : Span) : Bool := span.start.line == span.stop.line

/-- The written form of a span: its two positions, a hyphen between them. -/
def toText (span : Span) : String :=
  s!"{span.start.line}:{span.start.column}-{span.stop.line}:{span.stop.column}"

end Span

/-- Why a place in a text cannot be used. -/
inductive RangeError where
  /-- A line past the end of a text that has `lineCount` lines. -/
  | lineOutOfRange (line lineCount : Nat)
  /-- A span whose ends are not both characters of the text. -/
  | spanOutOfRange (span : Span)
  /-- A span whose end precedes its start. -/
  | reversedSpan (start stop : Position)
  /-- Spans of two documents, or a span of a document other than the text's own. -/
  | documentMismatch
deriving DecidableEq

/-- The wording of a range error. -/
def RangeError.message : RangeError → String
  | .lineOutOfRange line lineCount =>
    s!"line {line} is out of range (document has {lineCount} lines)"
  | .spanOutOfRange span => s!"span {span.toText} is out of range"
  | .reversedSpan start stop =>
    s!"span end ({stop.line}, {stop.column}) precedes its start ({start.line}, {start.column})"
  | .documentMismatch => "unable to merge spans across distinct documents"

namespace Span

/-- The span between two positions, refused when the second precedes the first. -/
def between (document : DocumentId) (start stop : Position) : Except RangeError Span :=
  if start ≤ stop then .ok ⟨document, start, stop⟩ else .error (.reversedSpan start stop)

/-- The smallest span that holds two spans of one document. -/
def union (a b : Span) : Except RangeError Span :=
  if a.document = b.document then
    .ok ⟨a.document, min a.start b.start, max a.stop b.stop⟩
  else
    .error .documentMismatch

/-- The smallest span that holds all the given spans. There is none when no span is given or when
they belong to several documents. -/
def cover : List Span → Option Span
  | [] => none
  | span :: rest => rest.foldlM (fun covered next => (covered.union next).toOption) span

/-- What is covered so far, nothing at first, together with one more span. It is refused when the span
belongs to another document. -/
def extend : (covered : Option Span) → (next : Span) → Except RangeError (Option Span)
  | none, next => .ok (some next)
  | some covered, next => (covered.union next).map some

/-- There is nothing to cover in an empty list of spans. -/
@[simp] theorem cover_nil : cover [] = none := rfl

/-- One span is covered by itself. -/
@[simp] theorem cover_singleton (span : Span) : cover [span] = some span := rfl

/-- The ends of the span of one character are in order, since they are the same. -/
theorem ordered_point (document : DocumentId) (position : Position) :
    (point document position).Ordered :=
  Or.inr ⟨rfl, Nat.le_refl _⟩

end Span

end JobMarkup
