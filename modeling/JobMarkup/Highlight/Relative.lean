import JobMarkup.Highlight.Basic
import JobMarkup.Span

/-!
# The relative form of highlights

For an editor, highlights are written as numbers, five for each: the lines down from the highlight
before, the columns to the right of it or, on another line, from the start of the line, the length,
the category, and a zero. Numbers have 32 bits; larger ones are written as the largest. The form is
read back by adding up.
-/

namespace JobMarkup.Highlight

/-- The largest number of the relative form. -/
def maxNumber : Nat := 4294967295

/-- The numbers of a highlight, given where the highlight before begins. -/
def relativeNumbers (before : Position) (highlight : Highlight) : List Nat :=
  let down := highlight.line - before.line
  let right := if 0 < down then highlight.start else highlight.start - before.column
  [min down maxNumber, min right maxNumber, min highlight.length maxNumber,
    highlight.category.index, 0]

/-- The relative form of highlights, given where the highlight before them begins. -/
def encodeFrom : (before : Position) → List Highlight → List Nat
  | _, [] => []
  | before, highlight :: rest =>
    relativeNumbers before highlight ++ encodeFrom ⟨highlight.line, highlight.start⟩ rest

/-- The relative form of highlights. -/
def encode (highlights : List Highlight) : List Nat := encodeFrom ⟨0, 0⟩ highlights

/-- The highlights with a relative form, given where the highlight before them begins. -/
def decodeFrom : (before : Position) → List Nat → Option (List Highlight)
  | _, [] => some []
  | before, down :: right :: length :: index :: _ :: rest => do
    let line := before.line + down
    let start := if 0 < down then right else before.column + right
    let category ← Category.ofIndex? index
    let others ← decodeFrom ⟨line, start⟩ rest
    return ⟨category, line, start, length⟩ :: others
  | _, _ => none

/-- The highlights with a relative form. -/
def decode (numbers : List Nat) : Option (List Highlight) := decodeFrom ⟨0, 0⟩ numbers

/-- The relative form has five numbers for each highlight. -/
theorem length_encodeFrom (before : Position) (highlights : List Highlight) :
    (encodeFrom before highlights).length = 5 * highlights.length := by
  induction highlights generalizing before with
  | nil => rfl
  | cons highlight rest ih =>
    simp only [encodeFrom, List.length_append, ih, relativeNumbers, List.length_cons,
      List.length_nil]
    omega

end JobMarkup.Highlight
