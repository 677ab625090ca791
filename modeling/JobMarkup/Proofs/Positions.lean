import JobMarkup.SourceText.Basic
import Mathlib.Order.Defs.LinearOrder

/-!
# Offsets and positions

Positions are linearly ordered in the order of reading. Locating an offset and taking the offset of
a position again gives the offset, later offsets have later positions, and the character at the
position of an offset is the character at the offset. So the span between two offsets, both inside
the text, addresses exactly the characters between them.

Nothing is assumed of the lines of a text: they may lack their line feeds or hold several.
-/

namespace JobMarkup

/-- Reading order is a linear order, whose bounds are the ones that spans are joined with. -/
instance : LinearOrder Position where
  le_refl a := Or.inr ⟨rfl, Nat.le_refl _⟩
  le_trans a b c hab hbc := by
    simp only [Position.le_def] at *
    omega
  le_antisymm a b hab hba := by
    obtain ⟨line, column⟩ := a
    obtain ⟨line', column'⟩ := b
    simp only [Position.le_def] at hab hba
    congr 1 <;> omega
  le_total a b := by
    simp only [Position.le_def]
    omega
  lt_iff_le_not_ge a b := by
    simp only [Position.le_def, Position.lt_def]
    omega
  toDecidableLE := inferInstance
  toDecidableLT := inferInstance
  min_def _ _ := rfl
  max_def _ _ := rfl

namespace SourceText

/-- An offset behind the first of several lines is located in the others. -/
theorem locateIn_cons_cons_of_le {line next : List Char} {rest : List (List Char)} {offset : Nat}
    (h : line.length ≤ offset) :
    locateIn (line :: next :: rest) offset =
      ⟨(locateIn (next :: rest) (offset - line.length)).line + 1,
        (locateIn (next :: rest) (offset - line.length)).column⟩ := by
  rw [locateIn, if_neg (Nat.not_lt.mpr h)]

/-- The characters of the lines in front of a located position and its column add up to the
offset. -/
theorem length_take_locateIn (lines : List (List Char)) (offset : Nat) :
    (lines.take (locateIn lines offset).line).flatten.length + (locateIn lines offset).column
      = offset := by
  induction lines generalizing offset with
  | nil => simp [locateIn]
  | cons line rest ih =>
    cases rest with
    | nil => simp [locateIn]
    | cons next rest =>
      by_cases h : offset < line.length
      · simp [locateIn, h]
      · rw [locateIn_cons_cons_of_le (Nat.le_of_not_lt h)]
        have hrest := ih (offset - line.length)
        simp only [List.take_succ_cons, List.flatten_cons, List.length_append]
        omega

/-- Later offsets are located at later positions. -/
theorem locateIn_strictMono (lines : List (List Char)) {a b : Nat} (h : a < b) :
    locateIn lines a < locateIn lines b := by
  induction lines generalizing a b with
  | nil => exact Or.inr ⟨rfl, h⟩
  | cons line rest ih =>
    cases rest with
    | nil => exact Or.inr ⟨rfl, h⟩
    | cons next rest =>
      rw [Position.lt_def]
      by_cases ha : a < line.length
      · by_cases hb : b < line.length
        · simp [locateIn, ha, hb, h]
        · rw [locateIn_cons_cons_of_le (Nat.le_of_not_lt hb)]
          simp [locateIn, ha]
      · rw [locateIn_cons_cons_of_le (Nat.le_of_not_lt ha),
          locateIn_cons_cons_of_le (Nat.le_trans (Nat.le_of_not_lt ha) (Nat.le_of_lt h))]
        have hlt := ih (a := a - line.length) (b := b - line.length) (by omega)
        rw [Position.lt_def] at hlt
        dsimp only
        omega

/-- The character at a located position is the character at the offset. -/
theorem getElem?_locateIn (lines : List (List Char)) (offset : Nat) :
    (lines[(locateIn lines offset).line]? >>= fun cs => cs[(locateIn lines offset).column]?)
      = lines.flatten[offset]? := by
  induction lines generalizing offset with
  | nil => rfl
  | cons line rest ih =>
    cases rest with
    | nil => simp [locateIn]
    | cons next rest =>
      by_cases h : offset < line.length
      · simp [locateIn, h, List.getElem?_append_left h]
      · rw [locateIn_cons_cons_of_le (Nat.le_of_not_lt h), List.flatten_cons,
          List.getElem?_append_right (Nat.le_of_not_lt h), ← ih, List.getElem?_cons_succ]

variable (text : SourceText)

/-- An offset is the offset of its position. -/
theorem offset_locate (offset : Nat) : text.offset (text.locate offset) = offset :=
  length_take_locateIn text.lines offset

/-- Later offsets have later positions. -/
theorem locate_strictMono {a b : Nat} (h : a < b) : text.locate a < text.locate b :=
  locateIn_strictMono text.lines h

/-- Offsets that do not decrease have positions that do not decrease. -/
theorem locate_mono {a b : Nat} (h : a ≤ b) : text.locate a ≤ text.locate b := by
  rcases Nat.eq_or_lt_of_le h with rfl | hlt
  · exact le_refl _
  · exact le_of_lt (text.locate_strictMono hlt)

/-- The character at the position of an offset is the character at the offset. -/
theorem charAtPosition_locate (offset : Nat) :
    text.charAtPosition (text.locate offset) = text.charAt offset :=
  getElem?_locateIn text.lines offset

variable {text} in
/-- A character stands at a position exactly if the line there has one in the column. -/
theorem isSome_charAtPosition_iff {position : Position} :
    (text.charAtPosition position).isSome = true
      ↔ ∃ line, text.lines[position.line]? = some line ∧ position.column < line.length := by
  rw [charAtPosition]
  cases text.lines[position.line]? with
  | none => simp
  | some line => simp

/-- The span between two offsets inside a text addresses characters of the text. -/
theorem checkSpan_spanOf {first last : Nat} (hle : first ≤ last) (hlast : last < text.length) :
    text.checkSpan (text.spanOf first last) = .ok () := by
  have hchar (offset : Nat) (h : offset < text.length) :
      (text.charAtPosition (text.locate offset)).isSome = true := by
    rw [charAtPosition_locate, charAt, List.getElem?_eq_getElem h]
    rfl
  simp [checkSpan, spanOf, hchar first (by omega), hchar last hlast]

/-- The characters of the span between two offsets inside a text are those between the offsets. -/
theorem extract_spanOf {first last : Nat} (hle : first ≤ last) (hlast : last < text.length) :
    text.extract (text.spanOf first last) = .ok (text.slice first (last - first + 1)) := by
  rw [extract, checkSpan_spanOf text hle hlast]
  simp only [spanOf, offset_locate]
  rfl

end SourceText

end JobMarkup
