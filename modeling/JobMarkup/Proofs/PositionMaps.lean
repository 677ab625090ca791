import JobMarkup.Proofs.Positions
import Mathlib.Data.Set.Function
import Mathlib.Order.Monotone.Basic

/-!
# Characters, their positions and their offsets

The positions of the characters of a text and the offsets below its length correspond to each other:
`offset` and `locate` lead from one to the other and back, and both keep the order of reading. An
offset behind the text has a position too, from which it can be found again, but no character stands
there.

Nothing is assumed of the lines of a text, so this holds after any cuts: lines may be empty, may lack
their line feeds and may hold several.
-/

namespace JobMarkup.SourceText

/-- A character stands at the position: the line exists and is longer than the column. -/
def HasPosition (text : SourceText) (position : Position) : Prop :=
  position.line < text.lineCount
    ∧ ∃ count, text.lineLength position.line = .ok count ∧ position.column < count

/-- A position in a list of lines, given by a line before which others stand, and a column on it. -/
theorem locateIn_length_flatten_add (before : List (List Char)) (line : List Char)
    (behind : List (List Char)) {column : Nat} (h : column < line.length) :
    locateIn (before ++ line :: behind) (before.flatten.length + column)
      = ⟨before.length, column⟩ := by
  induction before with
  | nil =>
    cases behind with
    | nil => simp [locateIn]
    | cons next rest => simp [locateIn, h]
  | cons first before ih =>
    have hne : before ++ line :: behind ≠ [] :=
      List.append_ne_nil_of_right_ne_nil before (List.cons_ne_nil line behind)
    obtain ⟨second, others, hothers⟩ := List.exists_cons_of_ne_nil hne
    have hle : first.length ≤ (first :: before).flatten.length + column := by
      rw [List.flatten_cons, List.length_append]
      omega
    have hsub : (first :: before).flatten.length + column - first.length
        = before.flatten.length + column := by
      rw [List.flatten_cons, List.length_append]
      omega
    rw [List.cons_append, hothers, locateIn_cons_cons_of_le hle, hsub, ← hothers, ih]
    rfl

/-- A list is what stands in front of the item at an index, the item, and what stands behind it. -/
theorem eq_take_append_cons_drop {α : Type} {items : List α} {index : Nat} {item : α}
    (h : items[index]? = some item) :
    items = items.take index ++ item :: items.drop (index + 1) := by
  obtain ⟨hlt, rfl⟩ := List.getElem?_eq_some_iff.mp h
  rw [← List.drop_eq_getElem_cons hlt, List.take_append_drop]

variable (text : SourceText)

variable {text} in
/-- A character stands at a position exactly if its line is there and is longer than its column. -/
theorem hasPosition_iff {position : Position} :
    text.HasPosition position
      ↔ ∃ line, text.lines[position.line]? = some line ∧ position.column < line.length := by
  cases hline : text.lines[position.line]? with
  | none => simp [HasPosition, lineLength, line, hline, Except.map]
  | some line =>
    obtain ⟨hlt, rfl⟩ := List.getElem?_eq_some_iff.mp hline
    simp [HasPosition, lineLength, SourceText.line, Except.map, lineCount, hlt]

variable {text} in
/-- The spans of the document whose ends are characters of the text pass the check. -/
theorem checkSpan_eq_ok_iff {span : Span} :
    text.checkSpan span = .ok () ↔ span.document = text.document
      ∧ text.HasPosition span.start ∧ text.HasPosition span.stop := by
  rw [hasPosition_iff, hasPosition_iff, ← isSome_charAtPosition_iff, ← isSome_charAtPosition_iff,
    checkSpan]
  by_cases hdocument : span.document = text.document
  · rw [if_neg (not_not_intro hdocument), ← Bool.and_eq_true]
    split
    · next hends => exact iff_of_true rfl ⟨hdocument, hends⟩
    · next hends => exact iff_of_false (by simp) fun h => hends h.2
  · rw [if_pos hdocument]
    exact iff_of_false (by simp) fun h => hdocument h.1

variable {text} in
/-- The position of a character is found again from its offset. -/
theorem locate_offset {position : Position} (h : text.HasPosition position) :
    text.locate (text.offset position) = position := by
  obtain ⟨line, hline, hcolumn⟩ := hasPosition_iff.mp h
  have hlt := (List.getElem?_eq_some_iff.mp hline).1
  have hlocate := locateIn_length_flatten_add (text.lines.take position.line) _
    (text.lines.drop (position.line + 1)) hcolumn
  rw [← eq_take_append_cons_drop hline, List.length_take_of_le (Nat.le_of_lt hlt)] at hlocate
  exact hlocate

/-- A character stands where an offset is located exactly if the offset lies in the text. -/
theorem hasPosition_locate_iff (offset : Nat) :
    text.HasPosition (text.locate offset) ↔ offset < text.length := by
  rw [hasPosition_iff, ← isSome_charAtPosition_iff, charAtPosition_locate, charAt, isSome_getElem?]
  rfl

variable {text} in
/-- The offset of a character is one in the text. -/
theorem offset_lt_length {position : Position} (h : text.HasPosition position) :
    text.offset position < text.length := by
  rwa [← hasPosition_locate_iff, locate_offset h]

variable {text} in
/-- Characters at later positions have greater offsets. -/
theorem offset_lt_offset {a b : Position} (ha : text.HasPosition a) (hb : text.HasPosition b)
    (h : a < b) : text.offset a < text.offset b := by
  by_contra hle
  have hlocate := text.locate_mono (Nat.le_of_not_lt hle)
  rw [locate_offset ha, locate_offset hb] at hlocate
  exact absurd h (not_lt.mpr hlocate)

variable {text} in
/-- The offset of a character is not behind that of a character that does not precede it. -/
theorem offset_le_offset {a b : Position} (ha : text.HasPosition a) (hb : text.HasPosition b)
    (h : a ≤ b) : text.offset a ≤ text.offset b := by
  rcases eq_or_lt_of_le h with rfl | hlt
  · exact Nat.le_refl _
  · exact Nat.le_of_lt (offset_lt_offset ha hb hlt)

variable {text} in
/-- The character at the position of an offset, the one at a position and the one on its line are
the same. -/
theorem charAt_offset {position : Position} (h : text.HasPosition position) :
    text.charAt (text.offset position) = text.charAtPosition position := by
  rw [← charAtPosition_locate, locate_offset h]

/-- Positions of characters and offsets in a text correspond to each other, whatever the text is. The
positions at which a character stands are in bijection with the offsets below the length, by taking
the offset and by locating, and both maps are strictly monotone, where positions have the order of
reading. Any offset whatever, also one behind the text, is the offset of the position at which it is
located, and locating is strictly monotone on all of them. The character at the offset of a position
is the one at the position, and that is the one in its column on its line; elsewhere no character
stands at a position. -/
theorem positions_correspond :
    Set.BijOn text.offset {position | text.HasPosition position} {offset | offset < text.length}
      ∧ Set.BijOn text.locate {offset | offset < text.length} {position | text.HasPosition position}
      ∧ StrictMonoOn text.offset {position | text.HasPosition position}
      ∧ StrictMono text.locate
      ∧ (∀ position, text.HasPosition position → text.locate (text.offset position) = position)
      ∧ (∀ offset, text.offset (text.locate offset) = offset)
      ∧ (∀ position, text.HasPosition position → ∃ cs c, text.line position.line = .ok cs
        ∧ cs[position.column]? = some c ∧ text.charAtPosition position = some c
        ∧ text.charAt (text.offset position) = some c)
      ∧ ∀ position, text.charAtPosition position = none ↔ ¬ text.HasPosition position := by
  have hinverse : Set.InvOn text.locate text.offset {position | text.HasPosition position}
      {offset | offset < text.length} :=
    ⟨fun _ hposition => locate_offset hposition, fun offset _ => text.offset_locate offset⟩
  have hoffset : Set.MapsTo text.offset {position | text.HasPosition position}
      {offset | offset < text.length} := fun _ hposition => offset_lt_length hposition
  have hlocate : Set.MapsTo text.locate {offset | offset < text.length}
      {position | text.HasPosition position} := fun _ hlt => (text.hasPosition_locate_iff _).mpr hlt
  refine ⟨hinverse.bijOn hoffset hlocate, hinverse.symm.bijOn hlocate hoffset,
    fun _ ha _ hb => offset_lt_offset ha hb, fun _ _ => text.locate_strictMono,
    fun _ => locate_offset, text.offset_locate, ?_, ?_⟩
  · intro position hposition
    obtain ⟨cs, hline, hcolumn⟩ := hasPosition_iff.mp hposition
    have hchar : text.charAtPosition position = some cs[position.column] := by
      simp [charAtPosition, hline, hcolumn]
    refine ⟨cs, cs[position.column], ?_, List.getElem?_eq_getElem hcolumn, hchar, ?_⟩
    · rw [SourceText.line, hline]
    · rw [charAt_offset hposition, hchar]
  · intro position
    rw [hasPosition_iff, ← isSome_charAtPosition_iff, Bool.not_eq_true, Option.isSome_eq_false_iff,
      Option.isNone_iff_eq_none]

end JobMarkup.SourceText
