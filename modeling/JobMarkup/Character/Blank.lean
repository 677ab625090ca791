import JobMarkup.Character.Ranges

/-!
# Blank characters

The blank characters are the code points with the property White_Space. Inside a line all of them
are blanks but the line feed, which ends the line.
-/

namespace JobMarkup.Character

/-- The code points with the property White_Space. -/
def blankRanges : List (Nat × Nat) := [
  (0x9, 0xD), (0x20, 0x20), (0x85, 0x85), (0xA0, 0xA0), (0x1680, 0x1680), (0x2000, 0x200A),
  (0x2028, 0x2029), (0x202F, 0x202F), (0x205F, 0x205F), (0x3000, 0x3000)]

/-- The character is blank. -/
def isBlank (c : Char) : Bool := inRanges blankRanges c.toNat

/-- The character is blank and does not end a line. -/
def isInlineBlank (c : Char) : Bool := c != '\n' && isBlank c

/-- The blanks of ASCII are blank. -/
theorem isBlank_of_isWhitespace {c : Char} (h : c.isWhitespace = true) : isBlank c = true := by
  simp only [Char.isWhitespace, Bool.or_eq_true, decide_eq_true_eq] at h
  obtain ((rfl | rfl) | rfl) | rfl := h <;> decide

end JobMarkup.Character
