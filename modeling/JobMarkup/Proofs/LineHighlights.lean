import JobMarkup.Proofs.HighlightOrder
import JobMarkup.Proofs.PositionMaps

/-!
# Highlights of a span, line by line

A span of a text is highlighted line by line: on its first line from its start, on the lines between
as a whole, and on its last line up to its end. No line of a text is empty, so the highlight of a line
ends where the next line begins, and the highlights of a span cover its characters, each of them once.

The proof takes the first line off the span. What is left is the span from the start of the next line
on, whose highlights are the others.
-/

namespace JobMarkup

namespace SourceText

variable {text : SourceText}

/-- A line begins behind the end of the one before it. -/
theorem offset_succ_line {index : Nat} {line : List Char} (h : text.lines[index]? = some line) :
    text.offset ⟨index + 1, 0⟩ = text.offset ⟨index, 0⟩ + line.length := by
  simp [offset, List.take_add_one, h]

/-- A character stands at the start of a line of a text without empty lines. -/
theorem hasPosition_lineStart (hlines : [] ∉ text.lines) {index : Nat} (h : index < text.lineCount) :
    text.HasPosition ⟨index, 0⟩ := by
  obtain ⟨length, hlength, hpos⟩ := Highlight.lineLength_pos_of_lt hlines h
  exact ⟨h, length, hlength, hpos⟩

end SourceText

namespace Highlight

open SourceText

/-- The offsets of a highlight, from that of its first character to that of its last one. -/
def offsets (text : SourceText) (highlight : Highlight) : List Nat :=
  List.range' (text.offset highlight.first)
    (text.offset highlight.final + 1 - text.offset highlight.first)

variable {text : SourceText} {category : Category} {span : Span}

/-- A span on one line has one highlight. -/
theorem ofSpan_of_line_eq (h : span.start.line = span.stop.line) :
    ofSpan text category span = [⟨category, span.start.line, span.start.column,
      (span.stop.column - span.start.column) + 1⟩] := by
  simp [ofSpan, ofLine, h]

/-- A span over several lines has the highlight of the rest of its first line, and those of the span
from the next line on. -/
theorem ofSpan_of_line_lt (h : span.start.line < span.stop.line) :
    ofSpan text category span = ofLine text category span span.start.line
      :: ofSpan text category { span with start := ⟨span.start.line + 1, 0⟩ } := by
  have hcount : span.stop.line + 1 - span.start.line
      = (span.stop.line + 1 - (span.start.line + 1)) + 1 := by omega
  rw [ofSpan, hcount, List.range'_succ, List.map_cons, ofSpan]
  congr 1
  refine List.map_congr_left fun line hline => ?_
  have hlt : line ≠ span.start.line := by
    rw [List.mem_range'_1] at hline
    omega
  simp [ofLine, hlt]

/-- The highlight of the first of several lines ends where the next line begins. -/
theorem offset_final_ofLine (hstart : text.HasPosition span.start)
    (h : span.start.line < span.stop.line) :
    text.offset (ofLine text category span span.start.line).final + 1
      = text.offset ⟨span.start.line + 1, 0⟩ := by
  obtain ⟨line, hline, hcolumn⟩ := hasPosition_iff.mp hstart
  have hlength : (text.lineLength span.start.line).toOption.getD 0 = line.length := by
    simp [lineLength, SourceText.line, hline, Except.map, Except.toOption]
  have hlast : (ofLine text category span span.start.line).last = line.length - 1 := by
    simp only [ofLine, last, hlength, if_pos, if_neg (Nat.ne_of_lt h)]
    omega
  have hfinal : text.offset ⟨span.start.line, line.length - 1⟩
      = text.offset ⟨span.start.line, 0⟩ + (line.length - 1) := rfl
  rw [final, hlast, offset_succ_line hline]
  change text.offset ⟨span.start.line, line.length - 1⟩ + 1 = _
  omega

/-- The highlight of a span on one line covers the offsets from its start to its end. -/
theorem offsets_of_line_eq (hordered : span.Ordered) (h : span.start.line = span.stop.line) :
    offsets text ⟨category, span.start.line, span.start.column,
        (span.stop.column - span.start.column) + 1⟩
      = List.range' (text.offset span.start)
        (text.offset span.stop + 1 - text.offset span.start) := by
  have hcolumn : span.start.column ≤ span.stop.column := by
    have hle := Position.le_def.mp hordered
    omega
  have hfinal : (⟨category, span.start.line, span.start.column,
      (span.stop.column - span.start.column) + 1⟩ : Highlight).final = span.stop := by
    rw [final, last, Nat.add_sub_cancel, Nat.add_sub_cancel' hcolumn, h]
  rw [offsets, hfinal]
  rfl

/-- The highlights of a span cover the offsets from its start to its end, each of them once. -/
theorem flatMap_offsets_ofSpan (hlines : [] ∉ text.lines) (hordered : span.Ordered)
    (hstart : text.HasPosition span.start) (hstop : text.HasPosition span.stop) :
    (ofSpan text category span).flatMap (offsets text)
      = List.range' (text.offset span.start)
        (text.offset span.stop + 1 - text.offset span.start) := by
  obtain ⟨count, hcount⟩ : ∃ count, span.start.line + count = span.stop.line := by
    have hle := Position.le_def.mp hordered
    exact ⟨span.stop.line - span.start.line, by omega⟩
  -- the number of lines behind the first one; each step takes the first line off
  induction count generalizing span with
  | zero =>
    rw [ofSpan_of_line_eq hcount, List.flatMap_singleton, offsets_of_line_eq hordered hcount]
  | succ count ih =>
    have hlt : span.start.line < span.stop.line := by omega
    let next : Span := { span with start := ⟨span.start.line + 1, 0⟩ }
    have hnextStart : text.HasPosition next.start :=
      hasPosition_lineStart hlines (Nat.lt_of_le_of_lt hlt hstop.1)
    have hnextOrdered : next.Ordered := by
      simp only [next, Span.Ordered, Position.le_def]
      omega
    have hfront := offset_le_offset hstart hnextStart (Or.inl (Nat.lt_succ_self _))
    have hbehind := offset_le_offset hnextStart hstop hnextOrdered
    have hrest := ih hnextOrdered hnextStart hstop (by simp only [next]; omega)
    have hfirst : (ofLine text category span span.start.line).first = span.start := by
      simp [ofLine, first]
    rw [ofSpan_of_line_lt hlt, List.flatMap_cons, hrest, offsets, hfirst,
      offset_final_ofLine hstart hlt]
    have hjoin : text.offset next.start
        = text.offset span.start + (text.offset next.start - text.offset span.start) := by omega
    have hcovered : text.offset span.stop + 1 - text.offset span.start
        = (text.offset next.start - text.offset span.start)
          + (text.offset span.stop + 1 - text.offset next.start) := by omega
    rw [hcovered, ← List.range'_append_1, ← hjoin]

/-- Whatever has been cut out of a text, a span whose ends are characters of it is highlighted exactly
once. It has a highlight of the category for each of its lines, from the first one to the last one. The
offsets of these, from that of the first character to that of the last one of each, are one after the
other those from the start of the span to its end. -/
theorem ofSpan_covers_once (h : text.Reachable) (hordered : span.Ordered)
    (hspan : text.checkSpan span = .ok ()) (category : Category) :
    (ofSpan text category span).length = span.stop.line - span.start.line + 1
      ∧ (∀ highlight ∈ ofSpan text category span, highlight.category = category)
      ∧ (ofSpan text category span).map line
        = List.range' span.start.line (span.stop.line - span.start.line + 1)
      ∧ (ofSpan text category span).flatMap (offsets text)
        = List.range' (text.offset span.start)
          (text.offset span.stop + 1 - text.offset span.start) := by
  obtain ⟨-, hstart, hstop⟩ := checkSpan_eq_ok_iff.mp hspan
  have hcount : span.stop.line + 1 - span.start.line = span.stop.line - span.start.line + 1 := by
    have hle := Position.le_def.mp hordered
    omega
  refine ⟨?_, ?_, ?_, flatMap_offsets_ofSpan h.nil_not_mem_lines hordered hstart hstop⟩
  · rw [ofSpan, List.length_map, List.length_range', hcount]
  · intro highlight hmem
    obtain ⟨line, -, rfl⟩ := List.mem_map.mp hmem
    rfl
  · rw [ofSpan, List.map_map, hcount]
    exact List.map_id _

/-- A span over three lines, the first of which has lost its line feed. -/
theorem ofSpan_covers_once_cut :
    ∃ text, (ofString (.ofNat 0) "ab\ncd\nef").removeSpan ⟨.ofNat 0, ⟨0, 2⟩, ⟨0, 2⟩⟩ = .ok text
      ∧ ofSpan text .comment ⟨.ofNat 0, ⟨0, 1⟩, ⟨2, 0⟩⟩
        = [⟨.comment, 0, 1, 1⟩, ⟨.comment, 1, 0, 3⟩, ⟨.comment, 2, 0, 1⟩]
      ∧ (ofSpan text .comment ⟨.ofNat 0, ⟨0, 1⟩, ⟨2, 0⟩⟩).flatMap (offsets text) = [1, 2, 3, 4, 5] := by
  have hcut : (ofString (.ofNat 0) "ab\ncd\nef").removeSpan ⟨.ofNat 0, ⟨0, 2⟩, ⟨0, 2⟩⟩
      = .ok ⟨.ofNat 0, [['a', 'b'], ['c', 'd', '\n'], ['e', 'f']]⟩ := by decide
  have hordered : (⟨.ofNat 0, ⟨0, 1⟩, ⟨2, 0⟩⟩ : Span).Ordered := by decide
  obtain ⟨-, -, -, hcovers⟩ := ofSpan_covers_once (.removeSpan _ (.ofString _ _) hcut) hordered
    (by decide) .comment
  exact ⟨_, hcut, by decide, hcovers⟩

end Highlight

end JobMarkup
