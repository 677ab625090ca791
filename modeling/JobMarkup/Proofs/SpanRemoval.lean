import JobMarkup.Proofs.BufferEdits

/-!
# What a cut takes and what it leaves

A span that addresses a text is cut out of it: the characters from the offset of its start to that of
its end are taken, and all others stay, in their order. Of the lines only those that the span goes over
change. A span that does not address the text, and a line that it does not have, are refused. Then
nothing has changed, neither the lines nor what is counted from them.

This is proved of the buffer, whose edits change line after line in place.
-/

namespace JobMarkup

namespace SourceText

variable (text : SourceText)

/-- The span is one of the document, and characters of the text stand at its ends. -/
def HasSpan (span : Span) : Prop :=
  span.document = text.document ∧ text.HasPosition span.start ∧ text.HasPosition span.stop

/-- The text is another one after the characters of a span, which are given, have been cut out of it. -/
structure CutsOut (span : Span) (cut : List Char) (edited : SourceText) : Prop where
  /-- The span does not end in front of its start. -/
  ordered : text.offset span.start ≤ text.offset span.stop
  /-- The characters that are cut out are those of the span, and all others stay. -/
  chars : ∃ front behind, text.chars = front ++ cut ++ behind ∧ edited.chars = front ++ behind
    ∧ front.length = text.offset span.start
    ∧ cut.length = text.offset span.stop - text.offset span.start + 1
  /-- The lines of the span become one line at most. The lines in front and behind stay. -/
  lines : ∃ joined, joined.length ≤ 1
    ∧ edited.lines
      = text.lines.take span.start.line ++ joined ++ text.lines.drop (span.stop.line + 1)
  nil_not_mem_lines : [] ∉ edited.lines
  document : edited.document = text.document

variable {text} {span : Span}

/-- The characters up to a position are those of the lines in front and those in front on its line. -/
theorem take_offset {position : Position} {line : List Char}
    (hline : text.lines[position.line]? = some line) (hcolumn : position.column ≤ line.length) :
    text.chars.take (text.offset position)
      = (text.lines.take position.line).flatten ++ line.take position.column := by
  have hsplit := congrArg List.flatten (eq_take_append_cons_drop hline)
  rw [List.flatten_append, List.flatten_cons] at hsplit
  rw [chars, hsplit, offset, List.take_length_add_append, List.take_append_of_le_length hcolumn]

/-- The characters behind a position are those behind it on its line and those of the lines behind. -/
theorem drop_offset_succ {position : Position} {line : List Char}
    (hline : text.lines[position.line]? = some line) (hcolumn : position.column < line.length) :
    text.chars.drop (text.offset position + 1)
      = line.drop (position.column + 1) ++ (text.lines.drop (position.line + 1)).flatten := by
  have hsplit := congrArg List.flatten (eq_take_append_cons_drop hline)
  rw [List.flatten_append, List.flatten_cons] at hsplit
  rw [chars, hsplit, offset, Nat.add_assoc, List.drop_length_add_append,
    List.drop_append_of_le_length hcolumn]

/-- What is left of a line has all its characters, as a line or as none. -/
theorem flatten_nonemptyLine (cs : List Char) : (nonemptyLine cs).flatten = cs := by
  cases cs with
  | nil => rfl
  | cons c cs => simp [nonemptyLine]

/-- What is left of a line is one line at most. -/
theorem length_nonemptyLine_le (cs : List Char) : (nonemptyLine cs).length ≤ 1 := by
  cases cs <;> simp [nonemptyLine]

/-- A text falls into the characters in front of two offsets, between them and behind them. -/
theorem chars_eq_append (text : SourceText) {first last : Nat} (h : first ≤ last) :
    text.chars = text.chars.take first ++ text.slice first (last - first + 1)
      ++ text.chars.drop (last + 1) := by
  have hbehind : text.chars.drop (last + 1)
      = (text.chars.drop first).drop (last - first + 1) := by
    rw [List.drop_drop, ← Nat.add_assoc, Nat.add_sub_of_le h]
  rw [slice, hbehind, List.append_assoc, List.take_append_drop, List.take_append_drop]

/-- A span that addresses a text is cut out of it. -/
theorem exists_cutsOut (hlines : [] ∉ text.lines) (hspan : span.Ordered) (h : text.HasSpan span) :
    ∃ cut edited, text.extract span = .ok cut ∧ text.removeSpan span = .ok edited
      ∧ text.CutsOut span cut edited := by
  have hcheck := checkSpan_eq_ok_iff.mpr h
  obtain ⟨-, hstart, hstop⟩ := h
  obtain ⟨first, hfirst, hfront⟩ := hasPosition_iff.mp hstart
  obtain ⟨last, hlast, hcolumn⟩ := hasPosition_iff.mp hstop
  have hle := offset_le_offset hstart hstop hspan
  have hlt := offset_lt_length hstop
  let cut := text.slice (text.offset span.start)
    (text.offset span.stop - text.offset span.start + 1)
  let joined := nonemptyLine (first.take span.start.column ++ last.drop (span.stop.column + 1))
  let edited : SourceText := { text with
    lines := text.lines.take span.start.line ++ joined ++ text.lines.drop (span.stop.line + 1) }
  have hextract : text.extract span = .ok cut := by
    rw [extract, hcheck]
    rfl
  have hremove : text.removeSpan span = .ok edited := by
    rw [removeSpan, hcheck, hfirst, hlast]
    rfl
  have hchars : edited.chars = text.chars.take (text.offset span.start)
      ++ text.chars.drop (text.offset span.stop + 1) := by
    rw [take_offset hfirst (Nat.le_of_lt hfront), drop_offset_succ hlast hcolumn]
    simp [chars, edited, joined, flatten_nonemptyLine]
  refine ⟨cut, edited, hextract, hremove, hle,
    ⟨_, _, text.chars_eq_append hle, hchars, ?_, ?_⟩, ⟨joined, length_nonemptyLine_le _, rfl⟩,
    nil_not_mem_removeSpan hlines hremove, rfl⟩
  · exact List.length_take_of_le (Nat.le_of_lt (offset_lt_length hstart))
  · change text.offset span.stop < text.chars.length at hlt
    simp only [cut, slice, List.length_take, List.length_drop]
    omega

/-- A span that does not address a text is refused. -/
theorem exists_error_of_not_hasSpan (h : ¬ text.HasSpan span) :
    ∃ cause, text.extract span = .error cause ∧ text.removeSpan span = .error cause := by
  cases hcheck : text.checkSpan span with
  | ok checked => exact absurd (checkSpan_eq_ok_iff.mp hcheck) h
  | error cause =>
    refine ⟨cause, ?_, ?_⟩
    · rw [extract, hcheck]
      rfl
    · rw [removeSpan, hcheck]
      rfl

end SourceText

namespace Buffer

open Edit SourceText

/-- A buffer that has been loaded, and out of which any lines and spans have been cut since. -/
inductive Reachable : Buffer → Prop
  | ofString (document : DocumentId) (contents : String) :
      Reachable (ofText (.ofString document contents))
  | removeLine {buffer edited : Buffer} (line : Nat) : Reachable buffer →
      (removeLine line).run buffer = some (.ok (), edited) → Reachable edited
  | removeSpan {buffer edited : Buffer} (span : Span) : Reachable buffer → span.Ordered →
      (removeSpan span).run buffer = some (.ok (), edited) → Reachable edited

/-- An edit of a buffer that has succeeded has left the buffer of the edited text. -/
theorem exists_of_outcome {text : SourceText} {result : Except RangeError SourceText}
    {buffer : Buffer} (h : some (outcome text result) = some (.ok (), buffer)) :
    ∃ edited, result = .ok edited ∧ buffer = ofText edited := by
  cases result with
  | error cause => simp [outcome] at h
  | ok edited =>
    obtain rfl : ofText edited = buffer := by simpa [outcome] using h
    exact ⟨edited, rfl, rfl⟩

/-- Whatever is cut out of a buffer, it is the buffer of a text. -/
theorem Reachable.exists_text {buffer : Buffer} (h : Reachable buffer) :
    ∃ text, SourceText.Reachable text ∧ buffer = ofText text := by
  induction h with
  | ofString document contents => exact ⟨_, .ofString document contents, rfl⟩
  | removeLine line _ hrun ih =>
    obtain ⟨text, htext, rfl⟩ := ih
    rw [run_removeLine] at hrun
    obtain ⟨edited, hedit, rfl⟩ := exists_of_outcome hrun
    exact ⟨edited, .removeLine line htext hedit, rfl⟩
  | removeSpan span _ hspan hrun ih =>
    obtain ⟨text, htext, rfl⟩ := ih
    rw [run_removeSpan text hspan] at hrun
    obtain ⟨edited, hedit, rfl⟩ := exists_of_outcome hrun
    exact ⟨edited, .removeSpan span htext hedit, rfl⟩

/-- Cutting a span out of a loaded and edited buffer takes exactly what the span addresses, or changes
nothing. The span, whose end is not in front of its start, can be read and cut out exactly if it is one
of the document and characters stand at both its ends. Then it is read without effect, the edit leaves
the buffer of the text without the characters that have been read, and both do what the reading and the
cut of the text do. If the span is refused, and so if a line is that there is none of, the buffer is as
it was: its lines, their offsets and their lengths. -/
theorem cut_exact {buffer : Buffer} (h : Reachable buffer) {span : Span} (hspan : span.Ordered) :
    (∀ position, buffer.offset position = buffer.text.offset position)
      ∧ (buffer.text.HasSpan span → ∃ cut edited,
        (extract span).run buffer = some (.ok cut, buffer) ∧ buffer.text.extract span = .ok cut
        ∧ (removeSpan span).run buffer = some (.ok (), ofText edited)
        ∧ buffer.text.removeSpan span = .ok edited ∧ buffer.text.CutsOut span cut edited)
      ∧ (¬ buffer.text.HasSpan span → ∃ cause,
        (extract span).run buffer = some (.error cause, buffer)
        ∧ buffer.text.extract span = .error cause
        ∧ (removeSpan span).run buffer = some (.error cause, buffer)
        ∧ buffer.text.removeSpan span = .error cause)
      ∧ ∀ line, buffer.lines.length ≤ line →
        (removeLine line).run buffer
          = some (.error (.lineOutOfRange line buffer.lines.length), buffer) := by
  obtain ⟨text, htext, rfl⟩ := h.exists_text
  rw [text_ofText, run_extract text hspan, run_removeSpan text hspan]
  refine ⟨offset_ofText text, fun hends => ?_, fun hends => ?_, fun line hline => ?_⟩
  · obtain ⟨cut, edited, hextract, hremove, hcuts⟩ :=
      exists_cutsOut htext.nil_not_mem_lines hspan hends
    exact ⟨cut, edited, by rw [hextract], hextract, by rw [hremove, outcome], hremove, hcuts⟩
  · obtain ⟨cause, hextract, hremove⟩ := exists_error_of_not_hasSpan hends
    exact ⟨cause, by rw [hextract], hextract, by rw [hremove, outcome], hremove⟩
  · have hnone : ¬ line < text.lineCount := Nat.not_lt.mpr hline
    rw [run_removeLine, SourceText.removeLine, if_neg hnone]
    rfl

/-- A cut over three lines of a text in which an earlier cut has left a line without its line feed. -/
theorem cut_exact_of_unended_line :
    ∃ buffer, Reachable buffer
      ∧ buffer.lines = ["ab".toList, "cd\n".toList, "ef\n".toList, "gh".toList]
      ∧ buffer.text.HasSpan ⟨.ofNat 0, ⟨0, 1⟩, ⟨2, 0⟩⟩
      ∧ ∃ edited, (removeSpan ⟨.ofNat 0, ⟨0, 1⟩, ⟨2, 0⟩⟩).run buffer = some (.ok (), ofText edited)
        ∧ buffer.text.CutsOut ⟨.ofNat 0, ⟨0, 1⟩, ⟨2, 0⟩⟩ "bcd\ne".toList edited := by
  let loaded := ofText (.ofString (.ofNat 0) "ab\ncd\nef\ngh")
  let lines := ["ab".toList, "cd\n".toList, "ef\n".toList, "gh".toList]
  have hedit : (removeSpan ⟨.ofNat 0, ⟨0, 2⟩, ⟨0, 2⟩⟩).run loaded
      = some (.ok (), ofText ⟨.ofNat 0, lines⟩) := by rfl
  have hreachable := Reachable.removeSpan _ (.ofString _ _) (by decide) hedit
  have hends : SourceText.HasSpan ⟨.ofNat 0, lines⟩ ⟨.ofNat 0, ⟨0, 1⟩, ⟨2, 0⟩⟩ :=
    checkSpan_eq_ok_iff.mp rfl
  obtain ⟨cut, edited, -, hcut, hremove, -, hcuts⟩ :=
    (@cut_exact _ hreachable ⟨.ofNat 0, ⟨0, 1⟩, ⟨2, 0⟩⟩ (by decide)).2.1 hends
  have hread : SourceText.extract ⟨.ofNat 0, lines⟩ ⟨.ofNat 0, ⟨0, 1⟩, ⟨2, 0⟩⟩
      = .ok "bcd\ne".toList := by rfl
  obtain rfl := Except.ok.inj (hread.symm.trans hcut)
  exact ⟨_, hreachable, rfl, hends, edited, hremove, hcuts⟩

end Buffer

end JobMarkup
