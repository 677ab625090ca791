import JobMarkup.Proofs.Positions
import JobMarkup.SourceText.Edit

/-!
# Texts after edits

A text that has been loaded holds no empty line, and cutting lines and spans out of it leaves none.
Other facts about the lines of a loaded text are lost by cutting: a line may then lack its line
feed, and tokens may go over several lines.
-/

namespace JobMarkup.SourceText

/-- A text that has been loaded, and out of which any lines and spans have been cut since. -/
inductive Reachable : SourceText → Prop
  | ofString (document : DocumentId) (contents : String) : Reachable (ofString document contents)
  | removeLine {text edited : SourceText} (line : Nat) : Reachable text →
      text.removeLine line = .ok edited → Reachable edited
  | removeSpan {text edited : SourceText} (span : Span) : Reachable text →
      text.removeSpan span = .ok edited → Reachable edited

/-- Cutting after line feeds gives no empty line. -/
theorem nil_not_mem_splitLines (cs : List Char) : [] ∉ splitLines cs := by
  fun_induction splitLines cs with
  | case1 => simp
  | case2 rest ih => simpa using ih
  | case3 c rest _ h ih => simp
  | case4 c rest _ line lines h ih =>
    rw [h] at ih
    simpa using fun hmem => ih (List.mem_cons_of_mem _ hmem)

/-- What is left of a line is kept as a line only if there is anything left. -/
theorem nil_not_mem_nonemptyLine (cs : List Char) : [] ∉ nonemptyLine cs := by
  rw [nonemptyLine]
  split
  · simp
  · next h => simpa using fun hnil : cs = [] => h (List.isEmpty_iff.mpr hnil)

/-- Taking out a line makes no other line empty. -/
theorem nil_not_mem_removeLine {text edited : SourceText} {line : Nat} (h : [] ∉ text.lines)
    (hedit : text.removeLine line = .ok edited) : [] ∉ edited.lines := by
  rw [removeLine] at hedit
  split at hedit
  · obtain rfl := Except.ok.inj hedit
    exact fun hmem => h (List.mem_of_mem_eraseIdx hmem)
  · simp at hedit

/-- Cutting out a span leaves no empty line behind. -/
theorem nil_not_mem_removeSpan {text edited : SourceText} {span : Span} (h : [] ∉ text.lines)
    (hedit : text.removeSpan span = .ok edited) : [] ∉ edited.lines := by
  rw [removeSpan] at hedit
  cases hcheck : text.checkSpan span with
  | error cause => simp [hcheck, bind, Except.bind] at hedit
  | ok checked =>
    simp only [hcheck, bind, Except.bind, pure, Except.pure, Except.ok.injEq] at hedit
    subst hedit
    simp only [List.mem_append, not_or]
    exact ⟨⟨fun hmem => h (List.mem_of_mem_take hmem), nil_not_mem_nonemptyLine _⟩,
      fun hmem => h (List.mem_of_mem_drop hmem)⟩

/-- The ends of a span that has been cut out lay on lines, of which the front of the first and the
end of the last one are left. -/
theorem exists_lines_of_removeSpan {text edited : SourceText} {span : Span}
    (hedit : text.removeSpan span = .ok edited) :
    ∃ first last, text.lines[span.start.line]? = some first ∧ span.start.column < first.length
      ∧ text.lines[span.stop.line]? = some last ∧ span.stop.column < last.length
      ∧ edited = { text with
        lines := text.lines.take span.start.line
          ++ nonemptyLine (first.take span.start.column ++ last.drop (span.stop.column + 1))
          ++ text.lines.drop (span.stop.line + 1) } := by
  rw [removeSpan, checkSpan] at hedit
  split at hedit
  · simp [bind, Except.bind] at hedit
  · split at hedit
    · next hchars =>
      rw [Bool.and_eq_true] at hchars
      obtain ⟨first, hfirst, hfront⟩ := isSome_charAtPosition_iff.mp hchars.1
      obtain ⟨last, hlast, hcolumn⟩ := isSome_charAtPosition_iff.mp hchars.2
      refine ⟨first, last, hfirst, hfront, hlast, hcolumn, ?_⟩
      simpa [bind, Except.bind, pure, Except.pure, hfirst, hlast, eq_comm] using hedit
    · simp [bind, Except.bind] at hedit

/-- No line of a text is empty, whatever has been cut out of it. -/
theorem Reachable.nil_not_mem_lines {text : SourceText} (h : Reachable text) : [] ∉ text.lines := by
  induction h with
  | ofString document contents => exact nil_not_mem_splitLines _
  | removeLine line _ hedit ih => exact nil_not_mem_removeLine ih hedit
  | removeSpan span _ hedit ih => exact nil_not_mem_removeSpan ih hedit

end JobMarkup.SourceText
