import JobMarkup.Proofs.Edits
import Mathlib.Data.List.Infix
import Mathlib.Data.List.TakeDrop

/-!
# The lines of edited texts

Loading a text cuts it after its line feeds: no line is empty, a line feed is the last character of
its line, and all lines but the last one have theirs. Texts whose lines are so are those that loading
their contents once more gives back, so all that is computed from them is what a fresh load gives.

Cutting keeps the first two of these, and cutting whole lines keeps all. Cutting a span loses the
third exactly if it takes the line feed of a line and leaves the front of a line, which then stands
before the next line without a line feed between them.
-/

namespace JobMarkup.SourceText

/-- A line has characters, and no line feed among them but the last. -/
def IsLine (line : List Char) : Prop := line ≠ [] ∧ '\n' ∉ line.dropLast

/-- The line has its line feed. -/
def IsEnded (line : List Char) : Prop := line.getLast? = some '\n'

/-- Lines as loading gives them: all but the last have their line feed. -/
structure AreCanonical (lines : List (List Char)) : Prop where
  isLine : ∀ line ∈ lines, IsLine line
  isEnded : ∀ line ∈ lines.dropLast, IsEnded line

/-- The text has the lines that loading gives. -/
def IsCanonical (text : SourceText) : Prop := AreCanonical text.lines

/-- The span takes the line feed of a line that another line follows, and leaves the front of the
line where it begins. -/
def CutsLineEnd (text : SourceText) (span : Span) : Prop :=
  text.charAtPosition span.stop = some '\n' ∧ span.stop.line + 1 < text.lineCount
    ∧ 0 < span.start.column

/-- A text that has been loaded, and out of which any lines have been cut since, and any spans that
cut no line end off. -/
inductive KeepsLineEnds : SourceText → Prop
  | ofString (document : DocumentId) (contents : String) :
      KeepsLineEnds (ofString document contents)
  | removeLine {text edited : SourceText} (line : Nat) : KeepsLineEnds text →
      text.removeLine line = .ok edited → KeepsLineEnds edited
  | removeSpan {text edited : SourceText} (span : Span) : KeepsLineEnds text →
      ¬ text.CutsLineEnd span → text.removeSpan span = .ok edited → KeepsLineEnds edited

/-! ## Canonical lines -/

/-- A line with its line feed is the line without its last character and a line feed. -/
theorem IsEnded.eq_append {line : List Char} (h : IsEnded line) : line.dropLast ++ ['\n'] = line := by
  obtain ⟨front, rfl⟩ := List.getLast?_eq_some_iff.mp h
  rw [List.dropLast_concat]

/-- A line without a line feed at its end has none. -/
theorem IsLine.newline_not_mem {line : List Char} (h : IsLine line) (hended : ¬ IsEnded line) :
    '\n' ∉ line := by
  obtain ⟨front, last, rfl⟩ := (List.eq_nil_or_concat line).resolve_left h.1
  have hfront := h.2
  rw [List.concat_eq_append, List.dropLast_concat] at hfront
  have hlast : last ≠ '\n' := by simpa [IsEnded] using hended
  simp [hfront, hlast.symm]

/-- A text without lines is canonical. -/
theorem areCanonical_nil : AreCanonical [] := ⟨by simp, by simp⟩

/-- Lines in two parts are canonical exactly if both parts are and, with further lines behind it,
each line of the first part has its line feed. -/
theorem areCanonical_append {a b : List (List Char)} :
    AreCanonical (a ++ b)
      ↔ AreCanonical a ∧ AreCanonical b ∧ (b ≠ [] → ∀ line ∈ a, IsEnded line) := by
  rcases eq_or_ne b [] with rfl | hne
  · simp [areCanonical_nil]
  constructor
  · rintro ⟨hline, hended⟩
    rw [List.dropLast_append_of_ne_nil hne] at hended
    exact ⟨⟨fun line hmem => hline line (List.mem_append_left _ hmem), fun line hmem =>
        hended line (List.mem_append_left _ (List.mem_of_mem_dropLast hmem))⟩,
      ⟨fun line hmem => hline line (List.mem_append_right _ hmem), fun line hmem =>
        hended line (List.mem_append_right _ hmem)⟩,
      fun _ line hmem => hended line (List.mem_append_left _ hmem)⟩
  · rintro ⟨ha, hb, hended⟩
    refine ⟨fun line hmem => ?_, fun line hmem => ?_⟩
    · exact (List.mem_append.mp hmem).elim (ha.isLine line) (hb.isLine line)
    · rw [List.dropLast_append_of_ne_nil hne] at hmem
      exact (List.mem_append.mp hmem).elim (hended hne line) (hb.isEnded line)

/-- A single line is canonical with its line feed or without it. -/
theorem areCanonical_singleton {line : List Char} : AreCanonical [line] ↔ IsLine line :=
  ⟨fun h => h.isLine line (List.mem_singleton_self line),
    fun h => ⟨List.forall_mem_singleton.mpr h, by simp⟩⟩

/-- Lines are canonical exactly if the first one is a line, the others are canonical, and the first
one has its line feed if there are others. -/
theorem areCanonical_cons {line : List Char} {rest : List (List Char)} :
    AreCanonical (line :: rest)
      ↔ IsLine line ∧ AreCanonical rest ∧ (rest ≠ [] → IsEnded line) := by
  rw [← List.singleton_append, areCanonical_append, areCanonical_singleton,
    List.forall_mem_singleton]

/-- A character that is no line feed belongs to the first line of those behind it, or to one of
its own. -/
theorem splitLines_cons {c : Char} (h : c ≠ '\n') (rest : List Char) :
    splitLines (c :: rest) = match splitLines rest with
      | [] => [[c]]
      | line :: lines => (c :: line) :: lines :=
  splitLines.eq_3 c rest h

/-- A line feed ends the first line. -/
theorem splitLines_append_newline {front : List Char} (h : '\n' ∉ front) (rest : List Char) :
    splitLines (front ++ '\n' :: rest) = (front ++ ['\n']) :: splitLines rest := by
  induction front with
  | nil => rfl
  | cons c front ih =>
    rw [List.mem_cons, not_or] at h
    rw [List.cons_append, splitLines_cons (Ne.symm h.1), ih h.2]
    rfl

/-- Without a line feed there is one line. -/
theorem splitLines_of_newline_not_mem {cs : List Char} (hne : cs ≠ []) (h : '\n' ∉ cs) :
    splitLines cs = [cs] := by
  induction cs with
  | nil => exact absurd rfl hne
  | cons c rest ih =>
    rw [List.mem_cons, not_or] at h
    rw [splitLines_cons (Ne.symm h.1)]
    rcases eq_or_ne rest [] with rfl | hrest
    · rfl
    · rw [ih hrest h.2]

/-- Cutting behind line feeds gives canonical lines, so loaded texts are canonical. -/
theorem areCanonical_splitLines (cs : List Char) : AreCanonical (splitLines cs) := by
  fun_induction splitLines cs with
  | case1 => exact areCanonical_nil
  | case2 rest ih => exact areCanonical_cons.mpr ⟨⟨by simp, by simp⟩, ih, fun _ => rfl⟩
  | case3 c rest hc hnil ih => exact areCanonical_singleton.mpr ⟨by simp, by simp⟩
  | case4 c rest hc line lines hlines ih =>
    rw [hlines, areCanonical_cons] at ih
    obtain ⟨⟨hne, hnewline⟩, hrest, hended⟩ := ih
    obtain ⟨d, others, rfl⟩ := List.exists_cons_of_ne_nil hne
    refine areCanonical_cons.mpr ⟨⟨by simp, ?_⟩, hrest, hended⟩
    rw [List.dropLast_cons_cons, List.mem_cons, not_or]
    exact ⟨fun heq => hc heq.symm, hnewline⟩

/-- Canonical lines are those into which their characters are cut. -/
theorem splitLines_flatten {lines : List (List Char)} (h : AreCanonical lines) :
    splitLines lines.flatten = lines := by
  induction lines with
  | nil => rfl
  | cons line rest ih =>
    obtain ⟨hline, hrest, hended⟩ := areCanonical_cons.mp h
    by_cases hline' : IsEnded line
    · rw [List.flatten_cons, ← hline'.eq_append, List.append_assoc, List.singleton_append,
        splitLines_append_newline hline.2, ih hrest]
    · obtain rfl : rest = [] := by
        by_contra hne
        exact hline' (hended hne)
      simpa using splitLines_of_newline_not_mem hline.1 (hline.newline_not_mem hline')

/-! ## Cuts -/

/-- Whole lines can be cut out of canonical lines. -/
theorem AreCanonical.eraseIdx {lines : List (List Char)} (h : AreCanonical lines) (index : Nat) :
    AreCanonical (lines.eraseIdx index) := by
  induction lines generalizing index with
  | nil => exact h
  | cons line rest ih =>
    obtain ⟨hline, hrest, hended⟩ := areCanonical_cons.mp h
    cases index with
    | zero => exact hrest
    | succ index =>
      refine areCanonical_cons.mpr ⟨hline, ih hrest index, fun hne => hended ?_⟩
      rintro rfl
      exact hne rfl

/-- Taking out a whole line leaves a canonical text. -/
theorem IsCanonical.removeLine {text edited : SourceText} {line : Nat} (h : text.IsCanonical)
    (hedit : text.removeLine line = .ok edited) : edited.IsCanonical := by
  rw [SourceText.removeLine] at hedit
  split at hedit
  · obtain rfl := Except.ok.inj hedit
    exact AreCanonical.eraseIdx h line
  · simp at hedit

/-- The front of a line up to one of its characters has no line feed. -/
theorem IsLine.newline_not_mem_take {line : List Char} (h : IsLine line) {count : Nat}
    (hcount : count < line.length) : '\n' ∉ line.take count := by
  have hle : count ≤ line.length - 1 := by omega
  have htake : line.take count = line.dropLast.take count := by
    rw [List.dropLast_eq_take, List.take_take, Nat.min_eq_left hle]
  rw [htake]
  exact fun hmem => h.2 (List.mem_of_mem_take hmem)

/-- The front of one line and the end of another are a line, if there is anything left of them. -/
theorem IsLine.append {first last : List Char} (hfirst : IsLine first) (hlast : IsLine last)
    {front count : Nat} (hfront : front < first.length)
    (hne : first.take front ++ last.drop count ≠ []) :
    IsLine (first.take front ++ last.drop count) := by
  refine ⟨hne, ?_⟩
  have hhead := hfirst.newline_not_mem_take hfront
  rcases eq_or_ne (last.drop count) [] with htail | htail
  · rw [htail, List.append_nil]
    exact fun hmem => hhead (List.mem_of_mem_dropLast hmem)
  · rw [List.dropLast_append_of_ne_nil htail, List.mem_append, not_or,
      List.dropLast_drop_eq_drop_dropLast]
    exact ⟨hhead, fun hmem => hlast.2 (List.mem_of_mem_drop hmem)⟩

/-- What is left of two lines has a line feed exactly if the cut ends in front of the line feed of
the second one. -/
theorem isEnded_append_iff {first last : List Char} (hfirst : IsLine first) (hended : IsEnded last)
    {front column : Nat} (hfront : front < first.length) :
    IsEnded (first.take front ++ last.drop (column + 1)) ↔ last.drop (column + 1) ≠ [] := by
  constructor
  · intro h htail
    rw [htail, List.append_nil] at h
    exact hfirst.newline_not_mem_take hfront (List.mem_of_getLast? h)
  · intro htail
    rw [IsEnded, List.getLast?_append_of_ne_nil _ htail, List.getLast?_drop]
    rwa [if_neg]
    rintro hle
    exact htail (List.drop_eq_nil_of_le hle)

/-- Nothing is left behind a character of a line with a line feed exactly if it is the line feed. -/
theorem drop_eq_nil_iff {cs : List Char} (h : IsLine cs) (hended : IsEnded cs) {column : Nat}
    (hcolumn : column < cs.length) : cs.drop (column + 1) = [] ↔ cs[column]? = some '\n' := by
  rw [List.drop_eq_nil_iff]
  constructor
  · intro hle
    have hlast : column = cs.length - 1 := by omega
    rw [hlast, ← List.getLast?_eq_getElem?]
    exact hended
  · intro hchar
    by_contra hlt
    refine h.2 (List.mem_of_getElem? (i := column) ?_)
    rw [List.getElem?_dropLast, if_pos (by omega), hchar]

/-- Lines in front of others have their line feeds. -/
theorem AreCanonical.isEnded_of_mem_take {lines : List (List Char)} (h : AreCanonical lines)
    {count : Nat} (hcount : count < lines.length) : ∀ line ∈ lines.take count, IsEnded line := by
  rw [← List.take_append_drop count lines, areCanonical_append] at h
  exact h.2.2 (mt List.drop_eq_nil_iff.mp (Nat.not_le.mpr hcount))

/-- The lines behind the first ones are canonical. -/
theorem AreCanonical.drop {lines : List (List Char)} (h : AreCanonical lines) (count : Nat) :
    AreCanonical (lines.drop count) := by
  rw [← List.take_append_drop count lines, areCanonical_append] at h
  exact h.2.1

/-- A line in place of some lines leaves canonical lines exactly if it has its line feed or none
follow it. -/
theorem AreCanonical.replace_iff {lines : List (List Char)} (h : AreCanonical lines)
    {first behind : Nat} (hfirst : first < lines.length) {line : List Char}
    (hline : line ≠ [] → IsLine line) :
    AreCanonical (lines.take first ++ nonemptyLine line ++ lines.drop behind)
      ↔ (behind < lines.length → line ≠ [] → IsEnded line) := by
  have hfront : AreCanonical (lines.take first) := by
    rw [← List.take_append_drop first lines, areCanonical_append] at h
    exact h.1
  have hends := eq_true (h.isEnded_of_mem_take hfirst)
  have hbehind : lines.drop behind ≠ [] ↔ behind < lines.length := by
    rw [Ne, List.drop_eq_nil_iff, Nat.not_le]
  rw [List.append_assoc, areCanonical_append, areCanonical_append, hbehind]
  rcases eq_or_ne line [] with rfl | hne
  · simp [nonemptyLine, areCanonical_nil, hfront, h.drop behind, hends]
  · have hcanonical : AreCanonical [line] := areCanonical_singleton.mpr (hline hne)
    simp [nonemptyLine, hfront, h.drop behind, hends, hcanonical, hne]

/-- Cutting a span out of canonical lines gives canonical lines unless it cuts a line end off. -/
theorem IsCanonical.removeSpan_iff {text edited : SourceText} {span : Span} (h : text.IsCanonical)
    (hedit : text.removeSpan span = .ok edited) :
    edited.IsCanonical ↔ ¬ text.CutsLineEnd span := by
  obtain ⟨first, last, hfirst, hfront, hlast, hcolumn, rfl⟩ := exists_lines_of_removeSpan hedit
  have hfirstLine := h.isLine first (List.mem_of_getElem? hfirst)
  have hlastLine := h.isLine last (List.mem_of_getElem? hlast)
  obtain ⟨hfirstLt, -⟩ := List.getElem?_eq_some_iff.mp hfirst
  have hchar : text.charAtPosition span.stop = last[span.stop.column]? := by
    simp [charAtPosition, hlast]
  rw [IsCanonical, h.replace_iff hfirstLt (hfirstLine.append hlastLine hfront), CutsLineEnd, hchar,
    lineCount]
  by_cases hbehind : span.stop.line + 1 < text.lines.length
  · have hended : IsEnded last := by
      refine h.isEnded_of_mem_take hbehind last (List.mem_of_getElem? (i := span.stop.line) ?_)
      rw [List.getElem?_take_of_lt (Nat.lt_succ_self _), hlast]
    have hhead : first.take span.start.column = [] ↔ span.start.column = 0 := by
      rw [List.take_eq_nil_iff]
      exact or_iff_left hfirstLine.1
    have htail := drop_eq_nil_iff hlastLine hended hcolumn
    rw [isEnded_append_iff hfirstLine hended hfront, ← htail, Ne, Ne, List.append_eq_nil_iff, hhead]
    have hpos := Nat.pos_iff_ne_zero (n := span.start.column)
    tauto
  · simp [hbehind]

/-! ## Histories of cuts -/

/-- What holds of every line of a loaded text, and of what a cut leaves of two lines if it holds of
these, holds of every line of a text that can be reached. -/
theorem Reachable.forall_lines {p : List Char → Prop}
    (hload : ∀ cs, ∀ line ∈ splitLines (normalizeLineEnds cs), p line)
    (hcut : ∀ {first last front} count, p first → p last → front < first.length →
      first.take front ++ last.drop count ≠ [] → p (first.take front ++ last.drop count))
    {text : SourceText} (h : Reachable text) : ∀ line ∈ text.lines, p line := by
  induction h with
  | ofString document contents => exact hload contents.toList
  | removeLine index _ hedit ih =>
    rw [SourceText.removeLine] at hedit
    split at hedit
    · obtain rfl := Except.ok.inj hedit
      exact fun line hmem => ih line (List.mem_of_mem_eraseIdx hmem)
    · simp at hedit
  | removeSpan span _ hedit ih =>
    obtain ⟨first, last, hfirst, hfront, hlast, -, rfl⟩ := exists_lines_of_removeSpan hedit
    have hjoined := hcut (span.stop.column + 1) (ih first (List.mem_of_getElem? hfirst))
      (ih last (List.mem_of_getElem? hlast)) hfront
    simp only [List.forall_mem_append]
    refine ⟨⟨fun line hmem => ih line (List.mem_of_mem_take hmem), fun line hmem => ?_⟩,
      fun line hmem => ih line (List.mem_of_mem_drop hmem)⟩
    rw [nonemptyLine] at hmem
    split at hmem
    · simp at hmem
    · next hne =>
      obtain rfl := List.mem_singleton.mp hmem
      exact hjoined (mt List.isEmpty_iff.mpr hne)

/-- Whatever is cut out of a text, its lines have characters, and line feeds only at their ends. -/
theorem Reachable.isLine {text : SourceText} (h : Reachable text) :
    ∀ line ∈ text.lines, IsLine line :=
  h.forall_lines (fun _ => (areCanonical_splitLines _).isLine)
    fun _ hfirst hlast hfront hne => hfirst.append hlast hfront hne

/-- No carriage return is left in a text. -/
theorem Reachable.return_not_mem {text : SourceText} (h : Reachable text) : '\r' ∉ text.chars := by
  rw [chars, List.mem_flatten]
  rintro ⟨line, hline, hreturn⟩
  refine h.forall_lines (p := ('\r' ∉ ·)) (fun cs line hline hmem => ?_) ?_ line hline hreturn
  · refine return_not_mem_normalizeLineEnds cs ?_
    rw [← flatten_splitLines (normalizeLineEnds cs)]
    exact List.mem_flatten_of_mem hline hmem
  · intro first last front count hfirst hlast _ _ hmem
    exact (List.mem_append.mp hmem).elim (fun hmem => hfirst (List.mem_of_mem_take hmem))
      fun hmem => hlast (List.mem_of_mem_drop hmem)

/-- A text that can be reached has the lines that loading gives exactly if loading its contents gives
it back. -/
theorem isCanonical_iff_ofString_eq {text : SourceText} (h : Reachable text) :
    text.IsCanonical ↔ ofString text.document text.contents = text := by
  have hload : ofString text.document text.contents
      = ⟨text.document, splitLines text.chars⟩ := by
    rw [ofString, contents, String.toList_ofList, normalizeLineEnds_eq_self h.return_not_mem]
  rw [hload]
  constructor
  · intro hcanonical
    rw [chars, splitLines_flatten hcanonical]
  · intro heq
    rw [← heq]
    exact areCanonical_splitLines text.chars

/-- Cuts that cut no line end off keep the lines as loading gives them. -/
theorem KeepsLineEnds.isCanonical {text : SourceText} (h : KeepsLineEnds text) :
    text.IsCanonical := by
  induction h with
  | ofString document contents => exact areCanonical_splitLines _
  | removeLine line _ hedit ih => exact ih.removeLine hedit
  | removeSpan span _ hkeeps hedit ih => exact (ih.removeSpan_iff hedit).mpr hkeeps

/-- What is true of the lines of a text, whatever has been cut out of it: none is empty, and a line
feed is only ever the last character of one. Its lines are those that loading gives, each but the
last with its line feed, exactly if loading its contents gives the text back, and so all that is
computed from them. That is so as long as no cut has cut a line end off; and such a cut always puts
an end to it. -/
theorem edited_lines {text : SourceText} (h : Reachable text) :
    (∀ line ∈ text.lines, line ≠ [] ∧ '\n' ∉ line.dropLast)
      ∧ (text.IsCanonical ↔ ofString text.document text.contents = text)
      ∧ (text.KeepsLineEnds → ofString text.document text.contents = text)
      ∧ (text.IsCanonical → ∀ line edited, text.removeLine line = .ok edited → edited.IsCanonical)
      ∧ (text.IsCanonical → ∀ span edited, text.removeSpan span = .ok edited →
        (edited.IsCanonical ↔ ¬ text.CutsLineEnd span)) :=
  ⟨h.isLine, isCanonical_iff_ofString_eq h,
    fun hkeeps => (isCanonical_iff_ofString_eq h).mp hkeeps.isCanonical,
    fun hcanonical _ _ hedit => hcanonical.removeLine hedit,
    fun hcanonical _ _ hedit => hcanonical.removeSpan_iff hedit⟩

/-- A cut from the middle of one line to the middle of the next. -/
theorem edited_lines_joined :
    let text := ofString (.ofNat 0) "ab\ncd\ne"
    ∃ edited, text.removeSpan ⟨.ofNat 0, ⟨0, 1⟩, ⟨1, 0⟩⟩ = .ok edited
      ∧ edited.lines = [['a', 'd', '\n'], ['e']] ∧ Reachable edited
      ∧ ofString edited.document edited.contents = edited := by
  intro text
  have hedit : text.removeSpan ⟨.ofNat 0, ⟨0, 1⟩, ⟨1, 0⟩⟩
      = .ok ⟨.ofNat 0, [['a', 'd', '\n'], ['e']]⟩ := by decide
  have hkeeps : ¬ text.CutsLineEnd ⟨.ofNat 0, ⟨0, 1⟩, ⟨1, 0⟩⟩ := by
    rintro ⟨hchar, -, -⟩
    exact absurd hchar (by decide)
  have hreachable := Reachable.removeSpan _ (.ofString _ _) hedit
  exact ⟨_, hedit, rfl, hreachable,
    (edited_lines hreachable).2.2.1 (.removeSpan _ (.ofString _ _) hkeeps hedit)⟩

/-- Not every text that can be reached has the lines that loading gives: the line feed of the first
of two lines can be cut off. -/
theorem not_forall_isCanonical : ¬ ∀ text : SourceText, Reachable text → text.IsCanonical := by
  intro h
  have hedit : (ofString (.ofNat 0) "a\nb").removeSpan ⟨.ofNat 0, ⟨0, 1⟩, ⟨0, 1⟩⟩
      = .ok ⟨.ofNat 0, [['a'], ['b']]⟩ := by decide
  have hcanonical := h _ (.removeSpan _ (.ofString _ _) hedit)
  have hended : IsEnded ['a'] := hcanonical.isEnded ['a'] (by simp)
  simp [IsEnded] at hended

end JobMarkup.SourceText
