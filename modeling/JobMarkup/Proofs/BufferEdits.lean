import JobMarkup.Proofs.Edits
import JobMarkup.Proofs.PositionMaps
import JobMarkup.SourceText.Buffer

/-!
# Edits of a buffer and edits of its text

What a buffer keeps besides its lines is what is counted from them, before and after every edit. So
positions, offsets and characters are found in its tables as they are on the lines themselves, and an
edit of a buffer in place does what the edit of the same name does to the text: it leaves the buffer of
the edited text, or it is refused for the same reason and leaves the buffer as it was. It never asks
for a line that there is none of, and for a span whose ends are in order it never takes a number from a
lesser one.
-/

namespace JobMarkup.Buffer

/-! ## What is counted from the lines -/

/-- A buffer has the lines of its text, on which its edits are run. -/
@[simp] theorem lines_ofText (text : SourceText) : (ofText text).lines = text.lines := rfl

/-- The table of line lengths has the length of each line in its place, and nothing behind them. -/
theorem getElem?_lineLengths_ofText (text : SourceText) (index : Nat) :
    (ofText text).lineLengths[index]? = (text.lines[index]?).map List.length := by
  simp [ofText, refresh]

/-- A line starts where those in front of it end. -/
theorem getElem?_startsFrom (start : Nat) (lines : List (List Char)) {index : Nat}
    (h : index < lines.length) :
    (startsFrom start lines)[index]? = some (start + (lines.take index).flatten.length) := by
  induction lines generalizing start index with
  | nil => simp at h
  | cons line rest ih =>
    cases index with
    | zero => simp [startsFrom]
    | succ index =>
      have hrest := ih (start + line.length) (Nat.lt_of_succ_lt_succ h)
      simpa [startsFrom, Nat.add_assoc] using hrest

/-- Every line has one start in the table. -/
theorem length_startsFrom (start : Nat) (lines : List (List Char)) :
    (startsFrom start lines).length = lines.length := by
  induction lines generalizing start with
  | nil => rfl
  | cons line rest ih => simp [startsFrom, ih]

/-- No line starts in front of the first one. -/
theorem le_of_mem_startsFrom {start other : Nat} {lines : List (List Char)}
    (h : other ∈ startsFrom start lines) : start ≤ other := by
  induction lines generalizing start with
  | nil => simp [startsFrom] at h
  | cons line rest ih =>
    rcases List.mem_cons.mp h with rfl | hmem
    · exact Nat.le_refl _
    · exact Nat.le_trans (Nat.le_add_right _ _) (ih hmem)

/-- The starts up to an offset stand in front of all others, so they are found by looking for the place
between both. -/
theorem takeWhile_startsFrom (start offset : Nat) (lines : List (List Char)) :
    (startsFrom start lines).takeWhile (· ≤ offset)
      = (startsFrom start lines).filter (· ≤ offset) := by
  induction lines generalizing start with
  | nil => rfl
  | cons line rest ih =>
    rw [startsFrom, List.takeWhile_cons, List.filter_cons, ih]
    by_cases h : start ≤ offset
    · simp [h]
    · have hothers : (startsFrom (start + line.length) rest).filter (· ≤ offset) = [] := by
        refine List.filter_eq_nil_iff.mpr fun other hmem => ?_
        have hle := le_of_mem_startsFrom hmem
        simp only [decide_eq_true_eq]
        omega
      simp [h, hothers]

/-- An offset by the table of line starts is the number of characters in front of the position. -/
theorem offset_ofText (text : SourceText) (position : Position) :
    (ofText text).offset position = text.offset position := by
  change ((startsFrom 0 text.lines)[position.line]?).getD text.chars.length + position.column
    = (text.lines.take position.line).flatten.length + position.column
  by_cases h : position.line < text.lines.length
  · rw [getElem?_startsFrom 0 text.lines h, Option.getD_some, Nat.zero_add]
  · have hle := Nat.le_of_not_lt h
    rw [List.getElem?_eq_none (by rwa [length_startsFrom]), List.take_of_length_le hle]
    rfl

/-- The lines that start up to an offset are the one on which it is located and those in front of it. -/
theorem length_takeWhile_startsFrom (line : List Char) (rest : List (List Char)) {start offset : Nat}
    (h : start ≤ offset) :
    ((startsFrom start (line :: rest)).takeWhile (· ≤ offset)).length
      = (SourceText.locateIn (line :: rest) (offset - start)).line + 1 := by
  induction rest generalizing line start with
  | nil => simp [startsFrom, SourceText.locateIn, h]
  | cons next rest ih =>
    rw [startsFrom, List.takeWhile_cons, if_pos (decide_eq_true h), List.length_cons]
    by_cases hline : offset - start < line.length
    · have hnext : ¬ start + line.length ≤ offset := by omega
      rw [startsFrom, List.takeWhile_cons, if_neg (by simpa using hnext)]
      simp [SourceText.locateIn, hline]
    · have hnext : start + line.length ≤ offset := by omega
      rw [ih next hnext, SourceText.locateIn_cons_cons_of_le (Nat.le_of_not_lt hline), Nat.sub_sub]

/-- The table of line starts gives the position of every offset, and it never takes a number from a
lesser one. -/
theorem locate_ofText (text : SourceText) (offset : Nat) :
    (ofText text).locate offset = some (text.locate offset) := by
  have hstarts : (ofText text).lineStarts = startsFrom 0 text.lines := rfl
  rw [locate, hstarts, SourceText.locate]
  cases hlines : text.lines with
  | nil => simp [startsFrom, SourceText.locateIn]
  | cons line rest =>
    have hcount : ((startsFrom 0 (line :: rest)).takeWhile (· ≤ offset)).length
        = (SourceText.locateIn (line :: rest) offset).line + 1 :=
      length_takeWhile_startsFrom line rest (Nat.zero_le offset)
    have hfront : (startsFrom 0 (line :: rest)).takeWhile (· ≤ offset) <+: startsFrom 0 (line :: rest) :=
      List.takeWhile_prefix _
    have hlt := hfront.length_le
    rw [hcount, length_startsFrom] at hlt
    have hsum := SourceText.length_take_locateIn (line :: rest) offset
    rw [hcount, Nat.add_sub_cancel, getElem?_startsFrom 0 _ hlt, Option.getD_some, Nat.zero_add,
      if_pos (by omega), ← Nat.eq_sub_of_add_eq' hsum]

/-- The characters that have been counted are those of the lines. -/
theorem charAt_ofText (text : SourceText) (offset : Nat) :
    (ofText text).charAt offset = text.charAt offset :=
  rfl

/-- A position is looked up by the start and the length of its line as it is on the line itself. -/
theorem charAtPosition_ofText (text : SourceText) (position : Position) :
    (ofText text).charAtPosition position = text.charAtPosition position := by
  rw [charAtPosition, getElem?_lineLengths_ofText, offset_ofText, charAt_ofText]
  cases hline : text.lines[position.line]? with
  | none => simp [SourceText.charAtPosition, hline]
  | some line =>
    by_cases hcolumn : position.column < line.length
    · rw [Option.map_some]
      simp only [if_pos hcolumn]
      exact SourceText.charAt_offset (SourceText.hasPosition_iff.mpr ⟨line, hline, hcolumn⟩)
    · simp [SourceText.charAtPosition, hline, hcolumn]

/-- A slice between two clamped offsets is the stretch of the characters of the text. -/
theorem slice_ofText (text : SourceText) (offset count : Nat) :
    (ofText text).slice offset count = text.slice offset count := by
  change (text.chars.take (min (offset + count) text.chars.length)).drop
      (min offset text.chars.length) = (text.chars.drop offset).take count
  rw [← List.take_eq_take_min, List.take_drop]
  rcases Nat.le_total offset text.chars.length with hle | hle
  · rw [Nat.min_eq_left hle]
  · rw [Nat.min_eq_right hle, List.drop_eq_nil_of_le (List.length_take_le' _ _),
      List.drop_eq_nil_of_le (Nat.le_trans (List.length_take_le' _ _) hle)]

/-- A span is checked by the lengths of its lines as it is by the characters at its ends. -/
theorem checkSpan_ofText (text : SourceText) (span : Span) :
    (ofText text).checkSpan span = text.checkSpan span := by
  have hchar (position : Position) : (text.charAtPosition position).isSome
      = ((text.lines[position.line]?).map fun line =>
        decide (position.column < line.length)).getD false := by
    rw [SourceText.charAtPosition]
    cases text.lines[position.line]? with
    | none => rfl
    | some line => exact Bool.eq_iff_iff.mpr (by simp)
  rw [checkSpan, SourceText.checkSpan, getElem?_lineLengths_ofText, getElem?_lineLengths_ofText, hchar,
    hchar]
  change (if span.document ≠ text.document then _ else _) = _
  congr 1
  cases text.lines[span.start.line]? with
  | none => rfl
  | some first =>
    cases text.lines[span.stop.line]? with
    | none => simp
    | some last =>
      by_cases hfirst : span.start.column < first.length <;>
        by_cases hlast : span.stop.column < last.length <;> simp_all

/-- What stays of a line are its front and its end. -/
theorem map_filter_zipIdx (line : List Char) (start first behind : Nat) (h : first ≤ behind) :
    ((line.zipIdx start).filter fun (_, index) => index < first || behind ≤ index).map Prod.fst
      = line.take (first - start) ++ line.drop (behind - start) := by
  induction line generalizing start with
  | nil => simp
  | cons c rest ih =>
    rw [List.zipIdx_cons, List.filter_cons]
    by_cases hfront : start < first
    · have htake : first - start = first - (start + 1) + 1 := by omega
      have hdrop : behind - start = behind - (start + 1) + 1 := by omega
      simp [hfront, ih, htake, hdrop]
    · by_cases hbehind : behind ≤ start
      · have htake : first - start = 0 := by omega
        have hnext : first - (start + 1) = 0 := by omega
        have hdrop : behind - start = 0 := by omega
        have hlast : behind - (start + 1) = 0 := by omega
        simp [hbehind, ih, htake, hnext, hdrop, hlast]
      · have htake : first - start = 0 := by omega
        have hnext : first - (start + 1) = 0 := by omega
        have hdrop : behind - start = behind - (start + 1) + 1 := by omega
        simp [hfront, hbehind, ih, htake, hnext, hdrop]

/-- What stays of a line without some characters are those in front of them and those behind them. -/
theorem removeChars_eq (line : List Char) {first behind : Nat} (h : first ≤ behind) :
    removeChars line first behind = line.take first ++ line.drop behind :=
  map_filter_zipIdx line 0 first behind h

/-! ## Lines at their places -/

variable {lines : List (List Char)} {first last : List Char}

/-- Two lines, with those in front of them, between them and behind them. -/
theorem exists_between {upper lower : Nat} (hupper : lines[upper]? = some first)
    (hlower : lines[lower]? = some last) (h : upper < lower) :
    ∃ middle, lines = lines.take upper ++ first :: (middle ++ last :: lines.drop (lower + 1))
      ∧ (lines.take upper).length = upper ∧ upper + 1 + middle.length = lower := by
  have hlt := (List.getElem?_eq_some_iff.mp hlower).1
  have hrest : (lines.drop (upper + 1))[lower - (upper + 1)]? = some last := by
    rw [List.getElem?_drop, Nat.add_sub_of_le h, hlower]
  have hsplit := SourceText.eq_take_append_cons_drop hrest
  rw [List.drop_drop, ← Nat.add_assoc, Nat.add_sub_of_le h] at hsplit
  refine ⟨(lines.drop (upper + 1)).take (lower - (upper + 1)), ?_, ?_, ?_⟩
  · rw [← hsplit]
    exact SourceText.eq_take_append_cons_drop hupper
  · rw [List.length_take]
    omega
  · rw [List.length_take, List.length_drop]
    omega

/-! ## Steps of an edit -/

namespace Edit

variable {α β : Type} {buffer after : Buffer}

/-- An edit goes on with the value, and on the buffer, that its first step gives. -/
theorem run_bind_of_ok {edit : Edit α} {next : α → Edit β} {value : α}
    (h : edit.run buffer = some (.ok value, after)) :
    (edit >>= next).run buffer = (next value).run after := by
  rw [run] at h
  rw [run, ExceptT.run_bind, StateT.run_bind, h]
  rfl

/-- An edit is refused if its first step is. -/
theorem run_bind_of_error {edit : Edit α} {next : α → Edit β} {cause : RangeError}
    (h : edit.run buffer = some (.error cause, after)) :
    (edit >>= next).run buffer = some (.error cause, after) := by
  rw [run] at h
  rw [run, ExceptT.run_bind, StateT.run_bind, h]
  rfl

/-- Reading the buffer gives it to the next step and does not change it. -/
theorem run_get_bind (next : Buffer → Edit β) :
    (get >>= next).run buffer = (next buffer).run buffer := rfl

/-- A number that is not lesser can be reduced by another one. -/
theorem run_difference {a b : Nat} (h : b ≤ a) :
    (difference a b).run buffer = some (.ok (a - b), buffer) := by
  rw [difference, if_pos h]
  rfl

variable {before behind : List (List Char)} {line : List Char}

/-- A line that is there can be read by its index. -/
theorem run_lineAt (h : buffer.lines = before ++ line :: behind) :
    (lineAt before.length).run buffer = some (.ok line, buffer) := by
  have hline : buffer.lines[before.length]? = some line := by simp [h]
  rw [lineAt, run_get_bind, hline]
  rfl

/-- A line that is there is replaced, and the others stay where they are. -/
theorem run_setLine (h : buffer.lines = before ++ line :: behind) (replacement : List Char) :
    (setLine before.length replacement).run buffer
      = some (.ok (), { buffer with lines := before ++ replacement :: behind }) := by
  have hlt : before.length < buffer.lines.length := by simp [h]
  have hset : buffer.lines.set before.length replacement = before ++ replacement :: behind := by
    simp [h]
  rw [setLine, run_get_bind, if_pos hlt, ← hset]
  rfl

/-- A line that is there is taken out, and those behind it close the gap. -/
theorem run_eraseLine (h : buffer.lines = before ++ line :: behind) :
    (eraseLine before.length).run buffer
      = some (.ok (), { buffer with lines := before ++ behind }) := by
  have hlt : before.length < buffer.lines.length := by simp [h]
  have herase : buffer.lines.eraseIdx before.length = before ++ behind := by
    simp [h, List.eraseIdx_append_of_length_le]
  rw [eraseLine, run_get_bind, if_pos hlt, ← herase]
  rfl

/-- Lines between two indices are emptied one by one, and their number stays. -/
theorem run_clearLines {lines : List (List Char)} (h : buffer.lines = before ++ lines ++ behind) :
    (clearLines before.length (before.length + lines.length)).run buffer
      = some (.ok (), { buffer with
          lines := before ++ List.replicate lines.length [] ++ behind }) := by
  have hbounds : before.length ≤ before.length + lines.length
      ∧ before.length + lines.length ≤ buffer.lines.length := by
    rw [h, List.length_append, List.length_append]
    omega
  have hclear : buffer.lines.take before.length
      ++ List.replicate (before.length + lines.length - before.length) []
      ++ buffer.lines.drop (before.length + lines.length)
      = before ++ List.replicate lines.length [] ++ behind := by
    rw [h, Nat.add_sub_cancel_left, List.append_assoc before, List.take_left, ← List.append_assoc,
      ← List.length_append, List.drop_left]
  rw [clearLines, run_get_bind, if_pos hbounds, ← hclear]
  rfl

/-- Of the lines that are gone through, those with characters stay. -/
theorem run_eraseEmptied {lines : List (List Char)} (h : buffer.lines = before ++ lines ++ behind) :
    (eraseEmptied before.length lines.length).run buffer
      = some (.ok (), { buffer with
          lines := before ++ lines.filter (fun line => !line.isEmpty) ++ behind }) := by
  induction lines generalizing before buffer with
  | nil =>
    rw [List.filter_nil, ← h]
    rfl
  | cons line rest ih =>
    have hline : buffer.lines = before ++ line :: (rest ++ behind) := by simpa using h
    rw [List.length_cons, eraseEmptied, run_bind_of_ok (run_lineAt hline)]
    by_cases hempty : line.isEmpty
    · rw [if_pos hempty, run_bind_of_ok (run_eraseLine hline), ih (by simp)]
      simp [hempty]
    · have hbehind : buffer.lines = (before ++ [line]) ++ rest ++ behind := by simpa using h
      have hmoved := ih hbehind
      rw [List.length_append, List.length_singleton] at hmoved
      rw [if_neg hempty, hmoved]
      simp [hempty]

end Edit

open Edit

/-! ## Edits -/

/-- A span that addresses the text is checked without effect. -/
theorem run_checkSpan (text : SourceText) (span : Span) :
    Edit.run (liftM ((ofText text).checkSpan span)) (ofText text)
      = some (text.checkSpan span, ofText text) := by
  rw [checkSpan_ofText]
  rfl

/-- What an edit of a text gives, as what the edit of its buffer gives. -/
def outcome (text : SourceText) : Except RangeError SourceText → Except RangeError Unit × Buffer
  | .ok edited => (.ok (), ofText edited)
  | .error cause => (.error cause, ofText text)

/-- Cutting out a line of a buffer gives the buffer of the text without the line, or is refused as
it is for the text. -/
theorem run_removeLine (text : SourceText) (line : Nat) :
    (removeLine line).run (ofText text) = some (outcome text (text.removeLine line)) := by
  rw [removeLine, run_get_bind, SourceText.removeLine, SourceText.lineCount, lines_ofText]
  by_cases hline : line < text.lines.length
  · have herase : (eraseLine line).run (ofText text)
        = some (.ok (), { ofText text with lines := text.lines.eraseIdx line }) := by
      rw [eraseLine, run_get_bind, lines_ofText, if_pos hline]
      rfl
    rw [if_pos hline, if_neg (Nat.not_le.mpr hline), run_bind_of_ok herase]
    rfl
  · rw [if_neg hline, if_pos (Nat.le_of_not_lt hline)]
    rfl

/-- Cutting within one line gives the buffer of the text with the rest of the line, or without the
line if nothing is left. -/
theorem run_removeWithin {text : SourceText} {before behind : List (List Char)} {line : List Char}
    (h : text.lines = before ++ line :: behind) {first last : Nat} (hle : first ≤ last) :
    (removeWithin before.length first last).run (ofText text)
      = some (.ok (), ofText { text with
          lines := before ++ SourceText.nonemptyLine (line.take first ++ line.drop (last + 1))
            ++ behind }) := by
  have hkept : removeChars line first (last + 1) = line.take first ++ line.drop (last + 1) :=
    removeChars_eq line (Nat.le_succ_of_le hle)
  have hlines : (ofText text).lines = before ++ line :: behind := h
  rw [removeWithin, run_bind_of_ok (run_lineAt hlines), run_bind_of_ok (run_setLine hlines _),
    run_bind_of_ok (run_lineAt rfl), hkept, SourceText.nonemptyLine]
  by_cases hempty : (line.take first ++ line.drop (last + 1)).isEmpty
  · rw [if_pos hempty, if_pos hempty, List.append_nil, run_bind_of_ok (run_eraseLine rfl)]
    rfl
  · rw [if_neg hempty, if_neg hempty, List.append_assoc]
    rfl

/-- What is left of two lines becomes one line, and an empty one besides. -/
theorem run_joinLines {buffer : Buffer} {before middle behind : List (List Char)}
    {first last : List Char} (h : buffer.lines = before ++ first :: (middle ++ last :: behind))
    (head tail : List Char) :
    ∃ upper lower, (joinLines before.length (before.length + 1 + middle.length) head tail).run buffer
        = some (.ok (), { buffer with lines := before ++ upper :: (middle ++ lower :: behind) })
      ∧ [upper, lower].filter (fun line => !line.isEmpty) = SourceText.nonemptyLine (head ++ tail) := by
  have hsecond (upper : List Char) : before ++ upper :: (middle ++ last :: behind)
      = (before ++ upper :: middle) ++ last :: behind := by simp
  have hlength (upper : List Char) :
      before.length + 1 + middle.length = (before ++ upper :: middle).length := by
    simp
    omega
  rw [joinLines]
  cases head with
  | nil =>
    refine ⟨[], tail, ?_, ?_⟩
    · rw [if_pos List.isEmpty_nil, run_bind_of_ok (run_setLine h _), hlength [],
        run_setLine (hsecond [])]
      simp
    · cases tail <;> rfl
  | cons c head =>
    refine ⟨c :: head ++ tail, [], ?_, rfl⟩
    rw [if_neg (by simp), run_bind_of_ok (run_setLine h _), hlength (c :: head ++ tail),
      run_setLine (hsecond _)]
    simp

/-- Cutting across lines gives the buffer of the text in which the rests of both lines stand on one
line, if there is anything left of them. -/
theorem run_removeAcross {text : SourceText} {before middle behind : List (List Char)}
    {first last : List Char} (h : text.lines = before ++ first :: (middle ++ last :: behind))
    (front column : Nat) :
    (removeAcross ⟨before.length, front⟩ ⟨before.length + 1 + middle.length, column⟩).run
        (ofText text)
      = some (.ok (), ofText { text with
          lines := before ++ SourceText.nonemptyLine (first.take front ++ last.drop (column + 1))
            ++ behind }) := by
  have hlines : (ofText text).lines = before ++ first :: (middle ++ last :: behind) := h
  have hlast : (ofText text).lines = (before ++ first :: middle) ++ last :: behind := by simpa using h
  have hmiddle : (ofText text).lines = (before ++ [first]) ++ middle ++ last :: behind := by
    simpa using h
  have hlength : before.length + 1 + middle.length = (before ++ first :: middle).length := by
    simp
    omega
  have hread := run_lineAt hlast
  have hclear := run_clearLines hmiddle
  rw [← hlength] at hread
  rw [List.length_append, List.length_singleton] at hclear
  have hcleared : Buffer.lines { ofText text with
      lines := before ++ [first] ++ List.replicate middle.length [] ++ last :: behind }
        = before ++ first :: (List.replicate middle.length [] ++ last :: behind) := by simp
  obtain ⟨upper, lower, hjoin, hfilter⟩ :=
    run_joinLines hcleared (first.take front) (last.drop (column + 1))
  have hjoined : Buffer.lines { ofText text with
      lines := before ++ upper :: (List.replicate middle.length [] ++ lower :: behind) }
        = before ++ upper :: (List.replicate middle.length [] ++ [lower]) ++ behind := by simp
  have herase := run_eraseEmptied hjoined
  have hcount : before.length + 1 + middle.length - before.length + 1
      = (upper :: (List.replicate middle.length [] ++ [lower])).length := by
    simp
    omega
  have hkept : (upper :: (List.replicate middle.length [] ++ [lower])).filter
      (fun line => !line.isEmpty) = [upper, lower].filter fun line => !line.isEmpty := by
    simp [List.filter_cons]
  rw [List.length_replicate] at hjoin
  have hle : before.length ≤ before.length + 1 + middle.length := by omega
  rw [removeAcross, run_bind_of_ok (run_lineAt hlines), run_bind_of_ok hread, run_bind_of_ok hclear,
    run_bind_of_ok hjoin, run_bind_of_ok (run_difference hle), hcount, run_bind_of_ok herase, hkept,
    hfilter]
  rfl

/-- Cutting out a span of a buffer does what it does to the text, so all that is shown of edits of
texts is true of edits in place. -/
theorem run_removeSpan (text : SourceText) {span : Span} (h : span.Ordered) :
    (removeSpan span).run (ofText text) = some (outcome text (text.removeSpan span)) := by
  have hrun := run_checkSpan text span
  rw [removeSpan, run_get_bind, SourceText.removeSpan]
  cases hcheck : text.checkSpan span with
  | error cause =>
    rw [hcheck] at hrun
    rw [run_bind_of_error hrun]
    rfl
  | ok checked =>
    obtain ⟨-, hstart, hstop⟩ := SourceText.checkSpan_eq_ok_iff.mp hcheck
    obtain ⟨first, hfirst, -⟩ := SourceText.hasPosition_iff.mp hstart
    obtain ⟨last, hlast, -⟩ := SourceText.hasPosition_iff.mp hstop
    rw [hcheck] at hrun
    rw [run_bind_of_ok hrun, hfirst, hlast]
    obtain hline | ⟨hline, hcolumn⟩ := h
    · obtain ⟨middle, hsplit, hlength, hbetween⟩ := exists_between hfirst hlast hline
      have hremove := run_removeAcross hsplit span.start.column span.stop.column
      rw [hlength, hbetween] at hremove
      rw [if_neg (Nat.ne_of_lt hline), hremove]
      rfl
    · have hremove := run_removeWithin (SourceText.eq_take_append_cons_drop hfirst) hcolumn
      have hlength := List.length_take_of_le
        (Nat.le_of_lt (List.getElem?_eq_some_iff.mp hfirst).1)
      rw [hlength] at hremove
      obtain rfl : first = last := Option.some.inj (hfirst.symm.trans (hline ▸ hlast))
      rw [if_pos hline, hremove, ← hline]
      rfl

/-- Reading a span of a buffer gives what the text has there, and leaves the buffer as it is. -/
theorem run_extract (text : SourceText) {span : Span} (h : span.Ordered) :
    (extract span).run (ofText text) = some (text.extract span, ofText text) := by
  have hrun := run_checkSpan text span
  rw [extract, run_get_bind, SourceText.extract]
  cases hcheck : text.checkSpan span with
  | error cause =>
    rw [hcheck] at hrun
    rw [run_bind_of_error hrun]
    rfl
  | ok checked =>
    obtain ⟨-, hstart, hstop⟩ := SourceText.checkSpan_eq_ok_iff.mp hcheck
    rw [hcheck] at hrun
    rw [run_bind_of_ok hrun]
    have hle := SourceText.offset_le_offset hstart hstop h
    rw [← offset_ofText, ← offset_ofText] at hle
    rw [run_bind_of_ok (run_difference hle), offset_ofText, offset_ofText, slice_ofText]
    rfl

end JobMarkup.Buffer
