import JobMarkup.Proofs.CharacterClasses
import JobMarkup.Proofs.Tiling
import JobMarkup.Token.Lexer

/-!
# Tokens that are taken one at a time are those of the text

What a cursor takes where it stands is the first lexeme of the characters from there on: the mark that
it sees is the one that lexemes are extended to, and a run ends where no character extends it. The zero
characters that it sees behind the end are of no class and belong to no mark. So within a limit greater
than the length of a text, all tokens of the text are taken, and nothing else.
-/

namespace JobMarkup

namespace Lexeme

open Character

/-- What extends a lexeme goes on with its run or makes a lexeme that no character extends. -/
theorem isRunKind_or_isClosed {lexeme longer : Lexeme} {c : Char}
    (h : lexeme.extend? c = some longer) : IsRunKind lexeme.kind ∨ isClosed longer.kind = true := by
  obtain ⟨kind, cs⟩ := lexeme
  simp only [extend?, Option.map_eq_some_iff] at h
  obtain ⟨longerKind, hextended, rfl⟩ := h
  cases kind <;> simp_all [extendedKind?, IsRunKind] <;> grind [isClosed]

/-- A mark begins no run. -/
theorem not_isRunKind_of_mem_marks {c : Char} (h : c ∈ marks) : ¬ IsRunKind (startKind c) := by
  have hclass := class_of_mem_marks h
  have hfits := fits_start c
  rintro (hkind | hkind | hkind) <;> rw [hkind, Fits, List.forall_mem_singleton] at hfits <;>
    simp [hfits] at hclass

/-- A zero character extends no mark. -/
theorem extend?_nul {c : Char} (h : c ∈ marks) : (start c).extend? '\x00' = none := by
  have hrun := not_isRunKind_of_mem_marks h
  exact extend?_of_not_mem_marks (by decide) (fun hkind => absurd (Or.inl hkind) hrun)
    (fun hkind => absurd (Or.inr (Or.inl hkind)) hrun)
    (fun hkind => absurd (Or.inr (Or.inr hkind)) hrun)

end Lexeme

namespace Lexer

open Character Lexeme

/-- A character that is no mark belongs to no mark, whatever follows it. -/
theorem mark?_of_not_mem_marks {c : Char} (h : c ∉ marks) (following : Char) :
    mark? c following = none := by
  unfold mark?
  split <;> simp_all [marks, specialMarks]

/-- The mark is the one that its first character is extended to by what follows. -/
theorem mark?_of_mem_marks {c : Char} (h : c ∈ marks) (following : Char) :
    mark? c following = match (start c).extend? following with
      | some longer => some (longer.kind, 2)
      | none => some (startKind c, 1) := by
  unfold mark?
  split
  case h_1 =>
    split_ifs with hslash hbang
    · rw [hslash]
      rfl
    · rw [hbang]
      rfl
    · simp [start, startKind, extend?, extendedKind?, hslash, hbang]
  case h_2 | h_8 | h_9 | h_10 =>
    split_ifs with hfollowing
    · rw [hfollowing]
      rfl
    · simp [start, startKind, specialMarks, extend?, extendedKind?, hfollowing]
  case h_3 | h_4 | h_5 | h_6 | h_7 | h_11 => rfl
  case h_12 =>
    have hspecial : c ∈ specialMarks := by simp_all [marks]
    have hbrace : c ≠ '\x7d' := by assumption
    have hextend : (start c).extend? following = none := by
      simp [start, startKind_of_mem_specialMarks hspecial, extend?, extendedKind?, hbrace]
    rw [if_pos hspecial, hextend, startKind_of_mem_specialMarks hspecial]

variable {text : SourceText}

/-- Ahead of the cursor stands a character of the text, or a zero character behind the end. -/
theorem peek_eq (text : SourceText) (cursor : Cursor) (ahead : Nat) :
    cursor.peek text.window ahead
      = ((text.chars.drop (cursor.head + ahead)).head?).getD '\x00' := by
  rw [List.head?_drop]
  rfl

/-- What is taken spans as many characters as the cursor takes in, and the cursor moves behind them. -/
theorem take_eq (text : SourceText) (kind : TokenKind) (others position reach : Nat) :
    take text kind others ⟨position, reach⟩
      = (⟨kind, position, reach + others + 1, text.spanOf position (position + (reach + others))⟩,
        .moveTo (position + (reach + others + 1))) := by
  simp [take, Cursor.consume, Cursor.head, SourceText.window, Cursor.moveTo, Nat.add_assoc]

/-- A run is taken in up to the first character that is not of its class. -/
theorem growRun_eq {accepts : Char → Bool} (hnul : accepts '\x00' = false) {limit : Nat}
    {cursor : Cursor} {rest : List Char} (hrest : text.chars.drop (cursor.head + 1) = rest)
    (hlimit : rest.length < limit) :
    growRun text accepts limit cursor = some (cursor.grow (rest.takeWhile accepts).length) := by
  induction rest generalizing cursor limit with
  | nil =>
    obtain ⟨limit, rfl⟩ := Nat.exists_eq_add_one_of_ne_zero (Nat.ne_zero_of_lt hlimit)
    rw [growRun, peek_eq, hrest]
    simp [hnul, Cursor.grow]
  | cons c rest ih =>
    obtain ⟨limit, rfl⟩ := Nat.exists_eq_add_one_of_ne_zero (Nat.ne_zero_of_lt hlimit)
    rw [growRun, peek_eq, hrest, List.head?_cons, Option.getD_some]
    by_cases hc : accepts c = true
    · have hbehind : text.chars.drop ((cursor.grow 1).head + 1) = rest := by
        have hdrop := congrArg (List.drop 1) hrest
        rwa [List.drop_drop] at hdrop
      rw [if_pos hc, ih hbehind (Nat.lt_of_succ_lt_succ hlimit), List.takeWhile_cons_of_pos hc,
        List.length_cons, Nat.add_comm _ 1]
      simp [Cursor.grow, Nat.add_assoc]
    · rw [if_neg hc, List.takeWhile_cons_of_neg hc]
      rfl

/-- A lexeme in its place, and a cursor behind it. -/
def atPlace (text : SourceText) (position : Nat) (lexeme : Lexeme) : Token × Cursor :=
  let length := lexeme.chars.length
  (⟨lexeme.kind, position, length, text.spanOf position (position + length - 1)⟩,
    .moveTo (position + length))

/-- The token is the first lexeme of the characters from its place on, and the cursor stands
behind it. -/
def TakesFirst (text : SourceText) (position : Nat) (taken : Option (Token × Cursor)) : Prop :=
  ∃ lexeme behind, text.chars.drop position = lexeme.chars ++ behind
    ∧ ofChars (text.chars.drop position) = lexeme :: ofChars behind
    ∧ taken = some (atPlace text position lexeme)

section First

variable {c : Char} {position : Nat} {rest : List Char}

/-- Behind the first of some characters are the others, as the cursor finds them after one step. -/
theorem drop_succ_of_drop (hrest : text.chars.drop position = c :: rest) :
    text.chars.drop (position + 1) = rest := by
  have hdrop := congrArg (List.drop 1) hrest
  rwa [List.drop_drop] at hdrop

/-- Where a cursor stands it sees a character and the next one, or a zero character. -/
theorem peek_moveTo (hrest : text.chars.drop position = c :: rest) :
    (Cursor.moveTo position).peek text.window 0 = c
      ∧ (Cursor.moveTo position).peek text.window 1 = (rest.head?).getD '\x00' := by
  constructor
  · rw [peek_eq]
    exact congrArg (fun cs => (List.head? cs).getD '\x00') hrest
  · rw [peek_eq]
    exact congrArg (fun cs => (List.head? cs).getD '\x00') (drop_succ_of_drop hrest)

/-- At a mark, the longest mark that stands there is taken, within any limit. -/
theorem takesFirst_of_mem_marks (hrest : text.chars.drop position = c :: rest) (h : c ∈ marks)
    (limit : Nat) : TakesFirst text position (next text limit (.moveTo position)) := by
  obtain ⟨hfirst, hfollowing⟩ := peek_moveTo hrest
  rw [TakesFirst, hrest, next, hfirst, hfollowing, mark?_of_mem_marks h]
  cases rest with
  | nil =>
    rw [List.head?_nil, Option.getD_none, extend?_nul h]
    exact ⟨start c, [], rfl, rfl, congrArg some (take_eq text _ 0 position 0)⟩
  | cons d others =>
    rw [List.head?_cons, Option.getD_some]
    cases hextend : (start c).extend? d with
    | none =>
      refine ⟨start c, d :: others, rfl, ?_, congrArg some (take_eq text _ 0 position 0)⟩
      rw [ofChars, split, hextend]
      rfl
    | some longer =>
      have hclosed := (isRunKind_or_isClosed hextend).resolve_left (not_isRunKind_of_mem_marks h)
      have hchars : longer.chars = [c, d] := chars_of_extend? hextend
      refine ⟨longer, others, by rw [hchars]; rfl, ?_, ?_⟩
      · rw [ofChars, split, hextend]
        exact split_of_not_extend fun e _ => extend?_of_isClosed hclosed e
      · have htake := take_eq text longer.kind 1 position 0
        simp only [atPlace, hchars]
        exact congrArg some htake

/-- At the first character of a run, the run is taken as far as its class goes, if the limit
allows it. -/
theorem takesFirst_of_run (hrest : text.chars.drop position = c :: rest) {kind : TokenKind}
    (h : IsRunKind kind) (hstart : startKind c = kind) {limit : Nat} (hlimit : rest.length < limit) :
    TakesFirst text position
      ((growRun text (runClass kind) limit (.moveTo position)).map (take text kind 0)) := by
  have hnul : runClass kind '\x00' = false := by
    rcases h with rfl | rfl | rfl <;> decide +kernel
  have hbehind : text.chars.drop ((Cursor.moveTo position).head + 1) = rest :=
    drop_succ_of_drop hrest
  rw [TakesFirst, hrest, growRun_eq hnul hbehind hlimit]
  refine ⟨⟨kind, c :: rest.takeWhile (runClass kind)⟩, rest.dropWhile (runClass kind), ?_, ?_, ?_⟩
  · rw [List.cons_append, List.takeWhile_append_dropWhile]
  · rw [ofChars, start, hstart, split_run h]
    rfl
  · have htake := take_eq text kind 0 position (0 + (rest.takeWhile (runClass kind)).length)
    rw [Nat.zero_add, Nat.add_zero] at htake
    rw [Option.map_some, Cursor.grow, Cursor.moveTo, Nat.zero_add, htake]
    rfl

/-- At any other character, a run or a single character is taken, if the limit allows it. -/
theorem takesFirst_of_not_mem_marks (hrest : text.chars.drop position = c :: rest) (h : c ∉ marks)
    {limit : Nat} (hlimit : rest.length < limit) :
    TakesFirst text position (next text limit (.moveTo position)) := by
  have hstart := startKind_of_not_mem_marks h
  rw [next, (peek_moveTo hrest).1, mark?_of_not_mem_marks h, takeRun]
  rw [runKind] at hstart
  by_cases hletter : isLetter c = true
  · rw [if_pos hletter] at hstart ⊢
    exact takesFirst_of_run hrest (Or.inl rfl) hstart hlimit
  rw [if_neg hletter] at hstart ⊢
  by_cases hblank : isInlineBlank c = true
  · rw [if_pos hblank] at hstart ⊢
    exact takesFirst_of_run hrest (Or.inr (Or.inl rfl)) hstart hlimit
  rw [if_neg hblank] at hstart ⊢
  by_cases hnumeric : isNumeric c = true
  · rw [if_pos hnumeric] at hstart ⊢
    exact takesFirst_of_run hrest (Or.inr (Or.inr rfl)) hstart hlimit
  rw [if_neg hnumeric] at hstart ⊢
  rw [TakesFirst, hrest]
  refine ⟨⟨.unknown, [c]⟩, rest, rfl, ?_, congrArg some (take_eq text _ 0 position 0)⟩
  rw [ofChars, start, hstart]
  exact split_of_not_extend fun d _ => extend?_of_isClosed rfl d

/-- A cursor takes the first lexeme of the characters from where it stands. -/
theorem takesFirst (hrest : text.chars.drop position = c :: rest) {limit : Nat}
    (hlimit : rest.length < limit) :
    TakesFirst text position (next text limit (.moveTo position)) := by
  by_cases h : c ∈ marks
  · exact takesFirst_of_mem_marks hrest h limit
  · exact takesFirst_of_not_mem_marks hrest h hlimit

end First

/-- The last token is the end of the text. -/
theorem final_eq (text : SourceText) : final text = text.endToken := by
  have hcolumn : (text.lineLength (text.lineCount - 1)).toOption.getD 0
      = (text.lines.getLast?.map List.length).getD 0 := by
    rw [List.getLast?_eq_getElem?, SourceText.lineLength, SourceText.line, SourceText.lineCount]
    cases text.lines[text.lines.length - 1]? <;> rfl
  rw [final, hcolumn, SourceText.endToken, text.locate_length]

/-- From where a cursor stands, it takes the lexemes of the characters from there on. -/
theorem tokensFrom_eq {position limit rounds : Nat} {rest : List Char}
    (hrest : text.chars.drop position = rest) (hlimit : rest.length < limit)
    (hrounds : rest.length < rounds) (hposition : position + rest.length = text.length) :
    tokensFrom text limit rounds (.moveTo position)
      = some (Token.place text position (ofChars rest) ++ [text.endToken]) := by
  induction rounds generalizing position rest with
  | zero => exact absurd hrounds (Nat.not_lt_zero _)
  | succ rounds ih =>
    cases rest with
    | nil =>
      have hend : ¬ (Cursor.moveTo position).position < text.length :=
        Nat.not_lt.mpr (Nat.le_of_eq hposition.symm)
      rw [tokensFrom, if_neg hend, final_eq]
      rfl
    | cons c rest =>
      rw [List.length_cons] at hlimit hrounds hposition
      have hlt : (Cursor.moveTo position).position < text.length := by
        change position < text.length
        omega
      obtain ⟨lexeme, behind, hchars, hfirst, hnext⟩ :=
        takesFirst hrest (Nat.lt_of_succ_lt hlimit)
      have hbehind : text.chars.drop (position + lexeme.chars.length) = behind := by
        rw [← List.drop_drop, hchars, List.drop_left]
      -- a lexeme has characters, so fewer of them are left behind it
      have hpos : 0 < lexeme.chars.length := by
        have hsolid := (isCut_ofChars (text.chars.drop position)).solid lexeme (by simp [hfirst])
        exact List.length_pos_iff.mpr hsolid.chars_ne_nil
      have hlength := congrArg List.length (hrest.symm.trans hchars)
      rw [List.length_cons, List.length_append] at hlength
      have hothers := ih hbehind (by omega) (by omega) (by omega)
      rw [tokensFrom, if_pos hlt, hnext, ← hrest, hfirst, Token.place]
      simp only [atPlace, Option.bind_eq_bind, Option.bind_some, hothers]
      rfl

/-- Taking tokens one at a time gives the tokens of the text, and its end. -/
theorem tokens_eq (text : SourceText) {limit : Nat} (h : text.length < limit) :
    tokens text limit = some text.tokens.toList :=
  tokensFrom_eq rfl h h (Nat.zero_add _)

end Lexer

end JobMarkup
