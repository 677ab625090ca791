import JobMarkup.Proofs.Reading

/-!
# Tokens tile their text

The tokens of a text begin where it begins, each begins where the one before it ends, and the end of
the text stands where the last one ends. So nothing of the text is passed over and nothing is read
twice, whatever its lines are: the tokens of a text from which line ends have been cut go over its
lines and tile it all the same.
-/

namespace JobMarkup

/-- Lexemes in their places, and behind them a token that begins where they end, follow one another
without a gap. -/
theorem Token.isChain_place (text : SourceText) (offset : Nat) (lexemes : List Lexeme)
    {behind : Token} (h : behind.offset = offset + (lexemes.flatMap Lexeme.chars).length) :
    (place text offset lexemes ++ [behind]).IsChain fun a b => b.offset = a.offset + a.length := by
  induction lexemes generalizing offset with
  | nil => exact List.isChain_singleton behind
  | cons lexeme rest ih =>
    rw [List.flatMap_cons, List.length_append, ← Nat.add_assoc] at h
    have hrest := ih (offset + lexeme.chars.length) h
    rw [place, List.cons_append, List.isChain_cons]
    refine ⟨fun next hnext => ?_, hrest⟩
    cases rest with
    | nil =>
      obtain rfl : behind = next := by simpa [place] using hnext
      simpa using h
    | cons second rest =>
      obtain rfl := Option.some.inj hnext
      rfl

/-- The first of placed lexemes, or the token behind them, begins where they begin. -/
theorem Token.offset_head?_place (text : SourceText) (offset : Nat) (lexemes : List Lexeme)
    {behind : Token} (h : behind.offset = offset + (lexemes.flatMap Lexeme.chars).length) :
    ∀ first ∈ (place text offset lexemes ++ [behind]).head?, first.offset = offset := by
  intro first hfirst
  cases lexemes with
  | nil =>
    obtain rfl : behind = first := by simpa [place] using hfirst
    simpa using h
  | cons lexeme rest =>
    obtain rfl := Option.some.inj hfirst
    rfl

namespace SourceText

variable (text : SourceText)

/-- The end of the lines is behind the last character of the last line. -/
theorem locateIn_length_flatten (lines : List (List Char)) :
    locateIn lines lines.flatten.length
      = ⟨lines.length - 1, (lines.getLast?.map List.length).getD 0⟩ := by
  induction lines with
  | nil => rfl
  | cons line rest ih =>
    cases rest with
    | nil => simp [locateIn]
    | cons next rest =>
      rw [List.flatten_cons, List.length_append,
        locateIn_cons_cons_of_le (Nat.le_add_right _ _), Nat.add_sub_cancel_left, ih]
      simp

/-- The end of a text is behind the last character of its last line, and at the origin if there is
no line. -/
theorem locate_length :
    text.locate text.length
      = ⟨text.lineCount - 1, (text.lines.getLast?.map List.length).getD 0⟩ :=
  locateIn_length_flatten text.lines

/-- The characters of all tokens, one after the other, are the text. -/
theorem charsOf_tokens : text.charsOf text.tokens.toList = text.chars := by
  have hend : text.endToken.chars text = [] := by simp [Token.chars, slice, endToken]
  rw [TokenStream.toList, charsOf_append, charsOf_tokens_tokens]
  simpa [tokens] using hend

/-- The tokens of any text tile it. The first one has offset zero, and each further one the offset
and the length of the one before it together. All but the last have characters, are not the end of
the text, and have the span from their first to their last character. The last one is the end of the
text: it has no characters, its offset is the length of the text, and its span is the point where
that offset is located, which is behind the last character of the last line. The stretches of the
text that the tokens name are, one after the other, the whole text. -/
theorem tokens_tile :
    text.tokens.toList = text.tokens.tokens ++ [text.tokens.endToken]
      ∧ (∀ first ∈ text.tokens.toList.head?, first.offset = 0)
      ∧ (text.tokens.toList.IsChain fun a b => b.offset = a.offset + a.length)
      ∧ (∀ token ∈ text.tokens.tokens, 0 < token.length ∧ token.kind ≠ .endOfText
        ∧ token.span = ⟨text.document, text.locate token.offset,
            text.locate (token.offset + token.length - 1)⟩)
      ∧ (text.tokens.endToken.kind = .endOfText ∧ text.tokens.endToken.length = 0
        ∧ text.tokens.endToken.offset = text.length
        ∧ text.tokens.endToken.span = Span.point text.document (text.locate text.length)
        ∧ text.locate text.length
          = ⟨text.lineCount - 1, (text.lines.getLast?.map List.length).getD 0⟩)
      ∧ String.ofList (text.tokens.toList.flatMap fun token => text.slice token.offset token.length)
        = text.contents := by
  have hend : text.endToken.offset
      = 0 + ((Lexeme.ofChars text.chars).flatMap Lexeme.chars).length := by
    rw [Lexeme.flatMap_chars_ofChars, Nat.zero_add]
    rfl
  refine ⟨rfl, Token.offset_head?_place text 0 _ hend, Token.isChain_place text 0 _ hend, ?_,
    ⟨rfl, rfl, rfl, rfl, text.locate_length⟩, congrArg String.ofList text.charsOf_tokens⟩
  intro token hmem
  obtain ⟨hpos, -, hspan⟩ := text.of_mem_tokens hmem
  exact ⟨hpos, text.kind_ne_endOfText hmem, hspan⟩

/-- Behind a line whose line feed has been cut off, a token goes over both lines. -/
example :
    let text : SourceText := ⟨.ofNat 0, [['a'], ['b', '<', '\n']]⟩
    text.tokens.tokens.map (fun token => (token.offset, token.length))
      = [(0, 2), (2, 1), (3, 1)] := by
  decide +kernel

end SourceText

end JobMarkup
