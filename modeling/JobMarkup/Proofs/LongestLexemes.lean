import JobMarkup.Proofs.LexerSteps
import JobMarkup.Proofs.LineModel

/-!
# Lexemes are longest, and found again from any border

What the forms of lexemes are is said here without how they are found: a mark is its one or two
characters, a run is any characters of its class, where a run of numeric characters does not begin
with a letter, and a character of no form else is one of its own. Those texts are the ones that are
found as one lexeme. So the lexeme that is found at a place is the longest of any form there, no form
but its own has its characters, and what is found behind it does not depend on what is in front: a
text cut at a border of two tokens has the tokens in front of the cut and those behind it.
-/

namespace JobMarkup

namespace Lexeme

open Character

/-- The characters are a lexeme of the kind, wherever they stand. -/
def IsForm (kind : TokenKind) (cs : List Char) : Prop :=
  cs ≠ [] ∧ Fits kind cs ∧ (kind = .digits → ∀ c ∈ cs.head?, isLetter c = false)

/-- The characters are a lexeme of the kind, the longest of any kind that the text begins with, and a
lexeme of no other kind. -/
structure IsLongestForm (cs : List Char) (kind : TokenKind) (lexeme : List Char) : Prop where
  isPrefix : lexeme <+: cs
  isForm : IsForm kind lexeme
  longest : ∀ other form, IsForm other form → form <+: cs → form <+: lexeme
  unique : ∀ other, IsForm other lexeme → other = kind

/-- A single character is a form of the kind that it begins. -/
theorem isForm_start (c : Char) : IsForm (startKind c) [c] := by
  refine ⟨by simp, fits_start c, fun hkind d hd => ?_⟩
  obtain rfl : c = d := by simpa using hd
  by_contra hletter
  rw [startKind_of_isLetter (by simpa using hletter)] at hkind
  simp at hkind

/-- A lexeme that is extended is a form of its new kind. -/
theorem isForm_extend {lexeme longer : Lexeme} {c : Char} (h : IsForm lexeme.kind lexeme.chars)
    (hextend : lexeme.extend? c = some longer) : IsForm longer.kind longer.chars := by
  obtain ⟨hne, hfits, hdigits⟩ := h
  refine ⟨by simp [chars_of_extend? hextend], fits_extend hfits hextend, fun hkind => ?_⟩
  rw [chars_of_extend? hextend, List.head?_append_of_ne_nil _ hne]
  refine hdigits ?_
  obtain ⟨kind, cs⟩ := lexeme
  simp only [extend?, Option.map_eq_some_iff] at hextend
  obtain ⟨longerKind, hextended, rfl⟩ := hextend
  cases kind <;> simp_all [extendedKind?]
  grind

/-- Every lexeme that is found has a form. -/
theorem isForm_of_mem_ofChars {cs : List Char} :
    ∀ lexeme ∈ ofChars cs, IsForm lexeme.kind lexeme.chars :=
  forall_mem_ofChars (fun c _ => isForm_start c) fun _ _ _ _ h hextend => isForm_extend h hextend

/-- A character of no class begins a lexeme of the unknown kind. -/
theorem startKind_of_isUnknown {c : Char} (h : isUnknown c = true) : startKind c = .unknown := by
  simp only [isUnknown, Bool.and_eq_true, Bool.not_eq_true', decide_eq_true_eq] at h
  obtain ⟨⟨⟨hmark, hletter⟩, hnumeric⟩, hblank⟩ := h
  simp [startKind_of_not_mem_marks hmark, runKind, isInlineBlank, hletter, hnumeric, hblank]

/-- The texts with a form are those that are found as one lexeme. -/
theorem solid_iff_isForm (kind : TokenKind) (cs : List Char) :
    Solid ⟨kind, cs⟩ ↔ IsForm kind cs := by
  constructor
  · intro h
    exact isForm_of_mem_ofChars ⟨kind, cs⟩ (by rw [h]; exact List.mem_singleton_self _)
  · rintro ⟨hne, hfits, hdigits⟩
    obtain ⟨c, rest, rfl⟩ := List.exists_cons_of_ne_nil hne
    cases kind with
    | letters =>
      exact ofChars_run (Or.inl rfl) (startKind_of_isLetter (hfits c List.mem_cons_self))
        fun d hd => hfits d (List.mem_cons_of_mem _ hd)
    | blank =>
      exact ofChars_run (Or.inr (Or.inl rfl))
        (startKind_of_isInlineBlank (hfits c List.mem_cons_self))
        fun d hd => hfits d (List.mem_cons_of_mem _ hd)
    | digits =>
      have hletter := hdigits rfl c rfl
      have hstart : startKind c = .digits := by
        refine (startKind_of_isNumeric (hfits c List.mem_cons_self)).resolve_left fun hkind => ?_
        have hbegun := fits_start c
        rw [hkind] at hbegun
        simp [hbegun c (List.mem_singleton_self c)] at hletter
      exact ofChars_run (Or.inr (Or.inr rfl)) hstart fun d hd => hfits d (List.mem_cons_of_mem _ hd)
    | special =>
      obtain ⟨d, hspecial, heq⟩ := hfits
      rw [heq, Solid, ofChars, start, startKind_of_mem_specialMarks hspecial]
      rfl
    | unknown =>
      obtain ⟨d, hunknown, heq⟩ := hfits
      rw [heq, Solid, ofChars, start, startKind_of_isUnknown hunknown]
      rfl
    | endOfText => exact absurd hfits id
    | _ =>
      rw [Fits] at hfits
      rw [hfits]
      rfl

/-- What a text begins with and has a form is a prefix of its first lexeme. -/
theorem exists_prefix_of_isForm {kind : TokenKind} {form rest : List Char} (h : IsForm kind form) :
    ∃ first others, ofChars (form ++ rest) = first :: others ∧ form <+: first.chars := by
  have hsolid := (solid_iff_isForm kind form).mpr h
  obtain ⟨c, cs, rfl⟩ := List.exists_cons_of_ne_nil h.1
  obtain ⟨first, others, hsplit, hprefix⟩ := exists_split_eq_cons ⟨kind, c :: cs⟩ rest
  refine ⟨first, others, ?_, hprefix⟩
  rw [List.cons_append, ofChars, split_append hsolid, hsplit]

/-- The first lexeme of a text is the longest of any form there. -/
theorem isLongestForm_of_ofChars {cs : List Char} {lexeme : Lexeme} {behind : List Lexeme}
    (h : ofChars cs = lexeme :: behind) : IsLongestForm cs lexeme.kind lexeme.chars := by
  have hmem : lexeme ∈ ofChars cs := by
    rw [h]
    exact List.mem_cons_self
  have hsolid : Solid lexeme := (isCut_ofChars cs).solid lexeme hmem
  refine ⟨?_, isForm_of_mem_ofChars lexeme hmem, ?_, ?_⟩
  · rw [← flatMap_chars_ofChars cs, h, List.flatMap_cons]
    exact List.prefix_append _ _
  · rintro other form hform ⟨rest, rfl⟩
    obtain ⟨first, others, hfirst, hprefix⟩ := @exists_prefix_of_isForm other form rest hform
    rw [h, List.cons.injEq] at hfirst
    rw [hfirst.1]
    exact hprefix
  · intro other hform
    have hother := (solid_iff_isForm other lexeme.chars).mpr hform
    rw [Solid] at hsolid hother
    rw [hsolid, List.cons.injEq] at hother
    exact congrArg Lexeme.kind hother.1.symm

end Lexeme

/-- A token among placed lexemes, or the one behind them, begins where those in front of it end. -/
theorem Token.exists_place_eq_append (text : SourceText) (offset : Nat) {lexemes : List Lexeme}
    {final border : Token} {before behind : List Token}
    (hfinal : final.offset = offset + (lexemes.flatMap Lexeme.chars).length)
    (h : place text offset lexemes ++ [final] = before ++ border :: behind) :
    ∃ front back, lexemes = front ++ back ∧ before = place text offset front
      ∧ border :: behind = place text border.offset back ++ [final]
      ∧ border.offset = offset + (front.flatMap Lexeme.chars).length := by
  have hlength := congrArg List.length h
  rw [List.length_append, List.length_append, length_place, List.length_singleton,
    List.length_cons] at hlength
  let front := lexemes.take before.length
  let back := lexemes.drop before.length
  have hsplit : lexemes = front ++ back := (List.take_append_drop _ _).symm
  have hfront : front.length = before.length := List.length_take_of_le (by omega)
  rw [hsplit, place_append, List.append_assoc] at h
  obtain ⟨hbefore, hbehind⟩ := List.append_inj h (by rw [length_place, hfront])
  have hoffset : border.offset = offset + (front.flatMap Lexeme.chars).length := by
    have hend : final.offset
        = offset + (front.flatMap Lexeme.chars).length + (back.flatMap Lexeme.chars).length := by
      rw [hfinal, hsplit, List.flatMap_append, List.length_append, Nat.add_assoc]
    exact offset_head?_place text _ back hend border (by rw [hbehind]; rfl)
  exact ⟨front, back, hsplit, hbefore.symm, by rw [hoffset, hbehind], hoffset⟩

namespace SourceText

open Lexeme

variable {text : SourceText}

/-- The tokens of a text and its end, without their places. -/
theorem map_lexeme_toList (text : SourceText) :
    text.tokens.toList.map (Token.lexeme text) = ofChars text.chars ++ [⟨.endOfText, []⟩] := by
  have hend : text.endToken.lexeme text = ⟨.endOfText, []⟩ := by
    simp [Token.lexeme, Token.chars, slice, endToken]
  rw [TokenStream.toList, List.map_append, map_lexeme_tokens, List.map_singleton]
  exact congrArg (_ ++ [·]) hend

/-- A border of two tokens of a text, or of a token and an end of the text, cuts its characters into
those of the tokens in front and those of the tokens behind. -/
theorem chars_at_border {before behind : List Token} {border : Token}
    (h : text.tokens.toList = before ++ border :: behind) :
    text.chars.take border.offset = text.charsOf before
      ∧ text.chars.drop border.offset = text.charsOf (border :: behind) := by
  have hfinal : text.endToken.offset = 0 + ((ofChars text.chars).flatMap Lexeme.chars).length := by
    rw [flatMap_chars_ofChars, Nat.zero_add]
    rfl
  obtain ⟨front, back, hlexemes, rfl, -, hoffset⟩ := Token.exists_place_eq_append text 0 hfinal h
  have hall : text.charsOf text.tokens.toList = text.chars := text.charsOf_tokens
  have hchars : front.flatMap Lexeme.chars ++ back.flatMap Lexeme.chars = text.chars := by
    rw [← List.flatMap_append, ← hlexemes, flatMap_chars_ofChars]
  have hbefore : text.charsOf (Token.place text 0 front) = front.flatMap Lexeme.chars := by
    rw [charsOf_eq_flatMap_lexeme, Token.map_lexeme_place ⟨_, hchars⟩]
  have hlength : border.offset = (text.charsOf (Token.place text 0 front)).length := by
    rw [hbefore, hoffset, Nat.zero_add]
  rw [h, charsOf_append] at hall
  rw [hlength, ← hall]
  exact ⟨List.take_left, List.drop_left⟩

/-- The lexemes in front of a border of two tokens and those behind it are what is found in their
characters alone. -/
theorem ofChars_at_border {before behind : List Token} {border : Token}
    (h : text.tokens.toList = before ++ border :: behind) :
    ofChars (text.chars.take border.offset) = before.map (Token.lexeme text)
      ∧ ofChars (text.chars.drop border.offset) ++ [⟨.endOfText, []⟩]
        = (border :: behind).map (Token.lexeme text) := by
  obtain ⟨htake, hdrop⟩ := chars_at_border h
  have hlexemes := text.map_lexeme_toList
  rw [h, List.map_append] at hlexemes
  obtain ⟨others, final, hbehind⟩ :=
    (List.eq_nil_or_concat ((border :: behind).map (Token.lexeme text))).resolve_left (by simp)
  rw [List.concat_eq_append] at hbehind
  rw [hbehind, ← List.append_assoc] at hlexemes
  obtain ⟨hothers, hfinal⟩ := List.append_inj' hlexemes rfl
  obtain rfl := List.singleton_injective hfinal
  have hcut : IsCut (before.map (Token.lexeme text) ++ others) := by
    rw [hothers]
    exact isCut_ofChars text.chars
  rw [htake, hdrop, charsOf_eq_flatMap_lexeme, charsOf_eq_flatMap_lexeme, hbehind,
    List.flatMap_append, List.flatMap_singleton, List.append_nil]
  have hfront := hcut.part (List.prefix_append _ _).isInfix
  have hback := hcut.part (List.suffix_append _ _).isInfix
  exact ⟨hfront.ofChars_flatMap, by rw [hback.ofChars_flatMap]⟩

/-- Loading characters without carriage returns gives a text of these characters. -/
theorem chars_ofString_ofList {cs : List Char} (h : '\r' ∉ cs) (document : DocumentId) :
    (ofString document (String.ofList cs)).chars = cs := by
  rw [chars_ofString, String.toList_ofList, normalizeLineEnds_eq_self h]

/-- Reading a text into tokens takes the longest lexeme at each place and depends on nothing in front.
A cursor that takes them one at a time, within a limit greater than the length of the text, takes the
tokens of the text. Those in front of any token, or of its end, have the characters in front of its
offset.
Each token has the longest prefix of the characters from its offset on that has the form of a lexeme,
of whatever kind, and no form but that of its own kind. If the text is cut at the offset of a token, or
at its end, and its two parts are loaded as texts, then the first one has the tokens in front of the
cut, and the second one those behind it, with the same kinds and characters. -/
theorem tokens_longest_and_local (h : text.Reachable) {before behind : List Token} {border : Token}
    (hborder : text.tokens.toList = before ++ border :: behind) (document : DocumentId) :
    let front := ofString document (String.ofList (text.chars.take border.offset))
    let rest := ofString document (String.ofList (text.chars.drop border.offset))
    (∀ limit, text.length < limit → Lexer.tokens text limit = some text.tokens.toList)
      ∧ text.charsOf before = text.chars.take border.offset
      ∧ (border.kind ≠ .endOfText →
        IsLongestForm (text.chars.drop border.offset) border.kind (border.chars text))
      ∧ front.tokens.toList.map (Token.lexeme front)
        = before.map (Token.lexeme text) ++ [⟨.endOfText, []⟩]
      ∧ rest.tokens.toList.map (Token.lexeme rest)
        = (border :: behind).map (Token.lexeme text) := by
  obtain ⟨hfront, hrest⟩ := ofChars_at_border hborder
  have hreturn := h.return_not_mem
  refine ⟨fun _ => Lexer.tokens_eq text, (chars_at_border hborder).1.symm, fun hkind => ?_, ?_, ?_⟩
  · cases hfound : ofChars (text.chars.drop border.offset) with
    | nil =>
      rw [hfound, List.nil_append, List.map_cons, List.cons.injEq] at hrest
      exact absurd (congrArg Lexeme.kind hrest.1.symm) hkind
    | cons first others =>
      rw [hfound, List.cons_append, List.map_cons, List.cons.injEq] at hrest
      obtain rfl := hrest.1
      exact isLongestForm_of_ofChars hfound
  · rw [map_lexeme_toList, chars_ofString_ofList (fun hmem => hreturn (List.mem_of_mem_take hmem)),
      hfront]
  · rw [map_lexeme_toList, chars_ofString_ofList (fun hmem => hreturn (List.mem_of_mem_drop hmem)),
      hrest]

/-- Three hyphens are two tokens, and a cut between them leaves both as they are. -/
theorem tokens_longest_and_local_threeHyphens :
    let text := ofString (.ofNat 0) "--->"
    let border : Token := ⟨.hyphen, 2, 1, ⟨.ofNat 0, ⟨0, 2⟩, ⟨0, 2⟩⟩⟩
    ∃ before behind, text.tokens.toList = before ++ border :: behind
      ∧ text.Reachable ∧ text.charsOf before = ['-', '-']
      ∧ IsLongestForm (text.chars.drop border.offset) .hyphen (border.chars text) := by
  have hborder : (ofString (.ofNat 0) "--->").tokens.toList
      = [⟨.doubleHyphen, 0, 2, ⟨.ofNat 0, ⟨0, 0⟩, ⟨0, 1⟩⟩⟩]
        ++ ⟨.hyphen, 2, 1, ⟨.ofNat 0, ⟨0, 2⟩, ⟨0, 2⟩⟩⟩
          :: [⟨.closeAngle, 3, 1, ⟨.ofNat 0, ⟨0, 3⟩, ⟨0, 3⟩⟩⟩,
            ⟨.endOfText, 4, 0, ⟨.ofNat 0, ⟨0, 4⟩, ⟨0, 4⟩⟩⟩] := by rfl
  have hreachable := Reachable.ofString (.ofNat 0) "--->"
  obtain ⟨-, hbefore, hlongest, -⟩ :=
    tokens_longest_and_local hreachable hborder (.ofNat 1)
  exact ⟨_, _, hborder, hreachable, hbefore.trans rfl, hlongest (by decide)⟩

end SourceText

end JobMarkup
