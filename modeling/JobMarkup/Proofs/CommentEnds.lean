import JobMarkup.Grammar.Reader
import JobMarkup.Proofs.CharacterClasses
import JobMarkup.Proofs.TagGrammar
import JobMarkup.Proofs.TokenRuns
import Mathlib.Algebra.Group.Nat.Even
import Mathlib.Data.List.DropRight

/-!
# Where a comment ends

A comment is cut into tokens before its end is looked for, and hyphens are paired from the left. So
the marks `-->` end a comment exactly if the hyphens in front of them pair up among themselves: the
run of hyphens at the end of the body has an even length. The first such place ends the comment; if
there is none, the comment goes on to the end of the text and is reported.
-/

namespace JobMarkup

namespace Lexeme

/-- The number of hyphens at the end of a text. -/
def trailingHyphens (cs : List Char) : Nat := (cs.rtakeWhile (· == '-')).length

/-- What is in front of the trailing hyphens does not end in a hyphen. -/
theorem exists_eq_append_hyphens (cs : List Char) :
    ∃ front : List Char, cs = front ++ List.replicate (trailingHyphens cs) '-'
      ∧ front.getLast? ≠ some '-' := by
  refine ⟨cs.rdropWhile (· == '-'), ?_, ?_⟩
  · have hhyphens : cs.rtakeWhile (· == '-') = List.replicate (trailingHyphens cs) '-' := by
      refine List.eq_replicate_iff.mpr ⟨rfl, fun c hc => ?_⟩
      simpa using List.mem_rtakeWhile_imp hc
    rw [← hhyphens, List.rdropWhile_append_rtakeWhile]
  · intro hlast
    have hne : cs.rdropWhile (· == '-') ≠ [] := by
      rintro hnil
      simp [hnil] at hlast
    have hnot := List.rdropWhile_last_not _ _ hne
    rw [List.getLast?_eq_some_getLast hne, Option.some.injEq] at hlast
    simp [hlast] at hnot

/-- A lexeme that no character extends is found whatever follows it. -/
theorem ofChars_closed_append (lexeme : Lexeme) (h : lexeme.Solid)
    (hclosed : isClosed lexeme.kind = true) (rest : List Char) :
    ofChars (lexeme.chars ++ rest) = lexeme :: ofChars rest :=
  h.ofChars_append fun c _ => extend?_of_isClosed hclosed c

/-- Hyphens in front of other characters are cut pair by pair. -/
theorem ofChars_pair_append (rest : List Char) :
    ofChars ('-' :: '-' :: rest) = ⟨.doubleHyphen, ['-', '-']⟩ :: ofChars rest :=
  ofChars_closed_append ⟨.doubleHyphen, ['-', '-']⟩ rfl rfl rest

/-- An even number of hyphens is cut into pairs, and of an odd number one is left over. -/
theorem getLast?_ofChars_hyphens (count : Nat) (hpos : 0 < count) :
    (ofChars (List.replicate count '-')).getLast?
      = some (if Even count then ⟨.doubleHyphen, ['-', '-']⟩ else ⟨.hyphen, ['-']⟩) := by
  induction count using Nat.twoStepInduction with
  | zero => exact absurd hpos (Nat.lt_irrefl 0)
  | one => rfl
  | more count ih _ =>
    rw [List.replicate_succ, List.replicate_succ, ofChars_pair_append]
    cases count with
    | zero => rfl
    | succ count =>
      rw [List.getLast?_cons, ih (Nat.succ_pos _)]
      simp [Nat.even_add_one]

/-- Behind an odd number of hyphens the last lexeme is a single hyphen. -/
theorem getLast?_ofChars_of_odd {cs : List Char} (h : ¬Even (trailingHyphens cs)) :
    (ofChars cs).getLast? = some ⟨.hyphen, ['-']⟩ := by
  obtain ⟨front, hcs, hfront⟩ := exists_eq_append_hyphens cs
  have hpos : 0 < trailingHyphens cs := by
    by_contra hzero
    exact h (by simp [Nat.eq_zero_of_not_pos hzero])
  have hlast := getLast?_ofChars_hyphens _ hpos
  rw [if_neg h] at hlast
  obtain ⟨count, hcount⟩ := Nat.exists_eq_succ_of_ne_zero hpos.ne'
  have hborder : Border front (List.replicate (trailingHyphens cs) '-') := by
    rw [hcount, List.replicate_succ]
    exact .hyphen hfront
  rw [hcs, ofChars_append hborder, List.getLast?_append, hlast]
  rfl

/-- A border is in front of a hyphen if the hyphens behind it pair up. -/
theorem Border.of_even {a b : List Char} (h : Even (trailingHyphens a)) : Border a ('-' :: b) := by
  obtain ⟨front, ha, hfront⟩ := exists_eq_append_hyphens a
  cases hcount : trailingHyphens a with
  | zero =>
    rw [hcount, List.replicate_zero, List.append_nil] at ha
    exact .hyphen (ha ▸ hfront)
  | succ count =>
    have hlast := getLast?_ofChars_hyphens _ (hcount ▸ Nat.succ_pos count : 0 < trailingHyphens a)
    rw [if_pos h] at hlast
    have hborder : Border front (List.replicate (trailingHyphens a) '-') := by
      rw [hcount, List.replicate_succ]
      exact .hyphen hfront
    refine .of_isClosed fun lexeme hlexeme => ?_
    rw [ha, ofChars_append hborder, List.getLast?_append, hlast] at hlexeme
    obtain rfl : ⟨.doubleHyphen, ['-', '-']⟩ = lexeme := by simpa using hlexeme
    rfl

end Lexeme

namespace Grammar

open Lexeme JobMarkup.Tree

/-- The text is a body, the marks `-->`, whose hyphens are not needed to pair up those at the end of
the body, and a rest. -/
def EndsComment (inner body rest : List Char) : Prop :=
  inner = body ++ '-' :: '-' :: '>' :: rest ∧ Even (trailingHyphens body)

/-- The body is the shortest one behind which a comment can end. -/
def FirstEndsComment (inner body rest : List Char) : Prop :=
  EndsComment inner body rest
    ∧ ∀ longer behind, EndsComment inner longer behind → body.length ≤ longer.length

/-- Where a comment can end, its closing marks are lexemes of their own. -/
theorem EndsComment.ofChars_eq {inner body rest : List Char} (h : EndsComment inner body rest) :
    ofChars inner = ofChars body
      ++ ⟨.doubleHyphen, ['-', '-']⟩ :: ⟨.closeAngle, ['>']⟩ :: ofChars rest := by
  have hangle : ofChars ('>' :: rest) = ⟨.closeAngle, ['>']⟩ :: ofChars rest :=
    ofChars_closed_append ⟨.closeAngle, ['>']⟩ rfl rfl rest
  rw [h.1, ofChars_append (.of_even h.2), ofChars_pair_append, hangle]

/-- Where the closing marks are lexemes of their own, a comment can end. -/
theorem EndsComment.of_ofChars_eq {inner : List Char} {front behind : List Lexeme}
    (h : ofChars inner = front
      ++ ⟨.doubleHyphen, ['-', '-']⟩ :: ⟨.closeAngle, ['>']⟩ :: behind) :
    EndsComment inner (front.flatMap chars) (behind.flatMap chars) := by
  refine ⟨?_, ?_⟩
  · have hchars := flatMap_chars_ofChars inner
    rw [h] at hchars
    simpa using hchars.symm
  · by_contra hodd
    have hcut := isCut_ofChars inner
    rw [h] at hcut
    have hfront := getLast?_ofChars_of_odd hodd
    rw [(hcut.part (List.prefix_append _ _).isInfix).ofChars_flatMap] at hfront
    -- the lexer would have paired the hyphen that is left over with the one behind it
    have hapart := (List.isChain_append.mp hcut.chain).2.2 _ hfront _ rfl '-' rfl
    exact absurd hapart (by decide)

/-- Comment contents do not go beyond marks that end a comment. -/
theorem length_commentContents_le {front behind : List Token} {closing angle : Token}
    (hclosing : closing.kind = .doubleHyphen) (hangle : angle.kind = .closeAngle) :
    (commentContents (front ++ closing :: angle :: behind)).1.length ≤ front.length := by
  induction front with
  | nil => simp [commentContents, hclosing, hangle]
  | cons token front ih =>
    rw [List.cons_append, commentContents]
    split
    · exact Nat.zero_le _
    · exact Nat.succ_le_succ ih

variable {text : SourceText}

/-- What is left of the tokens of a stretch of the text at an end of its comment. -/
theorem EndsComment.exists_tokens {tokens : List Token} {inner body rest : List Char}
    (hinner : tokens.map (Token.lexeme text) = ofChars inner) (h : EndsComment inner body rest) :
    ∃ front closing angle behind, tokens = front ++ closing :: angle :: behind
      ∧ text.charsOf front = body ∧ closing.kind = .doubleHyphen ∧ angle.kind = .closeAngle := by
  rw [h.ofChars_eq] at hinner
  obtain ⟨front, others, rfl, hfront, hothers⟩ := List.map_eq_append_iff.mp hinner
  obtain ⟨closing, others, rfl, hclosing, hothers⟩ := List.map_eq_cons_iff.mp hothers
  obtain ⟨angle, behind, rfl, hangle, -⟩ := List.map_eq_cons_iff.mp hothers
  refine ⟨front, closing, angle, behind, rfl, ?_, congrArg Lexeme.kind hclosing,
    congrArg Lexeme.kind hangle⟩
  rw [text.charsOf_eq_flatMap_lexeme, hfront, flatMap_chars_ofChars]

/-- Comment contents are the shortest body behind which the comment can end. -/
theorem firstEndsComment_commentContents {tokens behind : List Token} {closing angle : Token}
    {inner : List Char} (hinner : tokens.map (Token.lexeme text) = ofChars inner)
    (hcut : (commentContents tokens).2 = closing :: angle :: behind)
    (hclosing : closing.kind = .doubleHyphen) (hangle : angle.kind = .closeAngle) :
    FirstEndsComment inner (text.charsOf (commentContents tokens).1) (text.charsOf behind) := by
  have htokens := commentContents_append tokens
  rw [hcut] at htokens
  have hmarks : closing.lexeme text = ⟨.doubleHyphen, ['-', '-']⟩
      ∧ angle.lexeme text = ⟨.closeAngle, ['>']⟩ := by
    have hfits (token : Token) (hmem : token ∈ tokens) :
        Fits token.kind (token.chars text) := by
      have hlexeme := List.mem_map_of_mem (f := Token.lexeme text) hmem
      rw [hinner] at hlexeme
      exact fits_of_mem_ofChars _ hlexeme
    have hclosingFits := hfits closing (by rw [← htokens]; simp)
    have hangleFits := hfits angle (by rw [← htokens]; simp)
    rw [hclosing] at hclosingFits
    rw [hangle] at hangleFits
    exact ⟨by rw [Token.lexeme, hclosing, hclosingFits], by rw [Token.lexeme, hangle, hangleFits]⟩
  refine ⟨?_, fun longer rest hends => ?_⟩
  · rw [text.charsOf_eq_flatMap_lexeme, text.charsOf_eq_flatMap_lexeme]
    refine .of_ofChars_eq ?_
    rw [← hinner, ← htokens, List.map_append, List.map_cons, List.map_cons, hmarks.1, hmarks.2,
      htokens]
  · obtain ⟨front, second, last, others, hsplit, rfl, hsecond, hlast⟩ := hends.exists_tokens hinner
    have hlength := @length_commentContents_le front others _ _ hsecond hlast
    rw [← hsplit] at hlength
    have hfront : (commentContents tokens).1 <+: front := by
      refine List.prefix_of_prefix_length_le ⟨_, commentContents_append tokens⟩ ?_ hlength
      exact ⟨_, hsplit.symm⟩
    obtain ⟨more, hmore⟩ := hfront
    rw [← hmore, text.charsOf_append, List.length_append]
    exact Nat.le_add_right _ _

/-- Comment contents go on to the end only if the comment can end nowhere. -/
theorem not_endsComment_of_commentContents {tokens : List Token} {inner : List Char}
    (hinner : tokens.map (Token.lexeme text) = ofChars inner)
    (hcut : (commentContents tokens).2 = []) (body rest : List Char) :
    ¬EndsComment inner body rest := by
  intro hends
  obtain ⟨front, closing, angle, behind, rfl, -, hclosing, hangle⟩ := hends.exists_tokens hinner
  have hlength := @length_commentContents_le front behind _ _ hclosing hangle
  have hall := congrArg List.length (commentContents_append (front ++ closing :: angle :: behind))
  simp only [hcut, List.append_nil, List.length_append, List.length_cons] at hall hlength
  omega

end Grammar

namespace Grammar.Reader

open Lexeme JobMarkup.Tree

/-- A text that begins as a comment is cut into the two opening marks and the lexemes behind them. -/
theorem exists_tokens_of_comment {text : SourceText} {inner : List Char}
    (h : text.chars = '<' :: '!' :: '-' :: '-' :: inner) :
    ∃ bang hyphens inside, text.tokens.tokens = bang :: hyphens :: inside
      ∧ bang.kind = .openBang ∧ hyphens.kind = .doubleHyphen
      ∧ inside.map (Token.lexeme text) = ofChars inner := by
  have hbang (rest : List Char) :
      ofChars ('<' :: '!' :: rest) = ⟨.openBang, ['<', '!']⟩ :: ofChars rest :=
    ofChars_closed_append ⟨.openBang, ['<', '!']⟩ rfl rfl rest
  have hlexemes := text.map_lexeme_tokens
  rw [h, hbang, ofChars_pair_append] at hlexemes
  obtain ⟨bang, others, htokens, hbangLexeme, hothers⟩ := List.map_eq_cons_iff.mp hlexemes
  obtain ⟨hyphens, inside, rfl, hhyphensLexeme, hinside⟩ := List.map_eq_cons_iff.mp hothers
  exact ⟨bang, hyphens, inside, htokens, congrArg Lexeme.kind hbangLexeme,
    congrArg Lexeme.kind hhyphensLexeme, hinside⟩

/-- A text that begins with the opening marks of a comment is read as one. The comment ends at the
first marks `-->` whose hyphens are not needed to pair up hyphens in front of them, and nothing is
reported; or there are no such marks, the comment takes the whole text, and exactly this is
reported. -/
theorem read_comment (text : SourceText) (inner : List Char)
    (h : text.chars = '<' :: '!' :: '-' :: '-' :: inner) :
    ∃ comment after, (ofStream text.tokens).read .comment = (some (.comment comment), after)
      ∧ text.tokens.tokens = comment.tokens ++ after.rest
      ∧ ((∃ body rest, FirstEndsComment inner body rest
          ∧ comment.closing.isSome = true ∧ text.charsOf comment.contents = body
          ∧ text.charsOf comment.tokens = '<' :: '!' :: '-' :: '-' :: body ++ ['-', '-', '>']
          ∧ text.charsOf after.rest = rest ∧ after.diagnostics = [])
        ∨ ((∀ body rest, ¬EndsComment inner body rest)
          ∧ comment.closing = none ∧ text.charsOf comment.contents = inner ∧ after.rest = []
          ∧ after.diagnostics
            = [⟨.grammar .nonTerminatedComment, text.spanOf 0 (text.length - 1)⟩])) := by
  obtain ⟨bang, hyphens, inside, htokens, hbang, hhyphens, hinside⟩ := exists_tokens_of_comment h
  obtain ⟨-, hleft⟩ := commentContents_spec inside
  have hcontents := commentContents_append inside
  have hread {parsed : Parsed Comment} (hrule : Rule.comment text.tokens.tokens = some parsed) :
      (ofStream text.tokens).read .comment = (some (.comment parsed.value),
        ⟨text.tokens, parsed.rest, parsed.reports.map (diagnose text.tokens)⟩) := by
    simp [read, Production.rule, ofStream, Rule.map, hrule, Parsed.map]
  have hall := text.charsOf_tokens_tokens
  obtain hnil | ⟨closing, angle, behind, hcut, hclosing, hangle⟩ := hleft
  · rw [hnil, List.append_nil] at hcontents
    have hrule : Rule.comment text.tokens.tokens = some ⟨⟨[bang, hyphens], inside, none⟩, [],
        [⟨.nonTerminatedComment, text.tokens.tokens⟩]⟩ := by
      simp [htokens, Rule.comment, hbang, hhyphens, hnil, hcontents, Comment.tokens]
    refine ⟨_, _, hread hrule, by simp [htokens, Comment.tokens], Or.inr
      ⟨not_endsComment_of_commentContents hinside hnil, rfl, ?_, rfl, ?_⟩⟩
    · rw [text.charsOf_eq_flatMap_lexeme, hinside, flatMap_chars_ofChars]
    · have hcover := text.cover_tokens_tokens (by simp [htokens])
      simp [diagnose, TokenStream.spanOf, hcover]
  · rw [hcut] at hcontents
    have hrule : Rule.comment text.tokens.tokens = some
        ⟨⟨[bang, hyphens], (commentContents inside).1, some [closing, angle]⟩, behind, []⟩ := by
      simp [htokens, Rule.comment, hbang, hhyphens, hcut]
    have hsplit : text.tokens.tokens
        = Comment.tokens ⟨[bang, hyphens], (commentContents inside).1, some [closing, angle]⟩
          ++ behind := by
      rw [htokens]
      nth_rewrite 1 [← hcontents]
      simp [Comment.tokens]
    have hfirst := firstEndsComment_commentContents hinside hcut hclosing hangle
    refine ⟨_, _, hread hrule, hsplit, Or.inl ⟨_, _, hfirst, rfl, rfl, ?_, rfl, rfl⟩⟩
    -- what has been read is the text without the rest
    rw [hsplit, text.charsOf_append, h, hfirst.1.1] at hall
    refine (List.append_left_inj (text.charsOf behind)).mp ?_
    simpa using hall

/-- One hyphen too many in front of the bracket: the comment does not end. -/
theorem read_comment_unpaired :
    ∃ comment after, (ofStream (SourceText.ofString (.ofNat 0) "<!-- --->").tokens).read .comment
        = (some (.comment comment), after)
      ∧ comment.closing = none ∧ after.rest = []
      ∧ after.diagnostics = [⟨.grammar .nonTerminatedComment,
        (SourceText.ofString (.ofNat 0) "<!-- --->").spanOf 0 8⟩] := by
  obtain ⟨comment, after, hread, -, ⟨_, _, -, -, -, -, -, hclean⟩ | ⟨-, hnone, -, hrest, hreports⟩⟩ :=
    read_comment (SourceText.ofString (.ofNat 0) "<!-- --->") " --->".toList (by decide +kernel)
  · have hreported : ((ofStream (SourceText.ofString (.ofNat 0) "<!-- --->").tokens).read
        .comment).2.diagnostics ≠ [] := by
      decide +kernel
    rw [hread] at hreported
    exact absurd hclean hreported
  · exact ⟨comment, after, hread, hnone, hrest, hreports⟩

/-- Not every comment ends at the first marks `-->` behind its opening marks. -/
theorem not_forall_ends_at_first_marks :
    ¬∀ (text : SourceText) (inner body rest : List Char),
      text.chars = '<' :: '!' :: '-' :: '-' :: inner → inner = body ++ '-' :: '-' :: '>' :: rest →
      (∀ longer behind, inner = longer ++ '-' :: '-' :: '>' :: behind →
        body.length ≤ longer.length) →
      ∃ comment after, (ofStream text.tokens).read .comment = (some (.comment comment), after)
        ∧ text.charsOf after.rest = rest ∧ after.diagnostics = [] := by
  intro hall
  have hfirst (longer behind : List Char)
      (h : " --->".toList = longer ++ '-' :: '-' :: '>' :: behind) : 2 ≤ longer.length := by
    match longer, h with
    | [], h => simp at h
    | [_], h => simp at h
    | _ :: _ :: longer, _ => simp
  obtain ⟨comment, after, hread, -, hreports⟩ :=
    hall (SourceText.ofString (.ofNat 0) "<!-- --->") " --->".toList " -".toList []
      (by decide +kernel) (by decide) hfirst
  have hreported : ((ofStream (SourceText.ofString (.ofNat 0) "<!-- --->").tokens).read
      .comment).2.diagnostics ≠ [] := by
    decide +kernel
  rw [hread] at hreported
  exact hreported hreports

end Grammar.Reader

end JobMarkup
