import JobMarkup.Grammar.Element
import JobMarkup.Proofs.ContentGrammar

/-!
# The grammar of trivia and tags

Comments, trivia, closing tags and opening tags that are read without a report, together with the
tokens that are read for them. Blanks are left out of a tag, so a tag alone does not tell its tokens,
and its grammar is a relation between both.
-/

namespace JobMarkup.Grammar

open JobMarkup.Tree

/-! ## Blanks -/

/-- Tokens all of which are blank. -/
def AllBlank (tokens : List Token) : Prop := ∀ token ∈ tokens, token.isBlank = true

/-- The kinds other than blanks and line feeds. -/
def NotBlank (kind : TokenKind) : Prop := kind.isBlank = false

/-- A run of blanks is blank throughout. -/
theorem allBlank_takeWhile (tokens : List Token) : AllBlank (tokens.takeWhile Token.isBlank) :=
  fun _ hmem => List.mem_takeWhile_imp hmem

/-- Blanks and what is behind them are all tokens. -/
theorem takeWhile_append_skipBlanks (tokens : List Token) :
    tokens.takeWhile Token.isBlank ++ skipBlanks tokens = tokens :=
  List.takeWhile_append_dropWhile

/-- Behind the blanks that have been skipped, none follows. -/
theorem follows_skipBlanks (tokens : List Token) : Follows NotBlank (skipBlanks tokens) := by
  intro token hmem
  have hhead := List.head?_dropWhile_not Token.isBlank tokens
  rw [skipBlanks, Option.mem_def] at hmem
  rw [hmem] at hhead
  simpa [NotBlank, Token.isBlank] using hhead

/-- Blanks in front of something else are taken to their end and no further. -/
theorem takeWhile_blanks_append {blanks rest : List Token} (hblanks : AllBlank blanks)
    (hrest : Follows NotBlank rest) : (blanks ++ rest).takeWhile Token.isBlank = blanks := by
  rw [List.takeWhile_append_of_pos hblanks]
  cases rest with
  | nil => simp
  | cons token rest =>
    have htoken : token.isBlank = false := follows_cons.mp hrest
    simp [htoken]

/-- Blanks in front of something else are skipped to their end and no further. -/
theorem skipBlanks_append {blanks rest : List Token} (hblanks : AllBlank blanks)
    (hrest : Follows NotBlank rest) : skipBlanks (blanks ++ rest) = rest := by
  rw [skipBlanks, List.dropWhile_append_of_pos hblanks]
  cases rest with
  | nil => rfl
  | cons token rest =>
    have htoken : token.isBlank = false := follows_cons.mp hrest
    simp [htoken]

/-- Where no blank follows, none is skipped. -/
theorem skipBlanks_of_follows {rest : List Token} (h : Follows NotBlank rest) :
    skipBlanks rest = rest :=
  skipBlanks_append (by simp [AllBlank] : AllBlank []) h

/-! ## Comments and trivia -/

/-- A comment with its closing marks, which do not stand within it. -/
def IsComment (comment : Comment) : Prop :=
  ∃ bang hyphens contents closing angle,
    comment = ⟨[bang, hyphens], contents, some [closing, angle]⟩
      ∧ bang.kind = .openBang ∧ hyphens.kind = .doubleHyphen
      ∧ (commentContents contents).2 = []
      ∧ closing.kind = .doubleHyphen ∧ angle.kind = .closeAngle

/-- Comments and runs of blanks, each run as long as can be. -/
inductive IsTrivia : List Node → Prop
  | nil : IsTrivia []
  | comment {comment rest} : IsComment comment → IsTrivia rest → IsTrivia (.comment comment :: rest)
  | blanks {run rest} : run ≠ [] → AllBlank run → Follows NotBlank (nodeTokens rest) →
      IsTrivia rest → IsTrivia (.single run :: rest)

/-- Where comment contents are cut, the marks that end a comment follow. -/
theorem commentContents_spec (tokens : List Token) :
    (commentContents (commentContents tokens).1).2 = []
      ∧ ((commentContents tokens).2 = [] ∨ ∃ closing angle rest,
        (commentContents tokens).2 = closing :: angle :: rest
          ∧ closing.kind = .doubleHyphen ∧ angle.kind = .closeAngle) := by
  induction tokens with
  | nil => exact ⟨rfl, Or.inl rfl⟩
  | cons token rest ih =>
    rw [commentContents]
    split
    · next h =>
      refine ⟨rfl, Or.inr ?_⟩
      cases rest with
      | nil => simp at h
      | cons next rest => exact ⟨token, next, rest, rfl, h.1, by simpa using h.2⟩
    · next h =>
      refine ⟨?_, ih.2⟩
      have hstill : ¬(token.kind = .doubleHyphen
          ∧ (commentContents rest).1.head?.map Token.kind = some .closeAngle) := by
        rintro ⟨hhyphens, hangle⟩
        refine h ⟨hhyphens, ?_⟩
        obtain ⟨next, hnext, hkind⟩ := Option.map_eq_some_iff.mp hangle
        rw [← commentContents_append rest, List.head?_append, hnext]
        simpa using hkind
      rw [commentContents, if_neg hstill]
      exact ih.1

/-- Comment contents go on up to the marks that end the comment. -/
theorem commentContents_append_closing {contents : List Token}
    (h : (commentContents contents).2 = []) {closing angle : Token}
    (hclosing : closing.kind = .doubleHyphen) (hangle : angle.kind = .closeAngle)
    (rest : List Token) :
    commentContents (contents ++ closing :: angle :: rest) = (contents, closing :: angle :: rest) := by
  induction contents with
  | nil => simp [commentContents, hclosing, hangle]
  | cons token contents ih =>
    rw [commentContents] at h
    split at h
    · simp at h
    · next hcut =>
      have hstill : ¬(token.kind = .doubleHyphen ∧
          (contents ++ closing :: angle :: rest).head?.map Token.kind = some .closeAngle) := by
        rintro ⟨hhyphens, hnext⟩
        refine hcut ⟨hhyphens, ?_⟩
        cases contents with
        | nil => simp [hclosing] at hnext
        | cons next contents => simpa using hnext
      rw [List.cons_append, commentContents, if_neg hstill, ih h]

namespace Rule

/-- A comment without a report has closing marks that do not stand within it. -/
theorem comment_sound : comment.Sound IsComment := by
  intro tokens parsed h hreports
  match tokens, h with
  | bang :: hyphens :: rest, h =>
    obtain ⟨hcontents, hleft⟩ := commentContents_spec rest
    simp only [comment, Option.ite_none_right_eq_some] at h
    obtain ⟨⟨hbang, hhyphens⟩, h⟩ := h
    split at h
    · obtain rfl := Option.some.inj h
      simp at hreports
    · next hsome =>
      obtain rfl := Option.some.inj h
      obtain hleft | ⟨closing, angle, behind, hleft, hclosing, hangle⟩ := hleft
      · simp [hleft] at hsome
      · exact ⟨bang, hyphens, _, closing, angle, by simp [hleft], hbang, hhyphens, hcontents,
          hclosing, hangle⟩

/-- Every such comment is read as a whole, whatever follows its closing marks. -/
theorem comment_complete : comment.Complete Comment.tokens IsComment fun _ => True := by
  rintro value ⟨bang, hyphens, contents, closing, angle, rfl, hbang, hhyphens, hcontents, hclosing,
    hangle⟩ rest -
  have hcut := commentContents_append_closing hcontents hclosing hangle rest
  simp [comment, Comment.tokens, hbang, hhyphens, hcut]

end Rule

/-- The tokens begin neither with a blank, nor with a comment, nor with a tag. -/
def BeginsNoElement : List Token → Prop
  | [] => True
  | token :: rest => token.isBlank = false ∧ token.kind ≠ .openAngle
      ∧ ¬(token.kind = .openBang ∧ rest.head?.map Token.kind = some .doubleHyphen)

namespace BeginsNoElement

/-- Where no element begins, no blank follows. -/
theorem follows {tokens : List Token} (h : BeginsNoElement tokens) : Follows NotBlank tokens := by
  cases tokens with
  | nil => exact follows_nil
  | cons token rest => exact follows_cons.mpr h.1

/-- What follows does not matter, unless it could be the second mark of a comment. -/
theorem append {tokens rest : List Token} (h : BeginsNoElement tokens) (hne : tokens ≠ [])
    (hrest : Follows (· ≠ .doubleHyphen) rest) : BeginsNoElement (tokens ++ rest) := by
  obtain ⟨token, tokens, rfl⟩ := List.exists_cons_of_ne_nil hne
  obtain ⟨hblank, hangle, hcomment⟩ := h
  refine ⟨hblank, hangle, ?_⟩
  cases tokens with
  | cons next tokens => exact hcomment
  | nil =>
    cases rest with
    | nil => exact hcomment
    | cons next rest =>
      have hnext : next.kind ≠ .doubleHyphen := follows_cons.mp hrest
      simp [hnext]

/-- Where no element begins, none begins with fewer tokens either. -/
theorem of_append {tokens rest : List Token} (h : BeginsNoElement (tokens ++ rest)) :
    BeginsNoElement tokens := by
  cases tokens with
  | nil => exact trivial
  | cons token tokens =>
    obtain ⟨hblank, hangle, hcomment⟩ := h
    refine ⟨hblank, hangle, ?_⟩
    cases tokens with
    | cons next tokens => exact hcomment
    | nil => simp

end BeginsNoElement

namespace Rule

/-- A comment is declined exactly where its two opening tokens are not there. -/
theorem comment_eq_none_iff {token : Token} {rest : List Token} :
    comment (token :: rest) = none
      ↔ ¬(token.kind = .openBang ∧ rest.head?.map Token.kind = some .doubleHyphen) := by
  cases rest with
  | nil => simp [comment]
  | cons next rest =>
    by_cases h : token.kind = .openBang ∧ next.kind = .doubleHyphen
    · simp only [comment, if_pos h]
      split <;> simp [h]
    · have hnone : comment (token :: next :: rest) = none := by rw [comment, if_neg h]
      simp only [hnone, true_iff]
      simpa using h

/-- Blanks are declined exactly where the next token is no blank. -/
theorem blanks_eq_none_iff {token : Token} {rest : List Token} :
    blanks (token :: rest) = none ↔ token.isBlank = false := by
  simp [blanks, List.takeWhile_cons]

/-- Trivia are declined in front of what is neither a blank nor a comment. -/
theorem trivium_eq_none_iff {token : Token} {rest : List Token} :
    trivium (token :: rest) = none ↔ token.isBlank = false
      ∧ ¬(token.kind = .openBang ∧ rest.head?.map Token.kind = some .doubleHyphen) := by
  rw [← comment_eq_none_iff, ← @blanks_eq_none_iff token rest, trivium, orElse]
  cases hcomment : comment (token :: rest) <;> cases hblanks : blanks (token :: rest) <;>
    simp [Rule.map, hcomment, hblanks]

/-- A run of blanks is read as far as it goes. -/
theorem blanks_append {run rest : List Token} (hne : run ≠ []) (hblank : AllBlank run)
    (hrest : Follows NotBlank rest) : blanks (run ++ rest) = some ⟨run, rest, []⟩ := by
  rw [blanks, takeWhile_blanks_append hblank hrest, skipBlanks_append hblank hrest]
  simp [hne]

/-- A comment does not begin with a blank. -/
theorem comment_blanks_append {run : List Token} (hne : run ≠ []) (hblank : AllBlank run)
    (rest : List Token) : comment (run ++ rest) = none := by
  obtain ⟨token, run, rfl⟩ := List.exists_cons_of_ne_nil hne
  refine comment_eq_none_iff.mpr fun hbang => ?_
  have htoken := hblank token List.mem_cons_self
  simp [Token.isBlank, hbang.1, TokenKind.isBlank] at htoken

end Rule

/-- Where trivia are declined, no blank follows. -/
theorem follows_of_trivium_eq_none {rest : List Token} (h : Rule.trivium rest = none) :
    Follows NotBlank rest := by
  cases rest with
  | nil => exact follows_nil
  | cons token rest => exact follows_cons.mpr (Rule.trivium_eq_none_iff.mp h).1

/-- No trivia begin with the bracket of a tag. -/
theorem trivium_openAngle {bracket : Token} (h : bracket.kind = .openAngle) (rest : List Token) :
    Rule.trivium (bracket :: rest) = none := by
  simp [Rule.trivium_eq_none_iff, Token.isBlank, h, TokenKind.isBlank]

/-- Neither trivia nor a tag is read where no element begins. -/
theorem beginsNoElement_iff {tokens : List Token} :
    BeginsNoElement tokens
      ↔ Rule.trivium tokens = none ∧ Rule.token (· == .openAngle) tokens = none := by
  cases tokens with
  | nil => simp [BeginsNoElement, Rule.trivium, Rule.orElse, Rule.map, Rule.comment, Rule.blanks,
      Rule.token]
  | cons token rest =>
    rw [Rule.trivium_eq_none_iff, BeginsNoElement]
    simp only [Rule.token, ite_eq_right_iff, reduceCtorEq, imp_false, beq_iff_eq]
    constructor
    · intro h
      exact ⟨⟨h.1, h.2.2⟩, h.2.1⟩
    · intro h
      exact ⟨h.1.1, h.2, h.1.2⟩

/-- Trivia that are read without a report, and what they leave. -/
theorem trivia_sound {tokens : List Token} (h : (trivia tokens).reports = []) :
    IsTrivia (trivia tokens).value ∧ Rule.trivium (trivia tokens).rest = none := by
  refine ⟨?_, Rule.trivium_consumes.many_declines tokens⟩
  generalize hlength : tokens.length = length
  induction length using Nat.strong_induction_on generalizing tokens with
  | _ length ih =>
    have hexact := tokens_trivia tokens
    rw [trivia, Rule.many_eq Rule.trivium_consumes] at h hexact ⊢
    split at h
    · next hnone => simpa [hnone] using IsTrivia.nil
    next first hfirst =>
    simp only [hfirst] at hexact ⊢
    obtain ⟨hfirstReports, hothers⟩ := List.append_eq_nil_iff.mp h
    have hlt := (Rule.trivium_consumes tokens first hfirst).2
    have htrivia := ih _ (hlength ▸ hlt) hothers rfl
    rw [Rule.trivium, Rule.orElse] at hfirst
    split at hfirst
    · next comment hcomment =>
      obtain rfl := Option.some.inj hfirst
      simp only [Rule.map, Option.map_eq_some_iff] at hcomment
      obtain ⟨read, hread, rfl⟩ := hcomment
      exact .comment (Rule.comment_sound tokens read hread hfirstReports) htrivia
    · simp only [Rule.map, Rule.blanks, Option.map_eq_some_iff, Option.ite_none_left_eq_some,
        Option.some.injEq] at hfirst
      obtain ⟨run, ⟨hrun, rfl⟩, rfl⟩ := hfirst
      refine .blanks (mt List.isEmpty_iff.mpr hrun) (allBlank_takeWhile tokens) ?_ htrivia
      -- the tokens of the trivia behind the run begin like all tokens behind it
      have hbehind := follows_skipBlanks tokens
      rw [← tokens_trivia (skipBlanks tokens)] at hbehind
      exact hbehind.of_append

/-- Where no trivia are read, none are there. -/
theorem trivia_eq_nil {tokens : List Token} (h : (trivia tokens).value = []) :
    Rule.trivium tokens = none ∧ (trivia tokens).rest = tokens := by
  rw [trivia, Rule.many_eq Rule.trivium_consumes] at h ⊢
  split at h
  · next hnone => exact ⟨hnone, rfl⟩
  · simp at h

/-- Trivia are read up to what is none. -/
theorem trivia_complete {nodes : List Node} (h : IsTrivia nodes) {rest : List Token}
    (hrest : Rule.trivium rest = none) :
    trivia (nodeTokens nodes ++ rest) = ⟨nodes, rest, []⟩ := by
  refine Rule.ReadsMany.many_eq Rule.trivium_consumes ?_
  induction h with
  | nil => exact .nil hrest
  | @comment comment others hcomment _ ih =>
    refine .cons ?_ ih
    have hread := Rule.comment_complete comment hcomment (nodeTokens others ++ rest)
      fun _ _ => trivial
    simp [Rule.trivium, Rule.orElse, Rule.map, hread, Parsed.map]
  | @blanks run others hne hblank hfollows _ ih =>
    refine .cons ?_ ih
    have hbehind := hfollows.append (follows_of_trivium_eq_none hrest)
    have hread := Rule.blanks_append hne hblank hbehind
    have hcomment := Rule.comment_blanks_append hne hblank (nodeTokens others ++ rest)
    rw [nodeTokens_cons, Node.tokens_single, List.append_assoc]
    simp [Rule.trivium, Rule.orElse, Rule.map, hcomment, hread, Parsed.map]

/-! ## Closing tags -/

/-- A closing tag with its name and its end, and the tokens that are read for it. -/
inductive ReadsClosingTag : ClosingTag → List Token → Prop
  | intro {opening name closing before behind} : opening.kind = .openSlash → AllBlank before →
      name.kind = .letters → AllBlank behind → closing.kind = .closeAngle →
      ReadsClosingTag ⟨[opening], some [name], some [closing]⟩
        (opening :: (before ++ name :: (behind ++ [closing])))

/-- A mark in front of which blanks are skipped stands behind those blanks. -/
theorem token_skipBlanks_eq_some {accepts : TokenKind → Bool} {tokens : List Token}
    {parsed : Parsed (List Token)} (h : Rule.token accepts (skipBlanks tokens) = some parsed) :
    ∃ blanks token, tokens = blanks ++ token :: parsed.rest ∧ AllBlank blanks
      ∧ accepts token.kind = true ∧ parsed.value = [token] := by
  refine ⟨tokens.takeWhile Token.isBlank, ?_⟩
  cases hskip : skipBlanks tokens with
  | nil => simp [hskip, Rule.token] at h
  | cons token rest =>
    rw [hskip] at h
    simp only [Rule.token, Option.ite_none_right_eq_some, Option.some.injEq] at h
    obtain ⟨haccepts, rfl⟩ := h
    refine ⟨token, ?_, allBlank_takeWhile tokens, haccepts, rfl⟩
    rw [← hskip, takeWhile_append_skipBlanks]

/-- Blanks are skipped up to a token that is no blank, whatever follows it. -/
theorem skipBlanks_append_cons {blanks : List Token} (hblanks : AllBlank blanks) {token : Token}
    (htoken : token.kind.isBlank = false) (rest : List Token) :
    skipBlanks (blanks ++ token :: rest) = token :: rest :=
  skipBlanks_append hblanks (follows_cons.mpr htoken)

namespace Rule

/-- A closing tag without a report has its name and its end, with blanks around the name. -/
theorem closingTag_sound {tokens : List Token} {parsed : Parsed ClosingTag}
    (h : closingTag tokens = some parsed) (hreports : parsed.reports = []) :
    ∃ read, tokens = read ++ parsed.rest ∧ ReadsClosingTag parsed.value read := by
  cases tokens with
  | nil => simp [closingTag] at h
  | cons opening rest =>
    simp only [closingTag, Option.ite_none_right_eq_some, Option.some.injEq] at h
    obtain ⟨hopening, rfl⟩ := h
    rw [closingTagName] at hreports ⊢
    split at hreports
    · simp at hreports
    next name hname =>
    obtain ⟨before, nameToken, hrest, hbefore, hnameKind, hnameValue⟩ :=
      token_skipBlanks_eq_some hname
    rw [closingTagEnd] at hreports ⊢
    rw [reportIf_eq_nil_iff, Option.isNone_eq_false_iff, Option.isSome_iff_exists] at hreports
    obtain ⟨slot, hslot⟩ := hreports
    rw [Rule.optional] at hslot ⊢
    split at hslot
    · next closing hclosing =>
      obtain ⟨behind, closingToken, hnameRest, hbehind, hclosingKind, hclosingValue⟩ :=
        token_skipBlanks_eq_some hclosing
      refine ⟨opening :: (before ++ nameToken :: (behind ++ [closingToken])), ?_, ?_⟩
      · simp [hrest, hnameRest, Parsed.map]
      · simp only [Parsed.map, hnameValue, hclosingValue]
        exact .intro hopening hbefore (by simpa using hnameKind) hbehind
          (by simpa using hclosingKind)
    · simp at hslot

/-- Every complete closing tag is read as a whole, whatever follows it. -/
theorem closingTag_complete {tag : ClosingTag} {read : List Token} (h : ReadsClosingTag tag read)
    (rest : List Token) : closingTag (read ++ rest) = some ⟨tag, rest, []⟩ := by
  obtain ⟨hopening, hbefore, hname, hbehind, hclosing⟩ := h
  rename_i opening name closing before behind
  have hskipName := skipBlanks_append_cons hbefore (by rw [hname]; rfl : name.kind.isBlank = false)
    (behind ++ closing :: rest)
  have hskipClosing := skipBlanks_append_cons hbehind
    (by rw [hclosing]; rfl : closing.kind.isBlank = false) rest
  have hend := optional_token (· == .closeAngle) (by simpa using hclosing) rest
  simp [closingTag, hopening, closingTagName, hskipName, Rule.token, hname, closingTagEnd,
    hskipClosing, hend, reportIf]

end Rule

/-! ## Opening tags -/

/-- Attributes, and the tokens that are read for them: blanks stand in front of each. -/
inductive ReadsAttributes : List Attribute → List Token → Prop
  | nil : ReadsAttributes [] []
  | cons {blanks attr attributes tokens} : blanks ≠ [] → AllBlank blanks → IsAttribute attr →
      ReadsAttributes attributes tokens →
      ReadsAttributes (attr :: attributes) (blanks ++ (attr.tokens ++ tokens))

/-- The name, the attributes and the end of an opening tag, and the tokens that are read for them
behind the bracket. -/
inductive ReadsOpenTag : (name : Token) → List Attribute → (tagEnd : Token) → List Token → Prop
  | intro {before name attributes tokens behind tagEnd} : AllBlank before → name.kind = .letters →
      ReadsAttributes attributes tokens → AllBlank behind → tagEnd.isTagEnd = true →
      ReadsOpenTag name attributes tagEnd (before ++ name :: (tokens ++ (behind ++ [tagEnd])))

/-- A partial symbol begins with letters. -/
theorem IsPartialSymbol.follows {tokens : List Token} (h : IsPartialSymbol tokens)
    (rest : List Token) : Follows (· = .letters) (tokens ++ rest) := by
  cases tokens with
  | nil => exact absurd h id
  | cons token tail => exact follows_cons.mpr h.1

/-- An attribute begins with letters. -/
theorem IsAttribute.follows {attr : Attribute} (h : IsAttribute attr) (rest : List Token) :
    Follows (· = .letters) (attr.tokens ++ rest) := by
  obtain ⟨name, equal, openQuote, contents, closeQuote, rfl, hname, -⟩ := h
  simp only [Attribute.tokens_eq, List.append_assoc]
  exact hname.follows _

/-- What ends a tag is no blank, so blanks in front of it are told apart from it. -/
theorem not_isBlank_of_isTagEnd {token : Token} (h : token.isTagEnd = true) :
    token.kind.isBlank = false := by
  rw [Token.isTagEnd] at h
  cases hkind : token.kind <;> simp_all [TokenKind.isTagEnd, TokenKind.isBlank]

/-- Attributes that are read without a report, each with the blanks in front of it. -/
theorem spacedAttributes_sound {tokens : List Token}
    (h : (Rule.spacedAttribute.many tokens).reports = []) :
    ∃ read, tokens = read ++ (Rule.spacedAttribute.many tokens).rest
      ∧ ReadsAttributes (Rule.spacedAttribute.many tokens).value read := by
  generalize hlength : tokens.length = length
  induction length using Nat.strong_induction_on generalizing tokens with
  | _ length ih =>
    rw [Rule.many_eq Rule.spacedAttribute_consumes] at h ⊢
    split at h
    · next hnone => exact ⟨[], by simp, .nil⟩
    next first hfirst =>
    have hlt := (Rule.spacedAttribute_consumes tokens first hfirst).2
    obtain ⟨hfirstReports, hothers⟩ := List.append_eq_nil_iff.mp h
    obtain ⟨read, hread, hattributes⟩ := ih _ (hlength ▸ hlt) hothers rfl
    simp only [Rule.spacedAttribute, Option.map_eq_some_iff] at hfirst
    obtain ⟨parsed, hparsed, rfl⟩ := hfirst
    obtain ⟨hparsedReports, hspacing⟩ := List.append_eq_nil_iff.mp hfirstReports
    have hexact := Rule.attribute_exact _ parsed hparsed
    refine ⟨tokens.takeWhile Token.isBlank ++ (parsed.value.tokens ++ read), ?_, ?_⟩
    · rw [List.append_assoc, List.append_assoc, ← hread, hexact, takeWhile_append_skipBlanks]
    · refine .cons ?_ (allBlank_takeWhile tokens)
        (Rule.attribute_sound _ parsed hparsed hparsedReports) hattributes
      cases tokens with
      | nil => simp [reportIf] at hspacing
      | cons token tokens =>
        have htoken : token.isBlank = true := by simpa [reportIf_eq_nil_iff] using hspacing
        simp [htoken]

/-- The attributes of a tag are read one by one, up to where no further one begins. -/
theorem spacedAttributes_complete {attributes : List Attribute} {read : List Token}
    (h : ReadsAttributes attributes read) {rest : List Token}
    (hrest : Rule.spacedAttribute rest = none) :
    Rule.ReadsMany Rule.spacedAttribute attributes (read ++ rest) rest := by
  induction h with
  | nil => exact .nil hrest
  | @cons blanks attr attributes tokens hne hblanks hattr _ ih =>
    rw [List.append_assoc, List.append_assoc]
    refine .cons ?_ ih
    have hread := Rule.attribute_complete attr hattr (tokens ++ rest) fun _ _ => trivial
    have hfollows : Follows NotBlank (attr.tokens ++ (tokens ++ rest)) :=
      (hattr.follows _).imp fun kind hkind => by rw [hkind]; rfl
    have hskip := skipBlanks_append hblanks hfollows
    obtain ⟨token, blanks, rfl⟩ := List.exists_cons_of_ne_nil hne
    have htoken := hblanks token List.mem_cons_self
    rw [Rule.spacedAttribute, hskip, hread]
    simp [htoken, reportIf]

/-- Behind the attributes of a tag, blanks and the end of the tag follow. -/
theorem spacedAttribute_declines {behind : List Token} (hbehind : AllBlank behind)
    {tagEnd : Token} (h : tagEnd.isTagEnd = true) (rest : List Token) :
    Rule.spacedAttribute (behind ++ tagEnd :: rest) = none := by
  have hskip := skipBlanks_append_cons hbehind (not_isBlank_of_isTagEnd h) rest
  have hkind : tagEnd.kind ≠ .letters := by
    intro hkind
    simp [Token.isTagEnd, hkind, TokenKind.isTagEnd] at h
  simp [Rule.spacedAttribute, hskip, Rule.attribute, Rule.partialSymbol, hkind]

/-- The name, the attributes and the end of a tag that is read without a report have the tokens of
its slots. -/
theorem namedTag_sound {element : Element} {tokens : List Token}
    (h : (namedTag element tokens).reports = []) :
    ∃ name attributes middle behind tagEnd,
      tokens = name :: (middle ++ (behind ++ tagEnd :: (namedTag element tokens).rest))
        ∧ (namedTag element tokens).value
          = { element with name := some [name], attributes, tagEnd := some [tagEnd] }
        ∧ name.kind = .letters ∧ ReadsAttributes attributes middle ∧ AllBlank behind
        ∧ tagEnd.isTagEnd = true := by
  rw [namedTag] at h ⊢
  simp only [List.append_eq_nil_iff, List.map_eq_nil_iff, reportIf_eq_nil_iff,
    Option.isNone_eq_false_iff, Option.isSome_iff_exists] at h
  obtain ⟨⟨⟨hname, hattributes⟩, hstrays⟩, slot, hslot⟩ := h
  obtain ⟨middle, hmiddle, hreads⟩ := spacedAttributes_sound hattributes
  obtain ⟨tagEnd, rest, hbehind, htagEnd, rfl, hrest⟩ := Rule.optional_token_eq_some hslot
  rw [tagName, reportIf_eq_nil_iff, bne_eq_false_iff_eq] at hname
  obtain ⟨name, hnameTokens, hnameKind⟩ : ∃ name, tokens.takeWhile isTagName = [name]
      ∧ name.kind = .letters := by
    simpa [List.map_eq_singleton_iff] using hname
  -- no token is left out between the attributes and the end of the tag
  have hend : skipBlanks (Rule.spacedAttribute.many (tagName tokens).rest).rest
      = tagEnd :: rest := by
    rw [← hbehind]
    have hsplit := List.takeWhile_append_dropWhile (p := fun token : Token => !token.isTagEnd)
      (l := skipBlanks (Rule.spacedAttribute.many (tagName tokens).rest).rest)
    rw [hstrays, List.nil_append] at hsplit
    exact hsplit.symm
  refine ⟨name, _, middle, (Rule.spacedAttribute.many (tagName tokens).rest).rest.takeWhile
    Token.isBlank, tagEnd, ?_, ?_, hnameKind, hreads, allBlank_takeWhile _, htagEnd⟩
  · rw [hrest, ← hend, takeWhile_append_skipBlanks, ← hmiddle]
    have hsplit := List.takeWhile_append_dropWhile (p := isTagName) (l := tokens)
    rw [hnameTokens] at hsplit
    exact hsplit.symm
  · rw [hslot]
    simp [tagName, hnameTokens]

/-- What follows the name of a tag does not belong to the name. -/
theorem exists_not_isTagName {attributes : List Attribute} {middle behind : List Token}
    (hattributes : ReadsAttributes attributes middle) (hbehind : AllBlank behind) {tagEnd : Token}
    (htagEnd : tagEnd.isTagEnd = true) (rest : List Token) :
    ∃ token others, middle ++ (behind ++ tagEnd :: rest) = token :: others
      ∧ isTagName token = false := by
  cases hattributes with
  | nil =>
    cases behind with
    | nil => exact ⟨tagEnd, rest, rfl, by simp [isTagName, htagEnd]⟩
    | cons token behind =>
      exact ⟨token, _, rfl, by simp [isTagName, hbehind token List.mem_cons_self]⟩
  | @cons blanks attr attributes tokens hne hblanks _ _ =>
    obtain ⟨token, blanks, rfl⟩ := List.exists_cons_of_ne_nil hne
    exact ⟨token, _, rfl, by simp [isTagName, hblanks token List.mem_cons_self]⟩

/-- A name, attributes and the end of a tag are read as such. -/
theorem namedTag_complete (element : Element) {name tagEnd : Token} (hname : name.kind = .letters)
    {attributes : List Attribute} {middle : List Token} (hattributes : ReadsAttributes attributes middle)
    {behind : List Token} (hbehind : AllBlank behind) (htagEnd : tagEnd.isTagEnd = true)
    (rest : List Token) :
    namedTag element (name :: (middle ++ (behind ++ tagEnd :: rest)))
      = ⟨{ element with name := some [name], attributes, tagEnd := some [tagEnd] }, rest, []⟩ := by
  have hmany := (spacedAttributes_complete hattributes
    (spacedAttribute_declines hbehind htagEnd rest)).many_eq Rule.spacedAttribute_consumes
  have hskip := skipBlanks_append_cons hbehind (not_isBlank_of_isTagEnd htagEnd) rest
  obtain ⟨next, others, hnext, hnextKind⟩ := exists_not_isTagName hattributes hbehind htagEnd rest
  have hnameToken : isTagName name = true := by
    simp [isTagName, Token.isBlank, Token.isTagEnd, hname, TokenKind.isBlank, TokenKind.isTagEnd]
  have hread : tagName (name :: (middle ++ (behind ++ tagEnd :: rest)))
      = ⟨[name], middle ++ (behind ++ tagEnd :: rest), []⟩ := by
    simp [tagName, hnext, hnextKind, hnameToken, hname, reportIf]
  have hslot := Rule.optional_token TokenKind.isTagEnd htagEnd rest
  simp [namedTag, hread, hmany, hskip, htagEnd, hslot, reportIf]

/-- An opening tag that is read without a report has the tokens of its slots. -/
theorem openTag_sound {leading : List Node} {bracket tokens : List Token}
    (h : (openTag leading bracket tokens).reports = []) :
    ∃ name attributes tagEnd read, tokens = read ++ (openTag leading bracket tokens).rest
      ∧ (openTag leading bracket tokens).value
        = { leadingTrivia := leading, openBracket := some bracket, name := some [name], attributes,
            tagEnd := some [tagEnd] }
      ∧ ReadsOpenTag name attributes tagEnd read := by
  have hsplit := takeWhile_append_skipBlanks tokens
  rw [openTag] at h ⊢
  split at h
  · simp at h
  next first rest hskip =>
  split at h
  · simp at h
  next hend =>
  obtain ⟨name, attributes, middle, behind, tagEnd, htokens, hvalue, hname, hattributes, hbehind,
    htagEnd⟩ := namedTag_sound h
  refine ⟨name, attributes, tagEnd, _, ?_, ?_,
    .intro (allBlank_takeWhile tokens) hname hattributes hbehind htagEnd⟩
  · rw [hskip, htokens] at hsplit
    rw [if_neg hend]
    simpa using hsplit.symm
  · rw [if_neg hend]
    exact hvalue

/-- An opening tag is read up to its end. -/
theorem openTag_complete (leading : List Node) (bracket : List Token) {name tagEnd : Token}
    {attributes : List Attribute} {read : List Token}
    (h : ReadsOpenTag name attributes tagEnd read) (rest : List Token) :
    openTag leading bracket (read ++ rest)
      = ⟨{ leadingTrivia := leading, openBracket := some bracket, name := some [name], attributes,
           tagEnd := some [tagEnd] }, rest, []⟩ := by
  obtain ⟨hbefore, hname, hattributes, hbehind, htagEnd⟩ := h
  rename_i before middle behind
  have hskip := skipBlanks_append_cons hbefore (by rw [hname]; rfl : name.kind.isBlank = false)
    (middle ++ (behind ++ tagEnd :: rest))
  have hnameEnd : name.isTagEnd = false := by simp [Token.isTagEnd, hname, TokenKind.isTagEnd]
  have hnamed := namedTag_complete { leadingTrivia := leading, openBracket := some bracket } hname
    hattributes hbehind htagEnd rest
  simp only [List.append_assoc, List.cons_append, List.nil_append]
  rw [openTag, hskip]
  simp [hnameEnd, hnamed]

end JobMarkup.Grammar
