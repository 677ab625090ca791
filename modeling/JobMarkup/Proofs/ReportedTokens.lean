import JobMarkup.Proofs.TreeShape

/-!
# What reports are about

Every report of a rule is about tokens that the rule has found, and about at least one of them. So
the place of a report is always that of tokens, and the end of the text never stands in for it.

A rule that goes on where another one has stopped may report tokens from in front of it as well: an
attribute without a closing quote is reported as a whole, from its name on. What such a rule reports
is compared with the tokens that have been kept so far and those in front.
-/

namespace JobMarkup.Grammar

open JobMarkup.Tree

/-- Each report is about at least one token, and about some of the given tokens in their order. -/
def Grounded (reports : List Report) (tokens : List Token) : Prop :=
  ∀ report ∈ reports, report.about ≠ [] ∧ report.about.Sublist tokens

namespace Grounded

variable {reports others : List Report} {fault : GrammarFault} {about tokens all : List Token}

/-- Without reports, any tokens will do. -/
theorem nil (tokens : List Token) : Grounded [] tokens := by simp [Grounded]

/-- Reports that come one after the other are about the same tokens together. -/
theorem append (h : Grounded reports tokens) (hothers : Grounded others tokens) :
    Grounded (reports ++ others) tokens :=
  List.forall_mem_append.mpr ⟨h, hothers⟩

/-- Reports about some tokens are about any tokens among which these are, in order. -/
theorem of_sublist (h : Grounded reports tokens) (hsub : tokens.Sublist all) :
    Grounded reports all :=
  fun report hmem => (h report hmem).imp_right fun habout => habout.trans hsub

/-- A single report is about tokens if there is at least one of them. -/
theorem singleton (hne : about ≠ []) (hsub : about.Sublist tokens) :
    Grounded [⟨fault, about⟩] tokens := by
  simpa [Grounded] using ⟨hne, hsub⟩

/-- A report with a condition is about tokens whether or not the condition holds. -/
theorem reportIf {condition : Bool} (hne : about ≠ []) (hsub : about.Sublist tokens) :
    Grounded (reportIf condition fault about) tokens := by
  rw [Grammar.reportIf]
  split
  · exact .singleton hne hsub
  · exact .nil tokens

end Grounded

/-- The reports of the rule are about tokens that it finds. -/
def Rule.Grounds {α : Type} (rule : Rule α) : Prop :=
  ∀ tokens parsed, rule tokens = some parsed → Grounded parsed.reports tokens

variable {α β : Type}

namespace Rule

/-- A rule that keeps what it reads and reads something keeps something. -/
theorem Exact.tokens_ne_nil {rule : Rule α} {tokensOf : α → List Token} (h : rule.Exact tokensOf)
    (hconsumes : rule.Consumes) {tokens : List Token} {parsed : Parsed α}
    (hparsed : rule tokens = some parsed) : tokensOf parsed.value ≠ [] := by
  intro hnil
  have hrest := h tokens parsed hparsed
  have hlt := (hconsumes tokens parsed hparsed).2
  rw [hnil, List.nil_append] at hrest
  exact absurd hlt (by simp [hrest])

/-- What a rule that keeps every token has kept comes in order among the tokens. -/
theorem Exact.sublist {rule : Rule α} {tokensOf : α → List Token} (h : rule.Exact tokensOf)
    {tokens : List Token} {parsed : Parsed α} (hparsed : rule tokens = some parsed) :
    (tokensOf parsed.value).Sublist tokens := by
  rw [← h tokens parsed hparsed]
  exact List.sublist_append_left _ _

/-- What is made of the value of a rule does not change what it reports about. -/
theorem Grounds.map {rule : Rule α} (h : rule.Grounds) (f : α → β) : (rule.map f).Grounds := by
  intro tokens parsed hparsed
  simp only [Rule.map, Option.map_eq_some_iff] at hparsed
  obtain ⟨read, hread, rfl⟩ := hparsed
  exact h tokens read hread

/-- A choice reports about the tokens that it finds, whichever rule it is that reads them. -/
theorem Grounds.orElse {first second : Rule α} (hfirst : first.Grounds)
    (hsecond : second.Grounds) : (first.orElse second).Grounds := by
  intro tokens parsed hparsed
  rw [Rule.orElse] at hparsed
  split at hparsed
  · next read hread => exact hfirst tokens parsed (hread.trans hparsed)
  · exact hsecond tokens parsed hparsed

/-- An optional part reports about the tokens that it finds, and nothing where the rule declines. -/
theorem Grounds.optional {rule : Rule α} (h : rule.Grounds) (tokens : List Token) :
    Grounded (rule.optional tokens).reports tokens := by
  rw [Rule.optional]
  split
  · next parsed hparsed => exact h tokens parsed hparsed
  · exact .nil tokens

/-- Repetition goes on behind what has been read. -/
theorem Grounds.many {rule : Rule α} (h : rule.Grounds) (hconsumes : rule.Consumes)
    (tokens : List Token) : Grounded (rule.many tokens).reports tokens := by
  rw [Rule.many]
  generalize tokens.length = bound
  induction bound generalizing tokens with
  | zero => exact .nil tokens
  | succ bound ih =>
    rw [atMost]
    split
    · exact .nil tokens
    · next first hfirst =>
      have hrest := (hconsumes tokens first hfirst).1.sublist
      exact (h tokens first hfirst).append ((ih first.rest).of_sublist hrest)

/-! ## Symbols and content -/

/-- A partial symbol reports nothing. -/
theorem partialSymbol_grounds : partialSymbol.Grounds := by
  intro tokens parsed h
  rw [reports_partialSymbol h]
  exact .nil _

/-- A part that is missing is reported at its delimiter, which is one of the tokens. -/
theorem delimitedPart_grounds (delimiter : TokenKind) (missing : GrammarFault) {part : Rule Node}
    (hpart : part.Grounds) : (delimitedPart delimiter missing part).Grounds := by
  intro tokens parsed h
  obtain ⟨token, rest, rfl, -, ⟨next, hnext, rfl⟩ | ⟨-, rfl⟩⟩ := delimitedPart_eq_some h
  · exact (hpart rest next hnext).of_sublist (List.sublist_cons_self token rest)
  · exact .singleton (List.cons_ne_nil _ _) (by simp)

/-- Parts with delimiters report about tokens that they find. -/
theorem joined_grounds (delimiter : TokenKind) (missing : GrammarFault) {part : Rule Node}
    (hpart : part.Grounds) (hconsumes : part.Consumes) :
    (joined delimiter missing part).Grounds := by
  intro tokens parsed h
  simp only [joined, Option.map_eq_some_iff] at h
  obtain ⟨first, hfirst, rfl⟩ := h
  have hothers := (delimitedPart_grounds delimiter missing hpart).many
    (delimitedPart_consumes delimiter missing hconsumes) first.rest
  exact (hpart tokens first hfirst).append
    (hothers.of_sublist (hconsumes tokens first hfirst).1.sublist)

/-- A namespace that is missing is reported at the whole symbol, which has tokens. -/
theorem namespacedSymbol_grounds : namespacedSymbol.Grounds := by
  have hcompound : compoundSymbol.Grounds := joined_grounds _ _
    (partialSymbol_grounds.map Node.partialSymbol) (partialSymbol_consumes.map Node.partialSymbol)
  intro tokens parsed h
  have hne := namespacedSymbol_exact.tokens_ne_nil namespacedSymbol_consumes h
  have hsub := namespacedSymbol_exact.sublist h
  simp only [namespacedSymbol, Option.map_eq_some_iff] at h
  obtain ⟨symbol, hsymbol, rfl⟩ := h
  have hjoined := joined_grounds .slash .incompleteNamespacedSymbol
    (hcompound.map Node.compoundSymbol) (compoundSymbol_consumes.map Node.compoundSymbol)
  exact (hjoined tokens symbol hsymbol).append (.reportIf hne hsub)

/-- An interpolation without its symbol or its closing mark is reported at its own tokens. -/
theorem interpolation_grounds : interpolation.Grounds := by
  intro tokens parsed h
  have hne := interpolation_exact.tokens_ne_nil interpolation_consumes h
  have hsub := interpolation_exact.sublist h
  cases tokens with
  | nil => simp [interpolation] at h
  | cons token rest =>
    simp only [interpolation, Option.ite_none_right_eq_some, Option.some.injEq] at h
    obtain ⟨-, rfl⟩ := h
    have hsymbol := namespacedSymbol_grounds.optional rest
    exact (hsymbol.of_sublist (List.sublist_cons_self token rest)).append (.reportIf hne hsub)

/-- A piece of content reports about tokens that it finds. -/
theorem contentPiece_grounds (terminators : List TokenKind) :
    (contentPiece terminators).Grounds := by
  intro tokens parsed h
  obtain h | ⟨token, rest, rfl, -, -, rfl⟩ := contentPiece_eq_some h
  · exact interpolation_grounds.map Node.interpolation tokens parsed h
  · exact .nil _

/-- Content reports about tokens that it finds. -/
theorem content_grounds (terminators : List TokenKind) : (content terminators).Grounds := by
  intro tokens parsed h
  simp only [content, Option.ite_none_left_eq_some, Option.some.injEq] at h
  obtain ⟨-, rfl⟩ := h
  exact (contentPiece_grounds terminators).many (contentPiece_consumes terminators) tokens

end Rule

/-! ## Attributes -/

section Attributes

variable {name : List Token} (hname : name ≠ [])
include hname

/-- A value without a closing quote is reported at the whole attribute, from its name on. -/
theorem attributeValue_grounded (equal openQuote tokens : List Token) :
    Grounded
      (attributeValue { name, equal := some equal, openQuote := some openQuote } tokens).reports
      (name ++ equal ++ openQuote ++ tokens) := by
  have htokens := tokens_attributeValue name equal openQuote tokens
  have hcontents := (Rule.content_grounds attributeValueEnds).optional tokens
  refine (hcontents.of_sublist (List.sublist_append_right _ _)).append (.reportIf ?_ ?_)
  · simp [Attribute.tokens_eq, hname]
  · rw [← htokens]
    exact List.sublist_append_left _ _

/-- What follows an equals sign is reported at the attribute so far, or at what it finds. -/
theorem quotedValue_grounded (equal tokens : List Token) :
    Grounded (quotedValue { name, equal := some equal } tokens).reports
      (name ++ equal ++ tokens) := by
  rw [quotedValue]
  split
  · exact .singleton (by simp [Attribute.tokens_eq, hname]) (by simp [Attribute.tokens_eq])
  · next quote hquote =>
    have hread := Rule.token_exact _ tokens quote hquote
    rw [← hread, ← List.append_assoc]
    exact attributeValue_grounded hname equal quote.value quote.rest

/-- What follows the name of an attribute is reported at the name, or at what it finds. -/
theorem attributeAssignment_grounded (tokens : List Token) :
    Grounded (attributeAssignment { name } tokens).reports (name ++ tokens) := by
  rw [attributeAssignment]
  split
  · exact .singleton (by simp [Attribute.tokens_eq, hname]) (by simp [Attribute.tokens_eq])
  · next sign hsign =>
    have hread := Rule.token_exact _ tokens sign hsign
    rw [← hread, ← List.append_assoc]
    exact quotedValue_grounded hname sign.value sign.rest

end Attributes

namespace Rule

/-- An attribute reports about its own tokens, which are among those that it finds. -/
theorem attribute_grounds : Rule.attribute.Grounds := by
  intro tokens parsed h
  simp only [Rule.attribute, Option.map_eq_some_iff] at h
  obtain ⟨name, hname, rfl⟩ := h
  have hne := partialSymbol_exact.tokens_ne_nil partialSymbol_consumes hname
  rw [← partialSymbol_exact tokens name hname]
  exact attributeAssignment_grounded hne name.rest

/-- Missing blanks are reported at the name of the attribute that they should stand in front of. -/
theorem spacedAttribute_grounds : spacedAttribute.Grounds := by
  intro tokens parsed h
  simp only [spacedAttribute, Option.map_eq_some_iff] at h
  obtain ⟨read, hread, rfl⟩ := h
  have hblanks := (skipBlanks_suffix tokens).sublist
  have hname : read.value.name ≠ [] ∧ read.value.name.Sublist read.value.tokens := by
    refine ⟨?_, by simp [Attribute.tokens_eq]⟩
    have hsymbol := (attribute_yields _ read hread).name
    intro hnil
    rw [hnil] at hsymbol
    exact hsymbol
  have hsub := (attribute_exact.sublist hread).trans hblanks
  exact ((attribute_grounds _ read hread).of_sublist hblanks).append
    (.reportIf hname.1 (hname.2.trans hsub))

/-! ## Comments and closing tags -/

/-- A comment without an end is reported at its own tokens. -/
theorem comment_grounds : comment.Grounds := by
  intro tokens parsed h
  have hne := comment_exact.tokens_ne_nil comment_consumes h
  have hsub := comment_exact.sublist h
  match tokens, h with
  | bang :: hyphens :: rest, h =>
    simp only [comment, Option.ite_none_right_eq_some] at h
    obtain ⟨-, h⟩ := h
    split at h
    · obtain rfl := Option.some.inj h
      exact .singleton hne hsub
    · obtain rfl := Option.some.inj h
      exact .nil _

/-- A comment or a run of blanks reports about tokens that it finds. -/
theorem trivium_grounds : trivium.Grounds := by
  have hblanks : blanks.Grounds := by
    intro tokens parsed h
    simp only [blanks, Option.ite_none_left_eq_some, Option.some.injEq] at h
    rw [← h.2]
    exact .nil tokens
  exact (comment_grounds.map Node.comment).orElse (hblanks.map Node.single)

end Rule

/-- Trivia report about tokens that they find. -/
theorem trivia_grounded (tokens : List Token) : Grounded (trivia tokens).reports tokens :=
  Rule.trivium_grounds.many Rule.trivium_consumes tokens

/-- A closing tag without a name or an end is reported at the tokens that it has so far. -/
theorem closingTagName_grounded {opening : List Token} (hopening : opening ≠ [])
    (tokens : List Token) :
    Grounded (closingTagName { opening } tokens).reports (opening ++ tokens) := by
  have hblanks := (skipBlanks_suffix tokens).sublist
  rw [closingTagName]
  split
  · exact .singleton (by simp [ClosingTag.tokens, hopening]) (by simp [ClosingTag.tokens])
  · next name hname =>
    have hread : name.value.Sublist tokens := ((Rule.token_exact _).sublist hname).trans hblanks
    refine .reportIf ?_ ?_
    · simp [ClosingTag.tokens, hopening]
    · simpa [ClosingTag.tokens] using hread

/-- A closing tag reports about tokens that it finds. -/
theorem Rule.closingTag_grounds : closingTag.Grounds := by
  intro tokens parsed h
  cases tokens with
  | nil => simp [closingTag] at h
  | cons token rest =>
    simp only [closingTag, Option.ite_none_right_eq_some, Option.some.injEq] at h
    obtain ⟨-, rfl⟩ := h
    exact closingTagName_grounded (List.cons_ne_nil token []) rest

/-! ## Opening tags -/

/-- What is kept comes in order among the tokens, since leaving tokens out does not move any. -/
theorem Accounted.sublist {kept tokens rest : List Token} {reports : List Report}
    (h : Accounted kept reports tokens rest) : kept.Sublist tokens := by
  obtain ⟨read, rfl, hleaves⟩ := h
  exact hleaves.sublist.trans (List.sublist_append_left _ _)

/-- What has been kept behind an element stands in the tokens in front of it. -/
theorem Adds.sublist {element : Element} {tokens : List Token} {parsed : Parsed Element}
    (h : Adds element tokens parsed) : parsed.value.tokens.Sublist (element.tokens ++ tokens) := by
  obtain ⟨added, htokens, hadded⟩ := h
  rw [htokens]
  exact hadded.sublist.append_left _

/-- An element to which something is added has tokens if it had some before. -/
theorem Adds.tokens_ne_nil {element : Element} {tokens : List Token} {parsed : Parsed Element}
    (h : Adds element tokens parsed) (hne : element.tokens ≠ []) : parsed.value.tokens ≠ [] := by
  obtain ⟨added, htokens, -⟩ := h
  rw [htokens]
  exact List.append_ne_nil_of_left_ne_nil hne added

section OpeningTags

variable (leadingTrivia : List Node) {bracket : List Token} (hbracket : bracket ≠ [])
include hbracket

/-- An element whose bracket has been read has the bracket. -/
theorem tokens_opened_ne_nil :
    Element.tokens { leadingTrivia, openBracket := some bracket } ≠ [] := by
  simp [Element.tokens_eq, hbracket]

/-- The rest of an opening tag reports about its own tokens, or about those that it leaves out. -/
theorem namedTag_grounded {token : Token} {rest : List Token} (hblank : token.isBlank = false)
    (htagEnd : token.isTagEnd = false) :
    Grounded (namedTag { leadingTrivia, openBracket := some bracket } (token :: rest)).reports
      (Element.tokens { leadingTrivia, openBracket := some bracket } ++ token :: rest) := by
  have hadds := namedTag_adds leadingTrivia bracket (token :: rest)
  have hwhole := hadds.tokens_ne_nil (tokens_opened_ne_nil leadingTrivia hbracket)
  have hname : Grounded (tagName (token :: rest)).reports (token :: rest) :=
    .reportIf (tagName_ne_nil hblank htagEnd) (List.takeWhile_sublist _)
  have hbehindName : (tagName (token :: rest)).rest.Sublist (token :: rest) :=
    List.dropWhile_sublist _
  have hattributes := (Rule.spacedAttribute_grounds.many Rule.spacedAttribute_consumes
    (tagName (token :: rest)).rest).of_sublist hbehindName
  have hbehind := ((skipBlanks_suffix _).trans
    (Rule.spacedAttribute_consumes.suffix_many (tagName (token :: rest)).rest)).sublist
  refine ((((hname.append hattributes).append ?_).of_sublist ?_).append
    (.reportIf hwhole hadds.sublist))
  · -- each stray token is one of those behind the attributes
    simp only [Grounded, List.forall_mem_map]
    intro stray hstray
    have hmem := (List.takeWhile_sublist _).subset hstray
    exact ⟨List.cons_ne_nil _ _,
      List.singleton_sublist.mpr (hbehindName.subset (hbehind.subset hmem))⟩
  · exact List.sublist_append_right _ _

/-- An opening tag reports about its bracket and about tokens that it finds. -/
theorem openTag_grounded (tokens : List Token) :
    Grounded (openTag leadingTrivia bracket tokens).reports
      (Element.tokens { leadingTrivia, openBracket := some bracket } ++ tokens) := by
  have hadds := openTag_adds leadingTrivia bracket tokens
  have hwhole := hadds.tokens_ne_nil (tokens_opened_ne_nil leadingTrivia hbracket)
  have hsub := hadds.sublist
  have hblanks := skipBlanks_suffix tokens
  have hfollows := follows_skipBlanks tokens
  rw [openTag] at hwhole hsub ⊢
  split
  · refine .singleton hbracket ?_
    simp [Element.tokens_eq]
  · next token rest hskip =>
    rw [hskip] at hblanks hfollows
    simp only [hskip] at hwhole hsub
    split
    · next htagEnd =>
      rw [if_pos htagEnd] at hwhole hsub
      exact .singleton hwhole hsub
    · next htagEnd =>
      exact (namedTag_grounded leadingTrivia hbracket (follows_cons.mp hfollows)
        (Bool.eq_false_iff.mpr htagEnd)).of_sublist (hblanks.sublist.append_left _)

end OpeningTags

/-! ## Bodies -/

section Bodies

variable {element : Element} {tokens all : List Token}

/-- The report of a missing closing tag is about all that the element holds. -/
theorem closeElement_grounded (hne : (closeElement element tokens).value.tokens ≠ [])
    (hwhole : (closeElement element tokens).value.tokens.Sublist all)
    (htokens : tokens.Sublist all) : Grounded (closeElement element tokens).reports all :=
  ((Rule.closingTag_grounds.optional tokens).of_sublist htokens).append (.reportIf hne hwhole)

/-- A body with text reports about tokens of the element and tokens that it finds. -/
theorem textBody_grounded (hne : (textBody element tokens).value.tokens ≠ [])
    (hwhole : (textBody element tokens).value.tokens.Sublist all) (htokens : tokens.Sublist all) :
    Grounded (textBody element tokens).reports all := by
  have hcontents := (Rule.content_grounds elementValueEnds).optional tokens
  have hrest := ((Rule.content_consumes elementValueEnds).suffix_optional tokens).sublist
  exact (hcontents.of_sublist htokens).append
    (closeElement_grounded hne hwhole (hrest.trans htokens))

/-- Text behind the children is reported only if there is any. -/
theorem strayText_grounded {token : Token} {rest : List Token} (hkind : token.kind ≠ .openSlash)
    (htokens : (token :: rest).Sublist all) :
    Grounded (strayText element (token :: rest)).reports all := by
  let isText := fun token : Token => token.kind != .openSlash
  have hclosing := Rule.closingTag_grounds.optional ((token :: rest).dropWhile isText)
  have htext : ((token :: rest).takeWhile isText) ≠ [] := by simp [isText, hkind]
  exact (hclosing.of_sublist ((List.dropWhile_sublist _).trans htokens)).append
    (.singleton htext ((List.takeWhile_sublist _).trans htokens))

/-- What comes behind the children of an element reports about tokens of the element and tokens that
it finds. -/
theorem elementEnd_grounded (hne : (elementEnd element tokens).value.tokens ≠ [])
    (hwhole : (elementEnd element tokens).value.tokens.Sublist all)
    (htokens : tokens.Sublist all) : Grounded (elementEnd element tokens).reports all := by
  rw [elementEnd] at hne hwhole ⊢
  split at hne
  · next hnone =>
    rw [if_pos hnone] at hwhole ⊢
    exact textBody_grounded hne hwhole htokens
  · next hsome =>
    rw [if_neg hsome] at hwhole ⊢
    split at hne
    · next hend =>
      rw [if_pos hend] at hwhole ⊢
      exact closeElement_grounded hne hwhole htokens
    · next hend =>
      rw [if_neg hend]
      cases tokens with
      | nil => simp at hend
      | cons token rest => exact strayText_grounded (by simpa using hend) htokens

/-- A body reports tokens of the element that it belongs to, and tokens that it finds. -/
def GroundsBody (body : Element → List Token → Parsed Element) : Prop :=
  ∀ element tokens, IsOpened element → element.tokens ≠ [] →
    Grounded (body element tokens).reports (element.tokens ++ tokens)

/-- A raw body reports about the opening tag and, if its closing tag is missing, about the whole
element. -/
theorem rawBody_grounds : GroundsBody rawBody := by
  intro element tokens hopened hne
  have hadds := rawBody_adds hopened tokens
  have hrest : (rawContents 0 tokens).2 <:+ tokens := ⟨_, rawContents_append 0 tokens⟩
  have hclosed := closeElement_grounded (hadds.tokens_ne_nil hne) hadds.sublist
    (hrest.sublist.trans (List.sublist_append_right _ tokens))
  exact List.forall_mem_cons.mpr ⟨⟨hne, List.sublist_append_left _ _⟩, hclosed⟩

/-- A body with elements reports what its children report, and what comes behind them. -/
theorem nestedBody_grounds {child : Rule Element} (hgrounds : child.Grounds)
    (hconsumes : child.Consumes) (haccounts : child.Accounts Element.tokens) :
    GroundsBody (nestedBody child) := by
  intro element tokens hopened hne
  have hadds := nestedBody_adds haccounts hopened tokens
  have hbehind := ((skipBlanks_suffix _).trans (hconsumes.suffix_many tokens)).sublist
  have hend := elementEnd_grounded (hadds.tokens_ne_nil hne) hadds.sublist
    (hbehind.trans (List.sublist_append_right _ tokens))
  exact ((hgrounds.many hconsumes tokens).of_sublist (List.sublist_append_right _ _)).append hend

end Bodies

/-! ## Elements and documents -/

/-- An element whose bracket has been read reports about its own tokens and those that it finds. -/
theorem taggedElement_grounded {body : Element → List Token → Parsed Element}
    (hbody : GroundsBody body) (leadingTrivia : List Node) {bracket : List Token}
    (hbracket : bracket ≠ []) (tokens : List Token) :
    Grounded (taggedElement body leadingTrivia bracket tokens).reports
      (Element.tokens { leadingTrivia, openBracket := some bracket } ++ tokens) := by
  have hopening := openTag_grounded leadingTrivia hbracket tokens
  have hadds := openTag_adds leadingTrivia bracket tokens
  rw [taggedElement]
  split
  · have hfilled := hbody _ (openTag leadingTrivia bracket tokens).rest
      (openTag_isOpened leadingTrivia bracket tokens)
      (hadds.tokens_ne_nil (tokens_opened_ne_nil leadingTrivia hbracket))
    refine hopening.append (hfilled.of_sublist ?_)
    -- what the body finds is what the opening tag has kept and left
    obtain ⟨added, htokens, read, hread, hleaves⟩ := hadds
    rw [htokens, List.append_assoc]
    refine List.Sublist.append_left ?_ _
    conv_rhs => rw [hread]
    exact hleaves.sublist.append_right _
  · exact hopening

namespace Rule

/-- An element reports about tokens that it finds, if its body does. -/
theorem elementWith_grounds {body : Element → List Token → Parsed Element}
    (hbody : GroundsBody body) : (elementWith body).Grounds := by
  intro tokens parsed h
  have hblanks := (skipBlanks_suffix tokens).sublist
  have hleading := (trivia_grounded (skipBlanks tokens)).of_sublist hblanks
  rw [elementWith] at h
  split at h
  · next bracket hbracket =>
    obtain rfl := Option.some.inj h
    have hne : bracket.value ≠ [] := (token_exact _).tokens_ne_nil (token_consumes _) hbracket
    -- the trivia, the bracket and what follows are the tokens behind the blanks
    have hall : Element.tokens { leadingTrivia := (trivia (skipBlanks tokens)).value
                                 openBracket := some bracket.value } ++ bracket.rest
        = skipBlanks tokens := by
      have hread : bracket.value ++ bracket.rest = (trivia (skipBlanks tokens)).rest :=
        token_exact _ _ bracket hbracket
      simpa [Element.tokens_eq, hread] using tokens_trivia (skipBlanks tokens)
    have htagged := taggedElement_grounded hbody (trivia (skipBlanks tokens)).value hne bracket.rest
    rw [hall] at htagged
    exact hleading.append (htagged.of_sublist hblanks)
  · simp only [Option.ite_none_left_eq_some, Option.some.injEq] at h
    obtain ⟨-, rfl⟩ := h
    exact hleading

/-- An element of any depth reports about tokens that it finds. -/
theorem element_grounds (levels : Nat) : (Rule.element levels).Grounds := by
  induction levels with
  | zero => exact elementWith_grounds rawBody_grounds
  | succ levels ih =>
    exact elementWith_grounds
      (nestedBody_grounds ih (element_consumes levels) (element_accounts levels))

/-- Every report about a document is about tokens of its text, and about at least one. -/
theorem document_grounds : Rule.document.Grounds := by
  intro tokens parsed h
  simp only [Rule.document, Option.map_eq_some_iff] at h
  obtain ⟨root, hroot, rfl⟩ := h
  have hrest := (element_consumes maxDepth tokens root hroot).1.sublist
  exact (element_grounds maxDepth tokens root hroot).append
    ((trivia_grounded root.rest).of_sublist hrest)

end Rule

end JobMarkup.Grammar
