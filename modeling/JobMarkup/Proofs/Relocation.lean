import JobMarkup.Proofs.LayoutReading

/-!
# The same lexemes elsewhere

What is read depends on the lexemes of tokens and not on their places. Wherever the lexemes of an
element of which nothing is reported stand one behind the other, in the same text or in another one,
an element with the same outline is read, and nothing is reported of it either. A comment in front
of the element makes no difference.
-/

namespace JobMarkup.Grammar

open JobMarkup.Tree

variable {tokens others : List Token}

/-! ## Trivia of the same kinds -/

/-- Tokens of the same kinds are blank alike. -/
theorem AllBlank.of_kinds (h : AllBlank tokens)
    (hkinds : others.map Token.kind = tokens.map Token.kind) : AllBlank others := by
  intro token hmem
  have hkind : token.kind ∈ tokens.map Token.kind := hkinds ▸ List.mem_map_of_mem hmem
  obtain ⟨blank, hblank, heq⟩ := List.mem_map.mp hkind
  have hisBlank := h blank hblank
  rw [Token.isBlank] at hisBlank ⊢
  rwa [← heq]

/-- What follows is of the same kinds, so a condition on its kind is met elsewhere. -/
theorem Follows.of_kinds {property : TokenKind → Prop} (h : Follows property tokens)
    (hkinds : others.map Token.kind = tokens.map Token.kind) : Follows property others := by
  cases others with
  | nil => simp [Follows]
  | cons token rest =>
    obtain ⟨first, behind, rfl, hfirst, -⟩ := List.map_eq_cons_iff.mp hkinds.symm
    rw [follows_cons] at h ⊢
    rwa [← hfirst]

/-- A comment that has no end among some tokens has none among tokens of the same kinds. -/
theorem commentContents_of_kinds (h : (commentContents tokens).2 = [])
    (hkinds : others.map Token.kind = tokens.map Token.kind) : (commentContents others).2 = [] := by
  induction tokens generalizing others with
  | nil =>
    obtain rfl := List.map_eq_nil_iff.mp hkinds
    rfl
  | cons token rest ih =>
    obtain ⟨first, behind, rfl, hfirst, hbehind⟩ := List.map_eq_cons_iff.mp hkinds
    have hhead : behind.head?.map Token.kind = rest.head?.map Token.kind := by
      rw [← List.head?_map, ← List.head?_map, hbehind]
    rw [commentContents] at h ⊢
    rw [hfirst, hhead]
    split at h
    · simp at h
    · next hcut =>
      rw [if_neg hcut]
      exact ih h hbehind

/-- The kinds of the tokens of a comment. -/
def AreCommentKinds (kinds : List TokenKind) : Prop :=
  ∀ tokens : List Token, tokens.map Token.kind = kinds →
    ∃ comment, IsComment comment ∧ comment.tokens = tokens

/-- Tokens between the marks of a comment are its contents if they do not end it. -/
theorem areCommentKinds_of_contents {kinds : List TokenKind}
    (h : ∀ contents : List Token, contents.map Token.kind = kinds → (commentContents contents).2 = []) :
    AreCommentKinds (.openBang :: .doubleHyphen :: (kinds ++ [.doubleHyphen, .closeAngle])) := by
  intro tokens htokens
  obtain ⟨bang, behind, rfl, hbang, hbehind⟩ := List.map_eq_cons_iff.mp htokens
  obtain ⟨hyphens, behind, rfl, hhyphens, hbehind⟩ := List.map_eq_cons_iff.mp hbehind
  obtain ⟨contents, marks, rfl, hcontents, hmarks⟩ := List.map_eq_append_iff.mp hbehind
  obtain ⟨closing, behind, rfl, hclosing, hbehind⟩ := List.map_eq_cons_iff.mp hmarks
  obtain ⟨angle, behind, rfl, hangle, hnil⟩ := List.map_eq_cons_iff.mp hbehind
  obtain rfl := List.map_eq_nil_iff.mp hnil
  exact ⟨⟨[bang, hyphens], contents, some [closing, angle]⟩, ⟨bang, hyphens, contents, closing, angle,
    rfl, hbang, hhyphens, h contents hcontents, hclosing, hangle⟩, by simp [Comment.tokens]⟩

/-- The tokens of a comment have the kinds of a comment. -/
theorem IsComment.areCommentKinds {comment : Comment} (h : IsComment comment) :
    AreCommentKinds (comment.tokens.map Token.kind) := by
  obtain ⟨bang, hyphens, contents, closing, angle, rfl, hbang, hhyphens, hcontents, hclosing,
    hangle⟩ := h
  have hkinds := areCommentKinds_of_contents fun _ => commentContents_of_kinds hcontents
  simpa [Comment.tokens, hbang, hhyphens, hclosing, hangle] using hkinds

/-- Tokens of the kinds of trivia are trivia. -/
theorem IsTrivia.exists_of_kinds {nodes : List Node} (h : IsTrivia nodes)
    (hkinds : others.map Token.kind = (nodeTokens nodes).map Token.kind) :
    ∃ trivia, IsTrivia trivia ∧ nodeTokens trivia = others ∧ (trivia = [] → nodes = []) := by
  induction h generalizing others with
  | nil => exact ⟨[], .nil, (List.map_eq_nil_iff.mp hkinds).symm, fun _ => rfl⟩
  | comment hcomment _ ih =>
    rw [nodeTokens_cons, List.map_append] at hkinds
    obtain ⟨first, behind, rfl, hfirst, hbehind⟩ := List.map_eq_append_iff.mp hkinds
    obtain ⟨comment, hcomment, rfl⟩ := hcomment.areCommentKinds first hfirst
    obtain ⟨trivia, htrivia, rfl, -⟩ := ih hbehind
    exact ⟨.comment comment :: trivia, .comment hcomment htrivia, by simp, by simp⟩
  | blanks hne hblank hfollows _ ih =>
    rw [nodeTokens_cons, List.map_append] at hkinds
    obtain ⟨first, behind, rfl, hfirst, hbehind⟩ := List.map_eq_append_iff.mp hkinds
    obtain ⟨trivia, htrivia, rfl, -⟩ := ih hbehind
    have hfirstNe : first ≠ [] := by
      rintro rfl
      exact hne (List.map_eq_nil_iff.mp hfirst.symm)
    exact ⟨.single first :: trivia,
      .blanks hfirstNe (hblank.of_kinds hfirst) (hfollows.of_kinds hbehind) htrivia, by simp, by simp⟩

/-- Kinds that trivia in front of a tag may have in front of them. -/
def IsLead (kinds : List TokenKind) : Prop :=
  ∀ {leading : List Node} {front : List Token}, ReadsLeading leading front →
    ∀ tokens : List Token, tokens.map Token.kind = kinds ++ front.map Token.kind →
      ∃ trivia, ReadsLeading trivia tokens ∧ (trivia = [] → leading = [])

/-- Nothing may stand in front of trivia. -/
theorem isLead_nil : IsLead [] := by
  intro leading front hleading tokens hkinds
  obtain ⟨hblanks, htrivia, hfollows⟩ := hleading
  rw [List.nil_append, List.map_append] at hkinds
  obtain ⟨blanks, behind, rfl, hfirst, hbehind⟩ := List.map_eq_append_iff.mp hkinds
  obtain ⟨trivia, hread, rfl, hnil⟩ := htrivia.exists_of_kinds hbehind
  exact ⟨trivia, .intro (hblanks.of_kinds hfirst) hread (hfollows.of_kinds hbehind), hnil⟩

/-- A comment does not begin with a blank. -/
theorem IsComment.follows {comment : Comment} (h : IsComment comment) (rest : List Token) :
    Follows NotBlank (comment.tokens ++ rest) := by
  obtain ⟨bang, hyphens, contents, closing, angle, rfl, hbang, -⟩ := h
  have hblank : NotBlank bang.kind := by
    rw [hbang]
    rfl
  simpa [Comment.tokens] using hblank

/-- With a comment in front of them, blanks are no longer left out. -/
theorem AreCommentKinds.exists_leading {kinds : List TokenKind} (h : AreCommentKinds kinds)
    {leading : List Node} {front : List Token} (hleading : ReadsLeading leading front)
    {tokens : List Token} (hkinds : tokens.map Token.kind = kinds ++ front.map Token.kind) :
    ∃ trivia, ReadsLeading trivia tokens ∧ trivia ≠ [] := by
  obtain ⟨first, behind, rfl, hfirst, hbehind⟩ := List.map_eq_append_iff.mp hkinds
  obtain ⟨comment, hcomment, rfl⟩ := h first hfirst
  obtain ⟨trivia, ⟨hblanks, htrivia, hfollows⟩, -⟩ := isLead_nil hleading behind hbehind
  rename_i blanks
  obtain ⟨nodes, hnodes, htokens⟩ :
      ∃ nodes, IsTrivia nodes ∧ nodeTokens nodes = blanks ++ nodeTokens trivia := by
    by_cases hnil : blanks = []
    · exact ⟨trivia, htrivia, by simp [hnil]⟩
    · exact ⟨.single blanks :: trivia, .blanks hnil hblanks hfollows htrivia, by simp⟩
  have hall : ReadsLeading (.comment comment :: nodes)
      ([] ++ nodeTokens (.comment comment :: nodes)) :=
    .intro (by simp [AllBlank]) (.comment hcomment hnodes) (by simpa using hcomment.follows _)
  exact ⟨_, by simpa [htokens] using hall, List.cons_ne_nil _ _⟩

/-- A comment may stand in front of trivia. -/
theorem AreCommentKinds.isLead {kinds : List TokenKind} (h : AreCommentKinds kinds) : IsLead kinds := by
  intro leading front hleading tokens hkinds
  obtain ⟨trivia, hread, hne⟩ := h.exists_leading hleading hkinds
  exact ⟨trivia, hread, fun hnil => absurd hnil hne⟩

end JobMarkup.Grammar

namespace JobMarkup.Template

open JobMarkup.Tree JobMarkup.Grammar

variable {text other : SourceText}

/-! ## Tags with the same lexemes -/

/-- Tokens with the same lexemes have the same kinds. -/
theorem kinds_of_lexemes {tokens others : List Token}
    (h : others.map (Token.lexeme other) = tokens.map (Token.lexeme text)) :
    others.map Token.kind = tokens.map Token.kind := by
  simpa [Function.comp_def] using congrArg (List.map Lexeme.kind) h

/-- Tokens with the same lexemes behind others have the same kinds behind those of the others. -/
theorem kinds_of_lexemes_append {tokens others : List Token} {before : List Lexeme}
    (h : others.map (Token.lexeme other) = before ++ tokens.map (Token.lexeme text)) :
    others.map Token.kind = before.map Lexeme.kind ++ tokens.map Token.kind := by
  simpa [Function.comp_def] using congrArg (List.map Lexeme.kind) h

/-- Tokens with the same lexemes have the same text, wherever they stand. -/
theorem wording_of_lexemes {tokens others : List Token}
    (h : others.map (Token.lexeme other) = tokens.map (Token.lexeme text)) :
    other.wording others = text.wording tokens := by
  rw [wording_eq_textOf, wording_eq_textOf, h]

/-- Nodes of a value are read from the same lexemes elsewhere, with the same pieces. -/
theorem exists_pieces {terminators : List TokenKind} {nodes : List Tree.Node}
    (h : ∀ node ∈ nodes, IsContentPiece terminators node) (hrun : text.IsRun (nodeTokens nodes))
    {others : List Token} (hother : other.IsRun others)
    (hlexemes : others.map (Token.lexeme other) = (nodeTokens nodes).map (Token.lexeme text)) :
    ∃ read, (∀ node ∈ read, IsContentPiece terminators node) ∧ nodeTokens read = others
      ∧ (valuesOf other [] read).map Value.piece = (valuesOf text [] nodes).map Value.piece := by
  have hspells := spells_of_isContentPiece h (spellsLiteral_nil terminators) hrun
  obtain ⟨read, hread, htokens, hpieces, -⟩ := hspells.exists_nodes hlexemes hother
  exact ⟨read, hread, htokens, hpieces⟩

/-- An attribute is read from the same lexemes elsewhere, with the same outline. -/
theorem exists_attribute {attr : Tree.Attribute} (h : IsAttribute attr)
    (hrun : text.IsRun attr.tokens) {others : List Token} (hother : other.IsRun others)
    (hlexemes : others.map (Token.lexeme other) = attr.tokens.map (Token.lexeme text)) :
    ∃ read, IsAttribute read ∧ read.tokens = others
      ∧ (attributeOf other read).outline = (attributeOf text attr).outline := by
  have hkey := text_excerptOf (hrun.part h.name_infix) h.name_ne_nil
  obtain ⟨name, equal, openQuote, contents, closeQuote, rfl, hname, hequal, hopenQuote, hcloseQuote,
    hcontents⟩ := h
  have hnodes : ∀ node ∈ contents.getD [], IsContentPiece attributeValueEnds node := by
    cases contents with
    | none => simp
    | some nodes => exact (hcontents nodes rfl).2
  simp only [Attribute.tokens_eq, slotTokens_some, List.append_assoc, List.cons_append,
    List.nil_append] at hrun hlexemes
  rw [List.map_append] at hlexemes
  obtain ⟨first, behind, rfl, hfirst, hbehind⟩ := List.map_eq_append_iff.mp hlexemes
  obtain ⟨sign, behind, rfl, hsign, hbehind⟩ := List.map_eq_cons_iff.mp hbehind
  obtain ⟨quote, behind, rfl, hquote, hbehind⟩ := List.map_eq_cons_iff.mp hbehind
  rw [List.map_append] at hbehind
  obtain ⟨value, behind, rfl, hvalue, hbehind⟩ := List.map_eq_append_iff.mp hbehind
  obtain ⟨last, behind, rfl, hlast, hnil⟩ := List.map_eq_cons_iff.mp hbehind
  obtain rfl := List.map_eq_nil_iff.mp hnil
  obtain ⟨nodes, hread, rfl, hpieces⟩ := exists_pieces hnodes
    (hrun.part ⟨name ++ [equal, openQuote], [closeQuote], by simp⟩)
    (hother.part ⟨first ++ [sign, quote], [last], by simp⟩) hvalue
  have hattr : IsAttribute ⟨first, some [sign], some [quote], contentSlot nodes, some [last]⟩ := by
    refine ⟨first, sign, quote, contentSlot nodes, last, rfl, ?_, ?_, ?_, ?_,
      fun _ => isContent_of_mem_contentSlot hread⟩
    · rw [@isPartialSymbol_iff other, hfirst]
      exact (isPartialSymbol_iff name).mp hname
    · exact (congrArg Lexeme.kind hsign).trans hequal
    · exact (congrArg Lexeme.kind hquote).trans hopenQuote
    · exact (congrArg Lexeme.kind hlast).trans hcloseQuote
  have hotherKey := text_excerptOf (hother.part (List.prefix_append first _).isInfix) hattr.name_ne_nil
  rw [wording_of_lexemes hfirst] at hotherKey
  refine ⟨_, hattr, by simp [Attribute.tokens_eq, getD_contentSlot], ?_⟩
  simp only at hkey hotherKey
  simp [attributeOf, Attribute.outline, hkey, hotherKey, getD_contentSlot, hpieces]

/-- Attributes are read from the same lexemes elsewhere, with the same outlines. -/
theorem exists_attributes {attributes : List Tree.Attribute} {tokens : List Token}
    (h : ReadsAttributes attributes tokens) (hrun : text.IsRun tokens) {others : List Token}
    (hother : other.IsRun others)
    (hlexemes : others.map (Token.lexeme other) = tokens.map (Token.lexeme text)) :
    ∃ read, ReadsAttributes read others ∧ read.map (fun attr => (attributeOf other attr).outline)
      = attributes.map fun attr => (attributeOf text attr).outline := by
  induction h generalizing others with
  | nil =>
    obtain rfl := List.map_eq_nil_iff.mp hlexemes
    exact ⟨[], .nil, rfl⟩
  | @cons blanks attr attributes tokens hne hblanks hattr _ ih =>
    rw [List.map_append, List.map_append] at hlexemes
    obtain ⟨gap, behind, rfl, hgap, hbehind⟩ := List.map_eq_append_iff.mp hlexemes
    obtain ⟨first, rest, rfl, hfirst, hrest⟩ := List.map_eq_append_iff.mp hbehind
    obtain ⟨read, hread, rfl, houtline⟩ := exists_attribute hattr
      (hrun.part ⟨blanks, tokens, by simp⟩) (hother.part ⟨gap, rest, by simp⟩) hfirst
    obtain ⟨reads, hreads, houtlines⟩ := ih
      (hrun.part (List.IsSuffix.isInfix ⟨blanks ++ attr.tokens, by simp⟩))
      (hother.part (List.IsSuffix.isInfix ⟨gap ++ read.tokens, by simp⟩)) hrest
    have hgapNe : gap ≠ [] := by
      rintro rfl
      exact hne (List.map_eq_nil_iff.mp hgap.symm)
    refine ⟨read :: reads, .cons hgapNe (hblanks.of_kinds (kinds_of_lexemes hgap)) hread hreads, ?_⟩
    rw [List.map_cons, List.map_cons, houtline, houtlines]

/-- An opening tag is read from the same lexemes elsewhere, with the same name and attributes. -/
theorem exists_openTag {name tagEnd : Token} {attributes : List Tree.Attribute} {tag : List Token}
    (h : ReadsOpenTag name attributes tagEnd tag) (hrun : text.IsRun tag) {others : List Token}
    (hother : other.IsRun others)
    (hlexemes : others.map (Token.lexeme other) = tag.map (Token.lexeme text)) :
    ∃ token read last, ReadsOpenTag token read last others
      ∧ other.wording [token] = text.wording [name] ∧ last.kind = tagEnd.kind
      ∧ read.map (fun attr => (attributeOf other attr).outline)
        = attributes.map fun attr => (attributeOf text attr).outline := by
  obtain ⟨hbefore, hname, hattributes, hbehind, hend⟩ := h
  rename_i before tokens behind
  rw [List.map_append, List.map_cons, List.map_append, List.map_append] at hlexemes
  obtain ⟨gap, rest, rfl, hgap, hrest⟩ := List.map_eq_append_iff.mp hlexemes
  obtain ⟨token, rest, rfl, htoken, hrest⟩ := List.map_eq_cons_iff.mp hrest
  obtain ⟨middle, rest, rfl, hmiddle, hrest⟩ := List.map_eq_append_iff.mp hrest
  obtain ⟨gap', rest, rfl, hgap', hrest⟩ := List.map_eq_append_iff.mp hrest
  obtain ⟨last, rest, rfl, hlast, hnil⟩ := List.map_eq_cons_iff.mp hrest
  obtain rfl := List.map_eq_nil_iff.mp hnil
  obtain ⟨read, hread, houtlines⟩ := exists_attributes hattributes
    (hrun.part ⟨before ++ [name], behind ++ [tagEnd], by simp⟩)
    (hother.part ⟨gap ++ [token], gap' ++ [last], by simp⟩) hmiddle
  have htokenKind : token.kind = name.kind := congrArg Lexeme.kind htoken
  have hlastKind : last.kind = tagEnd.kind := congrArg Lexeme.kind hlast
  refine ⟨token, read, last, .intro (hbefore.of_kinds (kinds_of_lexemes hgap))
    (htokenKind.trans hname) hread (hbehind.of_kinds (kinds_of_lexemes hgap')) ?_, ?_, hlastKind,
    houtlines⟩
  · rwa [Token.isTagEnd, hlastKind]
  · exact wording_of_lexemes (by simp [htoken])

/-- A closing tag is read from the same lexemes elsewhere, with the same name. -/
theorem exists_closingTag {closing : ClosingTag} {close : List Token}
    (h : ReadsClosingTag closing close) {others : List Token}
    (hlexemes : others.map (Token.lexeme other) = close.map (Token.lexeme text)) :
    ∃ read, ReadsClosingTag read others
      ∧ read.name.map other.wording = closing.name.map text.wording := by
  obtain ⟨hopening, hbefore, hname, hbehind, hend⟩ := h
  rename_i opening name closing before behind
  rw [List.map_cons, List.map_append, List.map_cons, List.map_append] at hlexemes
  obtain ⟨mark, rest, rfl, hmark, hrest⟩ := List.map_eq_cons_iff.mp hlexemes
  obtain ⟨gap, rest, rfl, hgap, hrest⟩ := List.map_eq_append_iff.mp hrest
  obtain ⟨token, rest, rfl, htoken, hrest⟩ := List.map_eq_cons_iff.mp hrest
  obtain ⟨gap', rest, rfl, hgap', hrest⟩ := List.map_eq_append_iff.mp hrest
  obtain ⟨last, rest, rfl, hlast, hnil⟩ := List.map_eq_cons_iff.mp hrest
  obtain rfl := List.map_eq_nil_iff.mp hnil
  refine ⟨_, .intro ((congrArg Lexeme.kind hmark).trans hopening)
    (hbefore.of_kinds (kinds_of_lexemes hgap)) ((congrArg Lexeme.kind htoken).trans hname)
    (hbehind.of_kinds (kinds_of_lexemes hgap')) ((congrArg Lexeme.kind hlast).trans hend), ?_⟩
  exact congrArg some (wording_of_lexemes (by simp [htoken]))

/-! ## Elements with the same lexemes -/

/-- Wherever the lexemes stand in the text, an element with the outline is read. -/
def ReadsWhere (other : SourceText) (reads : Tree.Element → List Token → Prop) (outline : Outline)
    (lexemes : List Lexeme) : Prop :=
  ∀ tokens, other.IsRun tokens → tokens.map (Token.lexeme other) = lexemes →
    ∃ element, reads element tokens ∧ HasOutline other outline element

/-- Wherever the lexemes stand in the text, nodes with the content and the children are read. -/
def BodyReadsWhere (other : SourceText) (reads : List Tree.Node → List Token → Prop)
    (content : Option (List Piece)) (children : List Outline) (lexemes : List Lexeme) : Prop :=
  ∀ tokens, other.IsRun tokens → tokens.map (Token.lexeme other) = lexemes →
    ∃ nodes, reads nodes tokens ∧ BodyHasOutline other content children nodes

/-- What is not reported of an element whose name and tags have been read. -/
theorem reports_eq_nil_iff {element : Tree.Element} :
    element.elements.flatMap (elementReports text) = []
      ↔ mismatches text element = [] ∧ duplicates text [] element.attributes = []
        ∧ (childElements element.children).flatMap (elementReports text) = [] := by
  cases element
  simp only [Tree.Element.elements, List.flatMap_cons, List.append_eq_nil_iff, elementReports,
    and_assoc]

/-- The outline of an element whose name has been read. -/
theorem outline_elementOf {element : Tree.Element} {name : Token} (hname : element.name = some [name])
    (hrun : text.IsRun [name]) :
    (elementOf text element).outline = ⟨text.wording [name],
      element.attributes.map fun attr => (attributeOf text attr).outline,
      (contentOf text element.children).map (List.map Value.piece),
      outlines (childrenOf text element.children)⟩ := by
  have htext := text_excerptOf hrun (List.cons_ne_nil name [])
  rw [elementOf_eq, hname, Element.outline]
  simp [htext]

section Tags

variable {leading : List Tree.Node} {front : List Token} {bracket name tagEnd : Token}
  {attributes : List Tree.Attribute} {tag : List Token} {before : List Lexeme}

/-- The trivia in front of a tag, its bracket and the tag are read from the same lexemes elsewhere,
also with other trivia in front of them. -/
theorem exists_leadingTag (hleading : ReadsLeading leading front)
    (hbracket : bracket.kind = .openAngle) (htag : ReadsOpenTag name attributes tagEnd tag)
    (hrun : text.IsRun tag) (hlead : IsLead (before.map Lexeme.kind)) {tokens : List Token}
    (hother : other.IsRun tokens) {rest : List Lexeme}
    (hlexemes : tokens.map (Token.lexeme other)
      = before ++ ((front ++ bracket :: tag).map (Token.lexeme text) ++ rest)) :
    ∃ trivia first mark token read last begins behind,
      tokens = first ++ mark :: (begins ++ behind) ∧ ReadsLeading trivia first
      ∧ mark.kind = .openAngle ∧ ReadsOpenTag token read last begins ∧ last.kind = tagEnd.kind
      ∧ other.wording [token] = text.wording [name]
      ∧ read.map (fun attr => (attributeOf other attr).outline)
        = attributes.map (fun attr => (attributeOf text attr).outline)
      ∧ behind.map (Token.lexeme other) = rest := by
  rw [List.map_append, List.map_cons, List.append_assoc, List.cons_append, ← List.append_assoc]
    at hlexemes
  obtain ⟨first, others, rfl, hfirst, hothers⟩ := List.map_eq_append_iff.mp hlexemes
  obtain ⟨mark, others, rfl, hmark, hothers⟩ := List.map_eq_cons_iff.mp hothers
  obtain ⟨begins, behind, rfl, hbegins, hbehind⟩ := List.map_eq_append_iff.mp hothers
  obtain ⟨trivia, htrivia, -⟩ := hlead hleading first (kinds_of_lexemes_append hfirst)
  obtain ⟨token, read, last, hread, hwording, hlast, houtlines⟩ := exists_openTag htag hrun
    (hother.part ⟨first ++ [mark], behind, by simp⟩) hbegins
  exact ⟨trivia, first, mark, token, read, last, begins, behind, rfl, htrivia,
    (congrArg Lexeme.kind hmark).trans hbracket, hread, hlast, hwording, houtlines, hbehind⟩

/-- No key is given twice in a tag of which nothing is reported. -/
theorem nodup_keys (htag : ReadsOpenTag name attributes tagEnd tag) (hrun : text.IsRun tag)
    (hduplicates : duplicates text [] attributes = []) :
    ((attributes.map fun attr => (attributeOf text attr).outline).map Prod.fst).Nodup := by
  rw [keys_of_readsOpenTag htag hrun]
  exact ((duplicates_eq_nil_iff [] attributes).mp hduplicates).2

/-- A tag that closes itself, elsewhere and with other trivia in front of it. -/
theorem readsWhere_selfClosing (readsBody : List Tree.Node → List Token → Prop)
    (hleading : ReadsLeading leading front) (hbracket : bracket.kind = .openAngle)
    (htag : ReadsOpenTag name attributes tagEnd tag) (hkind : tagEnd.kind = .slashClose)
    (hrun : text.IsRun tag) (hduplicates : duplicates text [] attributes = [])
    (hlead : IsLead (before.map Lexeme.kind)) :
    ReadsWhere other (ReadsElementWith readsBody)
      ⟨text.wording [name], attributes.map fun attr => (attributeOf text attr).outline, none, []⟩
      (before ++ (front ++ bracket :: tag).map (Token.lexeme text)) := by
  intro tokens hother hlexemes
  rw [← List.append_nil ((front ++ bracket :: tag).map (Token.lexeme text))] at hlexemes
  obtain ⟨trivia, first, mark, token, read, last, begins, behind, rfl, htrivia, hmark, hread, hlast,
    hwording, houtlines, hnil⟩ :=
    exists_leadingTag hleading hbracket htag hrun hlead hother hlexemes
  obtain rfl := List.map_eq_nil_iff.mp hnil
  rw [List.append_nil] at hother ⊢
  refine ⟨⟨trivia, some [mark], some [token], read, some [last], [], none⟩,
    .selfClosing htrivia hmark hread (hlast.trans hkind), ?_⟩
  have hbody : BodyHasOutline other none [] [] := ⟨rfl, rfl, rfl⟩
  rw [← hwording]
  exact hbody.hasOutline rfl hread (hother.part ⟨first ++ [mark], [], by simp⟩) rfl houtlines
    (nodup_keys htag hrun hduplicates) rfl

/-- An element with a closing tag, elsewhere and with other trivia in front of it, if its body is read
elsewhere. -/
theorem readsWhere_paired {readsBody : List Tree.Node → List Token → Prop}
    (hleading : ReadsLeading leading front) (hbracket : bracket.kind = .openAngle)
    (htag : ReadsOpenTag name attributes tagEnd tag) (hkind : tagEnd.kind = .closeAngle)
    (hrun : text.IsRun tag) (hduplicates : duplicates text [] attributes = [])
    {closing : ClosingTag} {close : List Token} (hclose : ReadsClosingTag closing close)
    (hclosing : closing.name.map text.wording = some (text.wording [name]))
    {content : Option (List Piece)} {children : List Outline} {inner : List Lexeme}
    (hbody : BodyReadsWhere other readsBody content children inner)
    (hlead : IsLead (before.map Lexeme.kind)) :
    ReadsWhere other (ReadsElementWith readsBody)
      ⟨text.wording [name], attributes.map fun attr => (attributeOf text attr).outline, content,
        children⟩
      (before ++ ((front ++ bracket :: tag).map (Token.lexeme text)
        ++ (inner ++ close.map (Token.lexeme text)))) := by
  intro tokens hother hlexemes
  obtain ⟨trivia, first, mark, token, read, last, begins, behind, rfl, htrivia, hmark, hread, hlast,
    hwording, houtlines, hbehind⟩ :=
    exists_leadingTag hleading hbracket htag hrun hlead hother hlexemes
  obtain ⟨between, rest, rfl, hbetween, hrest⟩ := List.map_eq_append_iff.mp hbehind
  obtain ⟨nodes, hnodes, houtline⟩ := hbody between
    (hother.part ⟨first ++ mark :: begins, rest, by simp⟩) hbetween
  obtain ⟨closingTag, hreadClose, hname⟩ := exists_closingTag hclose hrest
  refine ⟨⟨trivia, some [mark], some [token], read, some [last], nodes, some closingTag⟩,
    .paired htrivia hmark hread (hlast.trans hkind) hnodes hreadClose, ?_⟩
  have hmismatch : mismatches other
      ⟨trivia, some [mark], some [token], read, some [last], nodes, some closingTag⟩ = [] := by
    obtain ⟨closingName, hslot, hsame⟩ := Option.map_eq_some_iff.mp (hname.trans hclosing)
    simp [mismatches, hslot, hsame, hwording]
  rw [← hwording]
  exact houtline.hasOutline rfl hread (hother.part ⟨first ++ [mark], between ++ rest, by simp⟩) rfl
    houtlines (nodup_keys htag hrun hduplicates) hmismatch

end Tags

/-- Elements of the relation are read elsewhere, whatever trivia are in front of them. -/
def Relocates (text other : SourceText) (reads : Tree.Element → List Token → Prop) : Prop :=
  ∀ element read, reads element read → text.IsRun read →
    element.elements.flatMap (elementReports text) = [] →
    ∀ before : List Lexeme, IsLead (before.map Lexeme.kind) →
      ReadsWhere other reads (elementOf text element).outline (before ++ read.map (Token.lexeme text))

/-- Children are read from the same lexemes elsewhere, also with other trivia in front of them. -/
theorem exists_children {reads : Tree.Element → List Token → Prop} (hreads : Relocates text other reads)
    (htagged : ∀ element read, reads element read → element.isTriviaOnly = false)
    {children : List Tree.Element} {inner : List Token} (h : ReadsChildren reads children inner)
    (hrun : text.IsRun inner)
    (hreports : (childElements (children.map .element)).flatMap (elementReports text) = [])
    {before : List Lexeme} (hlead : IsLead (before.map Lexeme.kind)) {tokens : List Token}
    (hother : other.IsRun tokens)
    (hlexemes : tokens.map (Token.lexeme other) = before ++ inner.map (Token.lexeme text)) :
    ∃ elements, ReadsChildren reads elements tokens
      ∧ BodyHasOutline other none (outlines (childrenOf text (children.map .element)))
        (elements.map .element) := by
  induction h generalizing before tokens with
  | @nil blanks hblanks =>
    have hleading : ReadsLeading [] (blanks ++ nodeTokens []) :=
      .intro hblanks .nil (by simp [Follows])
    rw [nodeTokens_nil, List.append_nil] at hleading
    obtain ⟨trivia, htrivia, -⟩ := hlead hleading tokens (kinds_of_lexemes_append hlexemes)
    exact exists_readsChildren_trivia reads htrivia
  | trivia _ hleading =>
    obtain ⟨trivia, htrivia, -⟩ := hlead hleading tokens (kinds_of_lexemes_append hlexemes)
    exact exists_readsChildren_trivia reads htrivia
  | @cons child others first rest hchild _ ih =>
    rw [List.map_append, ← List.append_assoc] at hlexemes
    obtain ⟨front, behind, rfl, hfront, hbehind⟩ := List.map_eq_append_iff.mp hlexemes
    have hchildTagged := htagged child first hchild
    simp only [List.map_cons, childElements, hchildTagged, Bool.false_eq_true, if_false,
      List.flatMap_append, List.append_eq_nil_iff] at hreports
    obtain ⟨element, hread, houtline⟩ := hreads child first hchild
      (hrun.part (List.prefix_append first rest).isInfix) hreports.1 before hlead front
      (hother.part (List.prefix_append front behind).isInfix) hfront
    have hnothing : IsLead (([] : List Lexeme).map Lexeme.kind) := isLead_nil
    obtain ⟨elements, helements, hbody⟩ := ih
      (hrun.part (List.suffix_append first rest).isInfix) hreports.2 hnothing
      (hother.part (List.suffix_append front behind).isInfix) hbehind
    refine ⟨element :: elements, .cons hread helements, ?_⟩
    have hall := houtline.cons hbody
    simpa [childrenOf, hchildTagged, outlines] using hall

/-- What stands between two tags, elsewhere. -/
theorem bodyReadsWhere_of_readsBody {reads : Tree.Element → List Token → Prop}
    (hreads : Relocates text other reads)
    (htagged : ∀ element read, reads element read → element.isTriviaOnly = false)
    {children : List Tree.Node} {inner : List Token} (h : ReadsBody reads children inner)
    (hrun : text.IsRun inner)
    (hreports : (childElements children).flatMap (elementReports text) = []) :
    BodyReadsWhere other (ReadsBody reads) ((contentOf text children).map (List.map Value.piece))
      (outlines (childrenOf text children)) (inner.map (Token.lexeme text)) := by
  intro tokens hother hlexemes
  cases h with
  | @children elements _ hchildren =>
    have hcontent : contentOf text (elements.map .element) = none := by
      cases elements <;> rfl
    have hnothing : IsLead (([] : List Lexeme).map Lexeme.kind) := isLead_nil
    obtain ⟨read, hread, hbody⟩ :=
      exists_children hreads htagged hchildren hrun hreports hnothing hother hlexemes
    rw [hcontent]
    exact ⟨_, .children hread, hbody⟩
  | @text blanks nodes hblanks hcontent hbegins =>
    rw [List.map_append] at hlexemes
    obtain ⟨gap, value, rfl, hgap, hvalue⟩ := List.map_eq_append_iff.mp hlexemes
    have hnodesRun := hrun.part (List.suffix_append blanks (nodeTokens nodes)).isInfix
    obtain ⟨read, hread, rfl, hpieces⟩ := exists_pieces hcontent.2 hnodesRun
      (hother.part (List.suffix_append gap value).isInfix) hvalue
    have hne : read ≠ [] := by
      rintro rfl
      exact hcontent.nodeTokens_ne_nil (List.map_eq_nil_iff.mp hvalue.symm)
    have hnoElement : BeginsNoElement (nodeTokens read) := by
      rw [@beginsNoElement_iff_beginsText other, hvalue, ← beginsNoElement_iff_beginsText]
      exact hbegins
    refine ⟨_, .text (hblanks.of_kinds (kinds_of_lexemes hgap)) ⟨hne, hread⟩ hnoElement, ?_, rfl,
      rfl⟩
    simp [contentOf, hpieces]

/-- An element that has been read with complete tags is more than trivia. -/
theorem not_isTriviaOnly_of_readsElement {levels : Nat} {element : Tree.Element} {read : List Token}
    (h : ReadsElement levels element read) : element.isTriviaOnly = false := by
  cases levels <;> cases h <;> rfl

/-- The name of a closing tag that is not reported is that of the opening tag. -/
theorem closingName_of_mismatches {element : Tree.Element} {name : Token} {closing : ClosingTag}
    {close : List Token} (hname : element.name = some [name])
    (hclosing : element.closingTag = some closing) (hclose : ReadsClosingTag closing close)
    (h : mismatches text element = []) :
    closing.name.map text.wording = some (text.wording [name]) := by
  obtain ⟨-, -, -, -, -⟩ := hclose
  simpa [mismatches, hclosing, hname] using h

/-- An element is read elsewhere if what stands between its tags is. -/
theorem relocates_elementWith {body : List Tree.Node → List Token → Prop}
    (hbody : ∀ children inner, body children inner → text.IsRun inner →
      (childElements children).flatMap (elementReports text) = [] →
      BodyReadsWhere other body ((contentOf text children).map (List.map Value.piece))
        (outlines (childrenOf text children)) (inner.map (Token.lexeme text))) :
    Relocates text other (ReadsElementWith body) := by
  intro element read h hrun hreports before hlead
  obtain ⟨hmismatches, hduplicates, hbelow⟩ := reports_eq_nil_iff.mp hreports
  cases h with
  | @selfClosing leading front bracket name attributes tagEnd tag hleading hbracket htag hkind =>
    have htagRun : text.IsRun tag := hrun.part ⟨front ++ [bracket], [], by simp⟩
    rw [outline_elementOf rfl (bindOpenTag_eq htag htagRun).1]
    exact readsWhere_selfClosing body hleading hbracket htag hkind htagRun hduplicates hlead
  | @paired leading front bracket name attributes tagEnd tag children inner closing close hleading
      hbracket htag hkind hinner hclose =>
    have htagRun : text.IsRun tag := hrun.part ⟨front ++ [bracket], inner ++ close, by simp⟩
    have hclosing := closingName_of_mismatches rfl rfl hclose hmismatches
    have hwhole := readsWhere_paired hleading hbracket htag hkind htagRun hduplicates hclose hclosing
      (hbody children inner hinner (hrun.part ⟨front ++ bracket :: tag, close, by simp⟩) hbelow) hlead
    rw [outline_elementOf rfl (bindOpenTag_eq htag htagRun).1]
    simpa using hwhole

/-- An element of which nothing is reported is read wherever its lexemes stand, whatever trivia are in
front of it. -/
theorem relocates_readsElement (levels : Nat) : Relocates text other (ReadsElement levels) := by
  induction levels with
  | zero => exact relocates_elementWith fun _ _ h => h.elim
  | succ levels ih =>
    exact relocates_elementWith fun _ _ => bodyReadsWhere_of_readsBody ih
      fun _ _ => not_isTriviaOnly_of_readsElement

end JobMarkup.Template
