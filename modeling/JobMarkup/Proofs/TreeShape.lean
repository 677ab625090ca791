import JobMarkup.Proofs.Accounting
import JobMarkup.Proofs.TagGrammar
import JobMarkup.Proofs.TreeParts

/-!
# The shape of every tree that is read

Faulty markup gives partial trees, but not any trees. Slots hold the tokens of the kinds they are
for, symbols are parts with delimiters behind them, content is single tokens and interpolations, and
what stands between the tags of an element is either elements or content. An element that nothing
stands in is trivia or a tag without a body.
-/

namespace JobMarkup.Grammar

open JobMarkup.Tree

/-! ## Shapes -/

/-- One token of an accepted kind. -/
def IsMark (accepts : TokenKind → Bool) (tokens : List Token) : Prop :=
  ∃ token, tokens = [token] ∧ accepts token.kind = true

/-- Delimiters, each of them with or without a part behind it. -/
inductive FollowParts (delimiter : TokenKind) (isPart : Node → Prop) : List Node → Prop
  | nil : FollowParts delimiter isPart []
  | missing {token : Token} {rest : List Node} : token.kind = delimiter →
      FollowParts delimiter isPart rest →
      FollowParts delimiter isPart (.single [token] :: rest)
  | part {token : Token} {node : Node} {rest : List Node} : token.kind = delimiter → isPart node →
      FollowParts delimiter isPart rest →
      FollowParts delimiter isPart (.single [token] :: node :: rest)

/-- A part and what follows it, where no two parts stand side by side. -/
def HasParts (delimiter : TokenKind) (isPart : Node → Prop) (nodes : List Node) : Prop :=
  ∃ first rest, nodes = first :: rest ∧ isPart first ∧ FollowParts delimiter isPart rest

/-- The node of a compound symbol, some parts of which may be missing. -/
def HasCompoundShape (node : Node) : Prop :=
  ∃ nodes, node = .compoundSymbol nodes ∧ HasParts .period IsPartialNode nodes

/-- The nodes of a namespaced symbol, some parts of which may be missing. -/
def HasSymbolShape : List Node → Prop := HasParts .slash HasCompoundShape

/-- An interpolation, the symbol and the closing mark of which may be missing. -/
structure HasInterpolationShape (whole : Interpolation) : Prop where
  opening : IsMark (· == .openReference) whole.opening
  symbol : ∀ nodes ∈ whole.symbol, HasSymbolShape nodes
  closing : ∀ mark ∈ whole.closing, IsMark (· == .closeReference) mark

/-- A single token or an interpolation. -/
def HasPieceShape (node : Node) : Prop :=
  (∃ token, node = .single [token])
    ∨ ∃ whole, node = .interpolation whole ∧ HasInterpolationShape whole

/-- The nodes of content, which is not empty. -/
def HasContentShape (nodes : List Node) : Prop := nodes ≠ [] ∧ ∀ node ∈ nodes, HasPieceShape node

/-- An attribute, of which all but the name may be missing. -/
structure HasAttributeShape (attr : Attribute) : Prop where
  name : IsPartialSymbol attr.name
  equal : ∀ mark ∈ attr.equal, IsMark (· == .equal) mark
  openQuote : ∀ mark ∈ attr.openQuote, IsMark (· == .quote) mark
  contents : ∀ nodes ∈ attr.contents, HasContentShape nodes
  closeQuote : ∀ mark ∈ attr.closeQuote, IsMark (· == .quote) mark

/-- A comment, the end of which may be missing. -/
structure HasCommentShape (comment : Comment) : Prop where
  opening : ∃ bang hyphens, comment.opening = [bang, hyphens]
    ∧ bang.kind = .openBang ∧ hyphens.kind = .doubleHyphen
  closing : ∀ marks ∈ comment.closing, ∃ hyphens angle, marks = [hyphens, angle]
    ∧ hyphens.kind = .doubleHyphen ∧ angle.kind = .closeAngle

/-- A comment or a run of blanks. -/
def HasTriviumShape (node : Node) : Prop :=
  (∃ comment, node = .comment comment ∧ HasCommentShape comment)
    ∨ ∃ run, node = .single run ∧ run ≠ [] ∧ AllBlank run

/-- A closing tag, the name and the end of which may be missing. -/
structure HasClosingTagShape (tag : ClosingTag) : Prop where
  opening : IsMark (· == .openSlash) tag.opening
  name : ∀ mark ∈ tag.name, IsMark (· == .letters) mark
  closing : ∀ mark ∈ tag.closing, IsMark (· == .closeAngle) mark

/-- An element with a tag that has been opened: trivia in front of it, its bracket, and what there
is of its name, its attributes and its end. -/
structure HasTagShape (element : Element) : Prop where
  leadingTrivia : ∀ node ∈ element.leadingTrivia, HasTriviumShape node
  openBracket : ∃ mark, element.openBracket = some mark ∧ IsMark (· == .openAngle) mark
  name : ∀ tokens ∈ element.name, tokens ≠ []
  attributes : ∀ attr ∈ element.attributes, HasAttributeShape attr
  tagEnd : ∀ mark ∈ element.tagEnd, IsMark TokenKind.isTagEnd mark

/-- What stands between the tags of an element: elements, or one node of content. -/
inductive HasBodyShape (child : Element → Prop) : List Node → Prop
  | children {elements : List Element} : (∀ element ∈ elements, child element) →
      HasBodyShape child (elements.map .element)
  | content {nodes : List Node} : HasContentShape nodes → HasBodyShape child [.content nodes]

/-- An element: trivia without a tag, a tag without a body, or a tag with a body and a closing tag,
which may be missing. -/
inductive HasElementShape (child : Element → Prop) : Element → Prop
  | trivia {leading : List Node} : leading ≠ [] → (∀ node ∈ leading, HasTriviumShape node) →
      HasElementShape child { leadingTrivia := leading }
  | bare {element : Element} : HasTagShape element → hasBody element = false → IsOpened element →
      HasElementShape child element
  | filled {element : Element} {children : List Node} {closingTag : Option ClosingTag} :
      HasTagShape element → hasBody element = true →
      HasBodyShape child children → (∀ tag ∈ closingTag, HasClosingTagShape tag) →
      HasElementShape child { element with children, closingTag }

/-- An element with a tag, what stands in it, and its closing tag if it is there. -/
structure HasTaggedShape (child : Element → Prop) (element : Element) : Prop where
  tag : HasTagShape element
  children : HasBodyShape child element.children
  closingTag : ∀ tag ∈ element.closingTag, HasClosingTagShape tag

/-- An element is trivia or has a tag. -/
theorem HasElementShape.trivia_or_tagged {child : Element → Prop} {element : Element}
    (h : HasElementShape child element) :
    (∃ leading, leading ≠ [] ∧ (∀ node ∈ leading, HasTriviumShape node)
      ∧ element = { leadingTrivia := leading }) ∨ HasTaggedShape child element := by
  cases h with
  | trivia hne hleading => exact Or.inl ⟨_, hne, hleading, rfl⟩
  | bare htag _ hopened =>
    have hnone : HasBodyShape child [] := @HasBodyShape.children child [] (by simp)
    exact Or.inr ⟨htag, by rwa [hopened.children_eq], by simp [hopened.closingTag_eq]⟩
  | filled htag _ hbody hclosing =>
    exact Or.inr ⟨⟨htag.leadingTrivia, htag.openBracket, htag.name, htag.attributes, htag.tagEnd⟩,
      hbody, hclosing⟩

/-- An element that holds elements down to the given number of levels below it, and content below
these. -/
def HasShape : (levels : Nat) → Element → Prop
  | 0 => HasElementShape fun _ => False
  | levels + 1 => HasElementShape (HasShape levels)

/-- A document: an element with trivia behind it. -/
structure HasDocumentShape (document : Document) : Prop where
  root : HasShape maxDepth document.root
  trailingTrivia : ∀ node ∈ document.trailingTrivia, HasTriviumShape node

/-! ## Rules read shapes -/

variable {α β : Type}

/-- Whatever the rule reads satisfies the predicate, with reports or without. -/
def Rule.Yields (rule : Rule α) (holds : α → Prop) : Prop :=
  ∀ tokens parsed, rule tokens = some parsed → holds parsed.value

namespace Rule

/-- What is made of a value has a shape if the value has the shape that this asks for. -/
theorem Yields.map {rule : Rule α} {holds : α → Prop} (h : rule.Yields holds) (f : α → β)
    {holds' : β → Prop} (hf : ∀ value, holds value → holds' (f value)) :
    (rule.map f).Yields holds' := by
  intro tokens parsed hparsed
  simp only [Rule.map, Option.map_eq_some_iff] at hparsed
  obtain ⟨read, hread, rfl⟩ := hparsed
  exact hf _ (h tokens read hread)

/-- A choice reads a shape if both of its rules do. -/
theorem Yields.orElse {first second : Rule α} {holds : α → Prop} (hfirst : first.Yields holds)
    (hsecond : second.Yields holds) : (first.orElse second).Yields holds := by
  intro tokens parsed hparsed
  rw [Rule.orElse] at hparsed
  split at hparsed
  · next read hread => exact hfirst tokens parsed (hread.trans hparsed)
  · exact hsecond tokens parsed hparsed

/-- An optional value that is there has the shape that its rule reads. -/
theorem Yields.optional {rule : Rule α} {holds : α → Prop} (h : rule.Yields holds)
    (tokens : List Token) : ∀ value ∈ (rule.optional tokens).value, holds value := by
  rw [Rule.optional]
  split
  · next parsed hparsed =>
    rintro value hvalue
    obtain rfl := Option.some.inj hvalue
    exact h tokens parsed hparsed
  · simp

/-- Each value of a repetition has the shape that its rule reads. -/
theorem Yields.many {rule : Rule α} {holds : α → Prop} (h : rule.Yields holds)
    (tokens : List Token) : ∀ value ∈ (rule.many tokens).value, holds value := by
  rw [Rule.many]
  generalize tokens.length = bound
  induction bound generalizing tokens with
  | zero => simp [atMost]
  | succ bound ih =>
    rw [atMost]
    split
    · simp
    · next first hfirst => exact List.forall_mem_cons.mpr ⟨h tokens first hfirst, ih first.rest⟩

/-- A single token is a mark of the accepted kind. -/
theorem token_yields (accepts : TokenKind → Bool) : (token accepts).Yields (IsMark accepts) := by
  intro tokens parsed h
  obtain ⟨token, haccepts, hvalue⟩ := token_eq_some h
  exact ⟨token, hvalue, haccepts⟩

/-- Letters and all that continues them are a partial symbol. -/
theorem partialSymbol_yields : partialSymbol.Yields IsPartialSymbol := by
  intro tokens parsed h
  exact partialSymbol_sound tokens parsed h (reports_partialSymbol h)

/-- A delimiter, and the part behind it if there is one. -/
theorem delimitedPart_yields {delimiter : TokenKind} (missing : GrammarFault) {part : Rule Node}
    {isPart : Node → Prop} (hpart : part.Yields isPart) :
    (delimitedPart delimiter missing part).Yields fun group =>
      ∀ rest, FollowParts delimiter isPart rest → FollowParts delimiter isPart (group ++ rest) := by
  intro tokens parsed h
  obtain ⟨token, rest, rfl, hkind, ⟨next, hnext, rfl⟩ | ⟨-, rfl⟩⟩ := delimitedPart_eq_some h
  · exact fun _ hrest => .part hkind (hpart rest next hnext) hrest
  · exact fun _ hrest => .missing hkind hrest

/-- Parts with delimiters begin with a part, and only behind delimiters a part may be missing. -/
theorem joined_yields {delimiter : TokenKind} (missing : GrammarFault) {part : Rule Node}
    {isPart : Node → Prop} (hpart : part.Yields isPart) :
    (joined delimiter missing part).Yields (HasParts delimiter isPart) := by
  intro tokens parsed h
  simp only [joined, Option.map_eq_some_iff] at h
  obtain ⟨first, hfirst, rfl⟩ := h
  have hgroups := (@delimitedPart_yields delimiter missing part isPart hpart).many first.rest
  refine ⟨first.value, _, rfl, hpart tokens first hfirst, ?_⟩
  generalize ((delimitedPart delimiter missing part).many first.rest).value = groups at hgroups
  induction groups with
  | nil => exact .nil
  | cons group groups ih =>
    obtain ⟨hgroup, hothers⟩ := List.forall_mem_cons.mp hgroups
    exact hgroup _ (ih hothers)

/-- A compound symbol has partial symbols for its parts. -/
theorem compoundSymbol_yields : compoundSymbol.Yields (HasParts .period IsPartialNode) :=
  joined_yields _ (partialSymbol_yields.map Node.partialSymbol fun tokens h => ⟨tokens, rfl, h⟩)

/-- A namespaced symbol has compound symbols for its parts. -/
theorem namespacedSymbol_yields : namespacedSymbol.Yields HasSymbolShape := by
  intro tokens parsed h
  simp only [namespacedSymbol, Option.map_eq_some_iff] at h
  obtain ⟨symbol, hsymbol, rfl⟩ := h
  have hpart : (compoundSymbol.map .compoundSymbol).Yields HasCompoundShape :=
    compoundSymbol_yields.map Node.compoundSymbol fun nodes h => ⟨nodes, rfl, h⟩
  exact joined_yields _ hpart tokens symbol hsymbol

/-- An interpolation has its opening mark, and its other parts if they are there. -/
theorem interpolation_yields : interpolation.Yields HasInterpolationShape := by
  intro tokens parsed h
  cases tokens with
  | nil => simp [interpolation] at h
  | cons token rest =>
    simp only [interpolation, Option.ite_none_right_eq_some, Option.some.injEq] at h
    obtain ⟨hkind, rfl⟩ := h
    exact ⟨⟨token, rfl, by simpa using hkind⟩, namespacedSymbol_yields.optional rest,
      (token_yields _).optional _⟩

/-- A piece of content is a single token or an interpolation. -/
theorem contentPiece_yields (terminators : List TokenKind) :
    (contentPiece terminators).Yields HasPieceShape := by
  intro tokens parsed h
  obtain h | ⟨token, rest, rfl, -, -, rfl⟩ := contentPiece_eq_some h
  · exact interpolation_yields.map Node.interpolation (fun whole h => Or.inr ⟨whole, rfl, h⟩) tokens
      parsed h
  · exact Or.inl ⟨token, rfl⟩

/-- Content is not empty and consists of pieces. -/
theorem content_yields (terminators : List TokenKind) :
    (content terminators).Yields HasContentShape := by
  intro tokens parsed h
  simp only [content, Option.ite_none_left_eq_some, Option.some.injEq] at h
  obtain ⟨hsome, rfl⟩ := h
  exact ⟨mt List.isEmpty_iff.mpr hsome, (contentPiece_yields terminators).many tokens⟩

/-- An attribute is filled slot by slot, as far as there is something to fill it with. -/
theorem attribute_yields : Rule.attribute.Yields HasAttributeShape := by
  intro tokens parsed h
  simp only [Rule.attribute, Option.map_eq_some_iff] at h
  obtain ⟨name, hname, rfl⟩ := h
  have hsymbol := partialSymbol_yields tokens name hname
  rw [attributeAssignment]
  split
  · exact ⟨hsymbol, by simp, by simp, by simp, by simp⟩
  next sign hsign =>
  have hequal := token_yields _ _ sign hsign
  rw [quotedValue]
  split
  · exact ⟨hsymbol, by simpa using hequal, by simp, by simp, by simp⟩
  next quote hquote =>
  have hopenQuote := token_yields _ _ quote hquote
  exact ⟨hsymbol, by simpa [attributeValue] using hequal,
    by simpa [attributeValue] using hopenQuote, (content_yields _).optional _,
    (token_yields _).optional _⟩

/-- A comment has its opening marks, and its closing marks unless the text ends in it. -/
theorem comment_yields : comment.Yields HasCommentShape := by
  intro tokens parsed h
  match tokens, h with
  | bang :: hyphens :: rest, h =>
    obtain ⟨-, hleft⟩ := commentContents_spec rest
    simp only [comment, Option.ite_none_right_eq_some] at h
    obtain ⟨⟨hbang, hhyphens⟩, h⟩ := h
    have hopening : ∃ first second, [bang, hyphens] = [first, second]
        ∧ first.kind = .openBang ∧ second.kind = .doubleHyphen :=
      ⟨bang, hyphens, rfl, hbang, hhyphens⟩
    split at h
    · obtain rfl := Option.some.inj h
      exact ⟨hopening, by simp⟩
    · next hsome =>
      obtain rfl := Option.some.inj h
      obtain ⟨closing, angle, behind, heq, hclosing, hangle⟩ :=
        hleft.resolve_left (mt List.isEmpty_iff.mpr hsome)
      refine ⟨hopening, ?_⟩
      simp only [heq, Option.mem_def, Option.some.injEq, forall_eq']
      exact ⟨closing, angle, rfl, hclosing, hangle⟩

/-- A comment or a run of blanks is what a list of trivia consists of. -/
theorem trivium_yields : trivium.Yields HasTriviumShape := by
  have hblanks : blanks.Yields fun run => run ≠ [] ∧ AllBlank run := by
    intro tokens parsed h
    simp only [blanks, Option.ite_none_left_eq_some, Option.some.injEq] at h
    obtain ⟨hsome, rfl⟩ := h
    exact ⟨mt List.isEmpty_iff.mpr hsome, allBlank_takeWhile tokens⟩
  exact (comment_yields.map Node.comment fun comment h => Or.inl ⟨comment, rfl, h⟩).orElse
    (hblanks.map Node.single fun run h => Or.inr ⟨run, rfl, h⟩)

/-- A closing tag has its opening mark, and its other parts if they are there. -/
theorem closingTag_yields : closingTag.Yields HasClosingTagShape := by
  intro tokens parsed h
  cases tokens with
  | nil => simp [closingTag] at h
  | cons token rest =>
    simp only [closingTag, Option.ite_none_right_eq_some, Option.some.injEq] at h
    obtain ⟨hkind, rfl⟩ := h
    have hopening : IsMark (· == .openSlash) [token] := ⟨token, rfl, by simpa using hkind⟩
    rw [closingTagName]
    split
    · exact ⟨hopening, by simp, by simp⟩
    · next name hname =>
      have hletters := token_yields _ _ name hname
      exact ⟨hopening, by simpa [closingTagEnd] using hletters, (token_yields _).optional _⟩

/-- An attribute of a tag has a name, and its other parts if they are there. -/
theorem spacedAttribute_yields : spacedAttribute.Yields HasAttributeShape := by
  intro tokens parsed h
  simp only [spacedAttribute, Option.map_eq_some_iff] at h
  obtain ⟨read, hread, rfl⟩ := h
  exact attribute_yields _ read hread

end Rule

/-- Trivia consist of comments and runs of blanks. -/
theorem trivia_shape (tokens : List Token) :
    ∀ node ∈ (trivia tokens).value, HasTriviumShape node :=
  Rule.trivium_yields.many tokens

/-- A name that begins with a token of a name is not empty. -/
theorem tagName_ne_nil {token : Token} {rest : List Token} (hblank : token.isBlank = false)
    (htagEnd : token.isTagEnd = false) : (tagName (token :: rest)).value ≠ [] := by
  simp [tagName, isTagName, hblank, htagEnd]

/-- An opening tag has the shape of one, with nothing behind it. -/
theorem openTag_shape {leading : List Node} (hleading : ∀ node ∈ leading, HasTriviumShape node)
    {bracket : List Token} (hbracket : IsMark (· == .openAngle) bracket) (tokens : List Token) :
    HasTagShape (openTag leading bracket tokens).value := by
  have hblank := follows_skipBlanks tokens
  have hopening : ∃ mark, some bracket = some mark ∧ IsMark (· == .openAngle) mark :=
    ⟨bracket, rfl, hbracket⟩
  rw [openTag]
  split
  · exact ⟨hleading, hopening, by simp, by simp, by simp⟩
  next token rest hskip =>
  rw [hskip] at hblank
  split
  · next htagEnd =>
    have hmark : IsMark TokenKind.isTagEnd [token] := ⟨token, rfl, htagEnd⟩
    exact ⟨hleading, hopening, by simp, by simp, by simpa using hmark⟩
  · next htagEnd =>
    have hname : (tagName (token :: rest)).value ≠ [] :=
      tagName_ne_nil (follows_cons.mp hblank) (Bool.eq_false_iff.mpr htagEnd)
    exact ⟨hleading, hopening, by simpa [namedTag] using hname,
      Rule.spacedAttribute_yields.many _, (Rule.token_yields _).optional _⟩

/-- A body function fills the element with children and a closing tag of the given shape. -/
def Fills (child : Element → Prop) (body : Element → List Token → Parsed Element) : Prop :=
  ∀ element tokens, element.children = [] → ∃ children closingTag,
    (body element tokens).value = { element with children, closingTag }
      ∧ HasBodyShape child children ∧ ∀ tag ∈ closingTag, HasClosingTagShape tag

/-- A node of content is a body, and no content is an empty body. -/
theorem contentNode_shape {child : Element → Prop} {nodes : List Node}
    (h : ∀ node ∈ nodes, HasPieceShape node) : HasBodyShape child (contentNode nodes) := by
  rw [contentNode]
  split
  · exact @HasBodyShape.children child [] (by simp)
  · next hsome => exact .content ⟨mt List.isEmpty_iff.mpr hsome, h⟩

/-- A raw body fills an element with content of single tokens. -/
theorem rawBody_fills : Fills (fun _ => False) rawBody := by
  intro element tokens _
  refine ⟨_, _, rfl, contentNode_shape ?_, Rule.closingTag_yields.optional _⟩
  intro node hmem
  obtain ⟨token, -, rfl⟩ := List.mem_map.mp hmem
  exact Or.inl ⟨token, rfl⟩

/-- The text of an element is content, if there is any. -/
theorem optional_content_shape (terminators : List TokenKind) (tokens : List Token) :
    ∀ node ∈ ((Rule.content terminators).optional tokens).value.getD [], HasPieceShape node := by
  have hcontent := (Rule.content_yields terminators).optional tokens
  cases hvalue : ((Rule.content terminators).optional tokens).value with
  | none => simp
  | some nodes => exact (hcontent nodes hvalue).2

/-- A body with elements fills an element with children of their shape, or with content. -/
theorem nestedBody_fills {child : Rule Element} {holds : Element → Prop}
    (hchild : child.Yields holds) : Fills holds (nestedBody child) := by
  intro element tokens hnone
  have hchildren := hchild.many tokens
  rw [nestedBody]
  generalize child.many tokens = read at hchildren
  simp only [elementEnd]
  split
  · exact ⟨_, _, rfl, contentNode_shape (optional_content_shape _ _),
      Rule.closingTag_yields.optional _⟩
  · split
    · exact ⟨_, _, rfl, .children hchildren, Rule.closingTag_yields.optional _⟩
    · exact ⟨_, _, rfl, .children hchildren, Rule.closingTag_yields.optional _⟩

namespace Rule

/-- An element is trivia, a bare tag, or a tag with what its body fills in. -/
theorem elementWith_yields {child : Element → Prop}
    {body : Element → List Token → Parsed Element} (hbody : Fills child body) :
    (elementWith body).Yields (HasElementShape child) := by
  intro tokens parsed h
  have hleading := trivia_shape (skipBlanks tokens)
  rw [elementWith] at h
  split at h
  · next bracket hbracket =>
    obtain rfl := Option.some.inj h
    have htag := openTag_shape hleading (token_yields _ _ bracket hbracket) bracket.rest
    have hopened := openTag_isOpened (trivia (skipBlanks tokens)).value bracket.value bracket.rest
    dsimp only [taggedElement]
    split
    · next hhasBody =>
      obtain ⟨children, closingTag, hvalue, hchildren, hclosing⟩ :=
        hbody _ (openTag (trivia (skipBlanks tokens)).value bracket.value bracket.rest).rest
          hopened.children_eq
      rw [hvalue]
      exact .filled htag hhasBody hchildren hclosing
    · next hhasBody => exact .bare htag (Bool.eq_false_iff.mpr hhasBody) hopened
  · simp only [Option.ite_none_left_eq_some, Option.some.injEq] at h
    obtain ⟨hsome, rfl⟩ := h
    exact .trivia (mt List.isEmpty_iff.mpr hsome) hleading

/-- An element has elements in it down to the given number of levels. -/
theorem element_yields (levels : Nat) : (Rule.element levels).Yields (HasShape levels) := by
  induction levels with
  | zero => exact elementWith_yields rawBody_fills
  | succ levels ih => exact elementWith_yields (nestedBody_fills ih)

/-- A document has an element of the greatest depth and trivia behind it. -/
theorem document_yields : Rule.document.Yields HasDocumentShape := by
  intro tokens parsed h
  simp only [Rule.document, Option.map_eq_some_iff] at h
  obtain ⟨root, hroot, rfl⟩ := h
  exact ⟨element_yields maxDepth tokens root hroot, trivia_shape root.rest⟩

end Rule

end JobMarkup.Grammar
