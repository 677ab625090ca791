import JobMarkup.Grammar.Reader

/-!
# Tokens mapped one by one

A rule of the grammar looks at the kinds of tokens and at nothing else. Tokens that are mapped one by
one to tokens of the same kinds are read into the same tree, its tokens mapped, and the reports are
about the mapped tokens.
-/

namespace JobMarkup

namespace Tree

variable (f : Token → Token)

/-- A slot with its tokens mapped. -/
abbrev mapSlot (slot : Option (List Token)) : Option (List Token) := slot.map (List.map f)

/-- A closing tag with its tokens mapped. -/
def ClosingTag.map (tag : ClosingTag) : ClosingTag :=
  ⟨tag.opening.map f, mapSlot f tag.name, mapSlot f tag.closing⟩

/-- A comment with its tokens mapped. -/
def Comment.map (comment : Comment) : Comment :=
  ⟨comment.opening.map f, comment.contents.map f, mapSlot f comment.closing⟩

mutual

/-- A node with its tokens mapped. -/
def Node.map : Node → Node
  | .single tokens => .single (tokens.map f)
  | .sequence nodes => .sequence (mapNodes nodes)
  | .partialSymbol tokens => .partialSymbol (tokens.map f)
  | .compoundSymbol nodes => .compoundSymbol (mapNodes nodes)
  | .namespacedSymbol nodes => .namespacedSymbol (mapNodes nodes)
  | .interpolation reference => .interpolation reference.map
  | .attribute attr => .attribute attr.map
  | .element root => .element root.map
  | .closingTag tag => .closingTag (tag.map f)
  | .comment remark => .comment (remark.map f)
  | .content nodes => .content (mapNodes nodes)
  | .trivia nodes => .trivia (mapNodes nodes)
  | .document whole => .document whole.map

/-- Nodes in a row with their tokens mapped. -/
def mapNodes : List Node → List Node
  | [] => []
  | node :: rest => node.map :: mapNodes rest

/-- An interpolation with its tokens mapped. -/
def Interpolation.map : Interpolation → Interpolation
  | ⟨opening, none, closing⟩ => ⟨opening.map f, none, mapSlot f closing⟩
  | ⟨opening, some symbol, closing⟩ => ⟨opening.map f, some (mapNodes symbol), mapSlot f closing⟩

/-- An attribute with its tokens mapped. -/
def Attribute.map : Attribute → Attribute
  | ⟨name, equal, openQuote, none, closeQuote⟩ =>
    ⟨name.map f, mapSlot f equal, mapSlot f openQuote, none, mapSlot f closeQuote⟩
  | ⟨name, equal, openQuote, some contents, closeQuote⟩ =>
    ⟨name.map f, mapSlot f equal, mapSlot f openQuote, some (mapNodes contents),
      mapSlot f closeQuote⟩

/-- Attributes in a row with their tokens mapped. -/
def mapAttributes : List Attribute → List Attribute
  | [] => []
  | attr :: rest => attr.map :: mapAttributes rest

/-- An element with its tokens mapped. -/
def Element.map : Element → Element
  | ⟨leadingTrivia, openBracket, name, attributes, tagEnd, children, closingTag⟩ =>
    ⟨mapNodes leadingTrivia, mapSlot f openBracket, mapSlot f name, mapAttributes attributes,
      mapSlot f tagEnd, mapNodes children, closingTag.map (ClosingTag.map f)⟩

/-- A document with its tokens mapped. -/
def Document.map : Document → Document
  | ⟨root, trailingTrivia⟩ => ⟨root.map, mapNodes trailingTrivia⟩

end

variable {f}

/-- Nodes in a row are mapped one by one. -/
@[simp] theorem mapNodes_eq_map (nodes : List Node) : mapNodes f nodes = nodes.map (Node.map f) := by
  induction nodes with
  | nil => rfl
  | cons node rest ih => rw [mapNodes, ih, List.map_cons]

/-- Attributes in a row are mapped one by one. -/
@[simp] theorem mapAttributes_eq_map (attributes : List Attribute) :
    mapAttributes f attributes = attributes.map (Attribute.map f) := by
  induction attributes with
  | nil => rfl
  | cons attr rest ih => rw [mapAttributes, ih, List.map_cons]

/-- The nodes of a slot, none where it is left open, are mapped one by one. -/
theorem getD_map_nodes (slot : Option (List Node)) :
    (slot.map (List.map (Node.map f))).getD [] = (slot.getD []).map (Node.map f) :=
  Option.getD_map (List.map (Node.map f)) [] slot

/-- An interpolation is mapped part by part. -/
theorem Interpolation.map_eq (interpolation : Interpolation) :
    interpolation.map f = ⟨interpolation.opening.map f,
      interpolation.symbol.map (List.map (Node.map f)), mapSlot f interpolation.closing⟩ := by
  obtain ⟨opening, _ | symbol, closing⟩ := interpolation <;> simp [map]

/-- An attribute is mapped part by part. -/
theorem Attribute.map_eq (attr : Attribute) :
    attr.map f = ⟨attr.name.map f, mapSlot f attr.equal, mapSlot f attr.openQuote,
      attr.contents.map (List.map (Node.map f)), mapSlot f attr.closeQuote⟩ := by
  obtain ⟨name, equal, openQuote, _ | contents, closeQuote⟩ := attr <;> simp [map]

/-- An element is mapped part by part. -/
theorem Element.map_eq (element : Element) :
    element.map f = ⟨element.leadingTrivia.map (Node.map f), mapSlot f element.openBracket,
      mapSlot f element.name, element.attributes.map (Attribute.map f), mapSlot f element.tagEnd,
      element.children.map (Node.map f), element.closingTag.map (ClosingTag.map f)⟩ := by
  cases element
  simp [map]

/-! ## Tokens of mapped trees -/

/-- The tokens of a mapped slot are those of the slot, mapped. -/
theorem slotTokens_map (slot : Option (List Token)) :
    slotTokens (mapSlot f slot) = (slotTokens slot).map f := by
  cases slot <;> rfl

/-- The tokens of a mapped closing tag are those of the tag, mapped. -/
theorem ClosingTag.tokens_map (tag : ClosingTag) : (tag.map f).tokens = tag.tokens.map f := by
  simp [map, tokens, slotTokens_map]

/-- The tokens of a mapped comment are those of the comment, mapped. -/
theorem Comment.tokens_map (comment : Comment) : (comment.map f).tokens = comment.tokens.map f := by
  simp [map, tokens, slotTokens_map]

/-- The tokens of a closing tag that may be missing are mapped if it is there. -/
theorem closingTagTokens_map (tag : Option ClosingTag) :
    closingTagTokens (tag.map (ClosingTag.map f)) = (closingTagTokens tag).map f := by
  cases tag with
  | none => rfl
  | some tag => exact tag.tokens_map

mutual

/-- The tokens of a mapped node are those of the node, mapped, by recursion on the tree. -/
theorem Node.tokens_map : (node : Node) → (node.map f).tokens = node.tokens.map f
  | .single _ => by simp only [Node.map, Node.tokens]
  | .sequence nodes => by simp only [Node.map, Node.tokens, nodeTokens_mapNodes nodes]
  | .partialSymbol _ => by simp only [Node.map, Node.tokens]
  | .compoundSymbol nodes => by simp only [Node.map, Node.tokens, nodeTokens_mapNodes nodes]
  | .namespacedSymbol nodes => by simp only [Node.map, Node.tokens, nodeTokens_mapNodes nodes]
  | .interpolation reference => by simp only [Node.map, Node.tokens, reference.tokens_map]
  | .attribute attr => by simp only [Node.map, Node.tokens, attr.tokens_map]
  | .element root => by simp only [Node.map, Node.tokens, root.tokens_map]
  | .closingTag tag => by simp only [Node.map, Node.tokens, tag.tokens_map]
  | .comment remark => by simp only [Node.map, Node.tokens, remark.tokens_map]
  | .content nodes => by simp only [Node.map, Node.tokens, nodeTokens_mapNodes nodes]
  | .trivia nodes => by simp only [Node.map, Node.tokens, nodeTokens_mapNodes nodes]
  | .document whole => by simp only [Node.map, Node.tokens, whole.tokens_map]

/-- The tokens of nodes that are mapped as a row are those of the row, mapped. -/
theorem nodeTokens_mapNodes :
    (nodes : List Node) → nodeTokens (mapNodes f nodes) = (nodeTokens nodes).map f
  | [] => rfl
  | node :: rest => by
    simp only [mapNodes, nodeTokens, node.tokens_map, nodeTokens_mapNodes rest, List.map_append]

/-- The tokens of a mapped interpolation are those of the interpolation, mapped. -/
theorem Interpolation.tokens_map :
    (interpolation : Interpolation) → (interpolation.map f).tokens = interpolation.tokens.map f
  | ⟨opening, none, closing⟩ => by
    simp only [Interpolation.map, Interpolation.tokens, slotTokens_map, List.map_append]
  | ⟨opening, some symbol, closing⟩ => by
    simp only [Interpolation.map, Interpolation.tokens, slotTokens_map, nodeTokens_mapNodes symbol,
      List.map_append]

/-- The tokens of a mapped attribute are those of the attribute, mapped. -/
theorem Attribute.tokens_map : (attr : Attribute) → (attr.map f).tokens = attr.tokens.map f
  | ⟨name, equal, openQuote, none, closeQuote⟩ => by
    simp only [Attribute.map, Attribute.tokens, slotTokens_map, List.map_append]
  | ⟨name, equal, openQuote, some contents, closeQuote⟩ => by
    simp only [Attribute.map, Attribute.tokens, slotTokens_map, nodeTokens_mapNodes contents,
      List.map_append]

/-- The tokens of mapped attributes in a row are those of the row, mapped. -/
theorem attributeTokens_mapAttributes : (attributes : List Attribute) →
    attributeTokens (mapAttributes f attributes) = (attributeTokens attributes).map f
  | [] => rfl
  | attr :: rest => by
    simp only [mapAttributes, attributeTokens, attr.tokens_map, attributeTokens_mapAttributes rest,
      List.map_append]

/-- The tokens of a mapped element are those of the element, mapped. -/
theorem Element.tokens_map : (element : Element) → (element.map f).tokens = element.tokens.map f
  | ⟨leadingTrivia, openBracket, name, attributes, tagEnd, children, closingTag⟩ => by
    simp only [Element.map, Element.tokens, slotTokens_map, nodeTokens_mapNodes leadingTrivia,
      attributeTokens_mapAttributes attributes, nodeTokens_mapNodes children, closingTagTokens_map,
      List.map_append]

/-- The tokens of a mapped document are those of the document, mapped. -/
theorem Document.tokens_map : (document : Document) → (document.map f).tokens = document.tokens.map f
  | ⟨root, trailingTrivia⟩ => by
    simp only [Document.map, Document.tokens, root.tokens_map, nodeTokens_mapNodes trailingTrivia,
      List.map_append]

end

/-- The tokens of nodes that are mapped one by one are those of the nodes, mapped. -/
theorem nodeTokens_map (nodes : List Node) :
    nodeTokens (nodes.map (Node.map f)) = (nodeTokens nodes).map f := by
  rw [← mapNodes_eq_map, nodeTokens_mapNodes]

end Tree

namespace Grammar

open JobMarkup.Tree

/-- The map keeps the kind of every token. -/
def KeepsKinds (f : Token → Token) : Prop := ∀ token, (f token).kind = token.kind

/-- A report about the mapped tokens. -/
def Report.map (f : Token → Token) (report : Report) : Report := ⟨report.fault, report.about.map f⟩

/-- What has been read, with its tokens mapped, the map of the value being the given one. -/
def Parsed.mapTokens {α : Type} (f : Token → Token) (g : α → α) (parsed : Parsed α) : Parsed α :=
  ⟨g parsed.value, parsed.rest.map f, parsed.reports.map (Report.map f)⟩

/-- From mapped tokens the rule reads what it reads from the tokens, mapped. -/
def Rule.Commutes {α : Type} (f : Token → Token) (g : α → α) (rule : Rule α) : Prop :=
  ∀ tokens, rule (tokens.map f) = (rule tokens).map (Parsed.mapTokens f g)

section Combinators

variable {α β : Type} {f : Token → Token} {g : α → α} {rule : Rule α}

/-- The value of what has been read is mapped by the map of values. -/
@[simp] theorem Parsed.value_mapTokens (parsed : Parsed α) :
    (parsed.mapTokens f g).value = g parsed.value := rfl

/-- The tokens left of what has been read are mapped one by one. -/
@[simp] theorem Parsed.rest_mapTokens (parsed : Parsed α) :
    (parsed.mapTokens f g).rest = parsed.rest.map f := rfl

/-- The reports about what has been read are about mapped tokens. -/
@[simp] theorem Parsed.reports_mapTokens (parsed : Parsed α) :
    (parsed.mapTokens f g).reports = parsed.reports.map (Report.map f) := rfl

/-- A report about mapped tokens is made on the same condition. -/
theorem map_reportIf (condition : Bool) (fault : GrammarFault) (about : List Token) :
    (reportIf condition fault about).map (Report.map f) = reportIf condition fault (about.map f) := by
  cases condition <;> rfl

/-- A rule commutes with a map of tokens whatever is made of its value, if that commutes as well. -/
theorem Rule.Commutes.map (h : rule.Commutes f g) {c : α → β} {k : β → β}
    (hc : ∀ value, c (g value) = k (c value)) : (rule.map c).Commutes f k := by
  intro tokens
  rw [Rule.map, Rule.map, h]
  cases rule tokens with
  | none => rfl
  | some parsed => simp [Parsed.map, Parsed.mapTokens, hc]

/-- An optional part commutes with a map of tokens if its rule does. -/
theorem Rule.Commutes.optional (h : rule.Commutes f g) (tokens : List Token) :
    rule.optional (tokens.map f) = (rule.optional tokens).mapTokens f (Option.map g) := by
  rw [Rule.optional, Rule.optional, h]
  cases rule tokens <;> rfl

/-- A choice commutes with a map of tokens if both of its rules do. -/
theorem Rule.Commutes.orElse {second : Rule α} (h : rule.Commutes f g)
    (hsecond : second.Commutes f g) : (rule.orElse second).Commutes f g := by
  intro tokens
  rw [Rule.orElse, Rule.orElse, h, hsecond]
  cases rule tokens <;> rfl

/-- A bounded repetition commutes with a map of tokens if its rule does. -/
theorem Rule.Commutes.atMost (h : rule.Commutes f g) (bound : Nat) (tokens : List Token) :
    rule.atMost bound (tokens.map f) = (rule.atMost bound tokens).mapTokens f (List.map g) := by
  induction bound generalizing tokens with
  | zero => rfl
  | succ bound ih =>
    rw [Rule.atMost, Rule.atMost, h]
    cases rule tokens with
    | none => rfl
    | some first => simp [Parsed.mapTokens, ih]

/-- A repetition commutes with a map of tokens, since there are as many tokens as before. -/
theorem Rule.Commutes.many (h : rule.Commutes f g) (tokens : List Token) :
    rule.many (tokens.map f) = (rule.many tokens).mapTokens f (List.map g) := by
  rw [Rule.many, Rule.many, List.length_map, h.atMost]

end Combinators

variable {f : Token → Token} (hf : KeepsKinds f)

include hf

/-- A map that keeps kinds keeps whether a token is blank. -/
theorem isBlank_map (token : Token) : (f token).isBlank = token.isBlank := by
  rw [Token.isBlank, Token.isBlank, hf]

/-- A map that keeps kinds keeps whether a token ends a tag. -/
theorem isTagEnd_map (token : Token) : (f token).isTagEnd = token.isTagEnd := by
  rw [Token.isTagEnd, Token.isTagEnd, hf]

/-- Mapped tokens have the same kinds in the same order. -/
theorem kinds_map (tokens : List Token) :
    (tokens.map f).map Token.kind = tokens.map Token.kind := by
  rw [List.map_map]
  exact List.map_congr_left fun token _ => hf token

/-- The kind of the first token is the same, if there is one. -/
theorem head_kind_map (tokens : List Token) :
    (tokens.map f).head?.map Token.kind = tokens.head?.map Token.kind := by
  rw [← List.head?_map, kinds_map hf, List.head?_map]

omit hf in
/-- Cutting where a property of the tokens ends, if the map keeps the property. -/
theorem takeWhile_map (p : Token → Bool) (hp : ∀ token, p (f token) = p token)
    (tokens : List Token) : (tokens.map f).takeWhile p = (tokens.takeWhile p).map f := by
  rw [List.takeWhile_map]
  exact congrArg (fun q => (tokens.takeWhile q).map f) (funext hp)

omit hf in
/-- Tokens are dropped up to the same place if the map keeps what is tested. -/
theorem dropWhile_map (p : Token → Bool) (hp : ∀ token, p (f token) = p token)
    (tokens : List Token) : (tokens.map f).dropWhile p = (tokens.dropWhile p).map f := by
  rw [List.dropWhile_map]
  exact congrArg (fun q => (tokens.dropWhile q).map f) (funext hp)

/-- As many blanks are skipped among mapped tokens. -/
theorem skipBlanks_map (tokens : List Token) :
    skipBlanks (tokens.map f) = (skipBlanks tokens).map f :=
  dropWhile_map _ (isBlank_map hf) tokens

/-- A single token is accepted by its kind, so its rule commutes with a map that keeps kinds. -/
theorem Rule.token_commutes (accepts : TokenKind → Bool) :
    (Rule.token accepts).Commutes f (List.map f) := by
  intro tokens
  cases tokens with
  | nil => rfl
  | cons first rest =>
    rw [List.map_cons, Rule.token, Rule.token, hf]
    split <;> rfl

/-- A run of blanks ends at the same place among mapped tokens. -/
theorem Rule.blanks_commutes : Rule.blanks.Commutes f (List.map f) := by
  intro tokens
  simp only [Rule.blanks, takeWhile_map _ (isBlank_map hf), skipBlanks_map hf, List.isEmpty_map]
  split <;> rfl

/-! ## Symbols -/

/-- Whether a token continues a symbol is told by kinds. -/
theorem continuesSymbol_map (token : Token) (rest : List Token) :
    continuesSymbol (f token) (rest.map f) = continuesSymbol token rest := by
  cases rest <;> simp [continuesSymbol, hf _]

/-- The tail of a symbol ends at the same place among mapped tokens. -/
theorem symbolTail_map (tokens : List Token) :
    symbolTail (tokens.map f) = ((symbolTail tokens).1.map f, (symbolTail tokens).2.map f) := by
  induction tokens with
  | nil => rfl
  | cons token rest ih =>
    rw [List.map_cons, symbolTail, symbolTail, continuesSymbol_map hf]
    split
    · simp [ih]
    · rfl

/-- The rule for partial symbols commutes with a map that keeps kinds. -/
theorem Rule.partialSymbol_commutes : Rule.partialSymbol.Commutes f (List.map f) := by
  intro tokens
  cases tokens with
  | nil => rfl
  | cons token rest =>
    rw [List.map_cons, Rule.partialSymbol, Rule.partialSymbol, hf]
    split
    · simp [symbolTail_map hf, Parsed.mapTokens]
    · rfl

/-- The rule for a delimiter and its part commutes with the map if the part does. -/
theorem Rule.delimitedPart_commutes (delimiter : TokenKind) (missing : GrammarFault)
    {part : Rule Node} (hpart : part.Commutes f (Node.map f)) :
    (Rule.delimitedPart delimiter missing part).Commutes f (List.map (Node.map f)) := by
  intro tokens
  cases tokens with
  | nil => rfl
  | cons token rest =>
    rw [List.map_cons, Rule.delimitedPart, Rule.delimitedPart, hf, hpart]
    split
    · cases part rest <;> simp [Parsed.mapTokens, Node.map, Report.map]
    · rfl

/-- The rule for parts with delimiters commutes with the map if the part does. -/
theorem Rule.joined_commutes (delimiter : TokenKind) (missing : GrammarFault) {part : Rule Node}
    (hpart : part.Commutes f (Node.map f)) :
    (Rule.joined delimiter missing part).Commutes f (List.map (Node.map f)) := by
  intro tokens
  rw [Rule.joined, Rule.joined, hpart]
  cases part tokens with
  | none => rfl
  | some first =>
    simp [(Rule.delimitedPart_commutes hf delimiter missing hpart).many, Parsed.mapTokens,
      List.map_flatten]

/-- The rule for compound symbols commutes with a map that keeps kinds. -/
theorem Rule.compoundSymbol_commutes :
    Rule.compoundSymbol.Commutes f (List.map (Node.map f)) :=
  Rule.joined_commutes hf _ _ ((Rule.partialSymbol_commutes hf).map fun _ => by rw [Node.map])

/-- The rule for namespaced symbols commutes with a map that keeps kinds. -/
theorem Rule.namespacedSymbol_commutes :
    Rule.namespacedSymbol.Commutes f (List.map (Node.map f)) := by
  intro tokens
  have hpart := (Rule.compoundSymbol_commutes hf).map (c := Node.compoundSymbol)
    (k := Node.map f) fun nodes => by rw [Node.map, mapNodes_eq_map]
  rw [Rule.namespacedSymbol, Rule.namespacedSymbol, Rule.joined_commutes hf _ _ hpart]
  cases Rule.joined .slash .incompleteNamespacedSymbol
    (Rule.compoundSymbol.map .compoundSymbol) tokens with
  | none => rfl
  | some symbol =>
    simp [Parsed.mapTokens, map_reportIf, ← nodeTokens_map]

/-- The rule for interpolations commutes with a map that keeps kinds. -/
theorem Rule.interpolation_commutes : Rule.interpolation.Commutes f (Interpolation.map f) := by
  intro tokens
  cases tokens with
  | nil => rfl
  | cons token rest =>
    rw [List.map_cons, Rule.interpolation, Rule.interpolation, hf]
    split
    · simp only [(Rule.namespacedSymbol_commutes hf).optional,
        (Rule.token_commutes hf (· == .closeReference)).optional, Parsed.rest_mapTokens,
        Parsed.value_mapTokens, Parsed.reports_mapTokens, Option.map_some, Option.some.injEq]
      generalize Rule.namespacedSymbol.optional rest = symbol
      generalize (Rule.token (· == .closeReference)).optional symbol.rest = closing
      have hwhole := Interpolation.map_eq (f := f) ⟨[token], symbol.value, closing.value⟩
      simp only [List.map_cons, List.map_nil] at hwhole
      simp [Parsed.mapTokens, map_reportIf, ← Interpolation.tokens_map, hwhole,
        Interpolation.isTerminated]
    · rfl

/-! ## Content and attributes -/

/-- The rule for pieces of content commutes with a map that keeps kinds. -/
theorem Rule.contentPiece_commutes (terminators : List TokenKind) :
    (Rule.contentPiece terminators).Commutes f (Node.map f) := by
  intro tokens
  cases tokens with
  | nil => rfl
  | cons token rest =>
    have hreference := (Rule.interpolation_commutes hf).map (c := Node.interpolation)
      (k := Node.map f) (fun reference => by rw [Node.map]) (token :: rest)
    rw [List.map_cons] at hreference ⊢
    rw [Rule.contentPiece, Rule.contentPiece, hf, hreference]
    split
    · rfl
    · split
      · rfl
      · simp [Parsed.mapTokens, Node.map]

/-- The rule for content commutes with a map that keeps kinds. -/
theorem Rule.content_commutes (terminators : List TokenKind) :
    (Rule.content terminators).Commutes f (List.map (Node.map f)) := by
  intro tokens
  simp only [Rule.content, (Rule.contentPiece_commutes hf terminators).many,
    Parsed.value_mapTokens, List.isEmpty_map]
  split <;> rfl

/-- The value of an attribute is read alike from mapped tokens. -/
theorem attributeValue_map (attr : Attribute) (tokens : List Token) :
    attributeValue (attr.map f) (tokens.map f)
      = (attributeValue attr tokens).mapTokens f (Attribute.map f) := by
  simp only [attributeValue, (Rule.content_commutes hf attributeValueEnds).optional,
    (Rule.token_commutes hf (· == .quote)).optional, Parsed.rest_mapTokens,
    Parsed.value_mapTokens, Parsed.reports_mapTokens]
  generalize (Rule.content attributeValueEnds).optional tokens = contents
  generalize (Rule.token (· == .quote)).optional contents.rest = closeQuote
  simp [Parsed.mapTokens, map_reportIf, ← Attribute.tokens_map, Attribute.map_eq]

/-- What follows an equals sign is read alike from mapped tokens. -/
theorem quotedValue_map (attr : Attribute) (tokens : List Token) :
    quotedValue (attr.map f) (tokens.map f)
      = (quotedValue attr tokens).mapTokens f (Attribute.map f) := by
  rw [quotedValue, quotedValue, Rule.token_commutes hf]
  cases Rule.token (· == .quote) tokens with
  | none => simp [Parsed.mapTokens, Report.map, Attribute.tokens_map]
  | some quote =>
    have hquoted := attributeValue_map hf { attr with openQuote := some quote.value } quote.rest
    simpa [Attribute.map_eq] using hquoted

/-- What follows the name of an attribute is read alike from mapped tokens. -/
theorem attributeAssignment_map (attr : Attribute) (tokens : List Token) :
    attributeAssignment (attr.map f) (tokens.map f)
      = (attributeAssignment attr tokens).mapTokens f (Attribute.map f) := by
  rw [attributeAssignment, attributeAssignment, Rule.token_commutes hf]
  cases Rule.token (· == .equal) tokens with
  | none => simp [Parsed.mapTokens, Report.map, Attribute.tokens_map]
  | some sign =>
    have hassigned := quotedValue_map hf { attr with equal := some sign.value } sign.rest
    simpa [Attribute.map_eq] using hassigned

/-- The rule for attributes commutes with a map that keeps kinds. -/
theorem Rule.attribute_commutes : Rule.attribute.Commutes f (Attribute.map f) := by
  intro tokens
  rw [Rule.attribute, Rule.attribute, Rule.partialSymbol_commutes hf]
  cases Rule.partialSymbol tokens with
  | none => rfl
  | some name =>
    have hassigned := attributeAssignment_map hf { name := name.value } name.rest
    simpa [Attribute.map_eq] using hassigned

/-! ## Comments, trivia and closing tags -/

/-- The contents of a comment end at the same place among mapped tokens. -/
theorem commentContents_map (tokens : List Token) :
    commentContents (tokens.map f)
      = ((commentContents tokens).1.map f, (commentContents tokens).2.map f) := by
  induction tokens with
  | nil => rfl
  | cons token rest ih =>
    rw [List.map_cons, commentContents, commentContents, hf, head_kind_map hf]
    split
    · rfl
    · simp [ih]

/-- The rule for comments commutes with a map that keeps kinds. -/
theorem Rule.comment_commutes : Rule.comment.Commutes f (Comment.map f) := by
  intro tokens
  match tokens with
  | [] | [_] => rfl
  | bang :: hyphens :: rest =>
    simp only [List.map_cons, Rule.comment, hf _, commentContents_map hf, List.isEmpty_map]
    split
    · split <;>
        simp [Parsed.mapTokens, Comment.map, Comment.tokens, Report.map, slotTokens, List.map_take]
    · rfl

/-- The rule for a comment or a run of blanks commutes with a map that keeps kinds. -/
theorem Rule.trivium_commutes : Rule.trivium.Commutes f (Node.map f) :=
  ((Rule.comment_commutes hf).map fun _ => by rw [Node.map]).orElse
    ((Rule.blanks_commutes hf).map fun _ => by rw [Node.map])

/-- Trivia are read alike from mapped tokens. -/
theorem trivia_map (tokens : List Token) :
    trivia (tokens.map f) = (trivia tokens).mapTokens f (List.map (Node.map f)) :=
  (Rule.trivium_commutes hf).many tokens

/-- The end of a closing tag is read alike from mapped tokens. -/
theorem closingTagEnd_map (tag : ClosingTag) (tokens : List Token) :
    closingTagEnd (tag.map f) (tokens.map f)
      = (closingTagEnd tag tokens).mapTokens f (ClosingTag.map f) := by
  simp only [closingTagEnd, skipBlanks_map hf,
    (Rule.token_commutes hf (· == .closeAngle)).optional, Parsed.value_mapTokens,
    Parsed.rest_mapTokens]
  generalize (Rule.token (· == .closeAngle)).optional (skipBlanks tokens) = closing
  simp [Parsed.mapTokens, map_reportIf, ← ClosingTag.tokens_map, ClosingTag.map]

/-- The name and the end of a closing tag are read alike from mapped tokens. -/
theorem closingTagName_map (tag : ClosingTag) (tokens : List Token) :
    closingTagName (tag.map f) (tokens.map f)
      = (closingTagName tag tokens).mapTokens f (ClosingTag.map f) := by
  rw [closingTagName, closingTagName, skipBlanks_map hf, Rule.token_commutes hf]
  cases Rule.token (· == .letters) (skipBlanks tokens) with
  | none => simp [Parsed.mapTokens, Report.map, ClosingTag.tokens_map]
  | some name => exact closingTagEnd_map hf { tag with name := some name.value } name.rest

/-- The rule for closing tags commutes with a map that keeps kinds. -/
theorem Rule.closingTag_commutes : Rule.closingTag.Commutes f (ClosingTag.map f) := by
  intro tokens
  cases tokens with
  | nil => rfl
  | cons token rest =>
    rw [List.map_cons, Rule.closingTag, Rule.closingTag, hf]
    split
    · exact congrArg some (closingTagName_map hf { opening := [token] } rest)
    · rfl

/-! ## Elements and documents -/

/-- A map that keeps kinds keeps whether a token belongs to the name of a tag. -/
theorem isTagName_map (token : Token) : isTagName (f token) = isTagName token := by
  rw [isTagName, isTagName, isBlank_map hf, isTagEnd_map hf]

/-- The name of a tag ends at the same place among mapped tokens, and is reported alike. -/
theorem tagName_map (tokens : List Token) :
    tagName (tokens.map f) = (tagName tokens).mapTokens f (List.map f) := by
  simp only [tagName, takeWhile_map _ (isTagName_map hf), dropWhile_map _ (isTagName_map hf),
    kinds_map hf]
  simp [Parsed.mapTokens, map_reportIf]

/-- The rule for attributes with blanks in front commutes with a map that keeps kinds. -/
theorem Rule.spacedAttribute_commutes : Rule.spacedAttribute.Commutes f (Attribute.map f) := by
  intro tokens
  have hblank : (tokens.map f).head?.any Token.isBlank = tokens.head?.any Token.isBlank := by
    cases tokens with
    | nil => rfl
    | cons token rest => simp [isBlank_map hf]
  rw [Rule.spacedAttribute, Rule.spacedAttribute, skipBlanks_map hf, Rule.attribute_commutes hf,
    hblank]
  cases Rule.attribute (skipBlanks tokens) with
  | none => rfl
  | some parsed => simp [Parsed.mapTokens, map_reportIf, Attribute.map_eq]

/-- The rest of an opening tag is read alike from mapped tokens, with the same tokens left out. -/
theorem namedTag_map (element : Element) (tokens : List Token) :
    namedTag (element.map f) (tokens.map f)
      = (namedTag element tokens).mapTokens f (Element.map f) := by
  have hstray : ∀ token, (!(f token).isTagEnd) = !token.isTagEnd := fun token => by
    rw [isTagEnd_map hf]
  simp only [namedTag, tagName_map hf, (Rule.spacedAttribute_commutes hf).many,
    Parsed.rest_mapTokens, Parsed.value_mapTokens, Parsed.reports_mapTokens, skipBlanks_map hf,
    takeWhile_map (fun token => !token.isTagEnd) hstray,
    dropWhile_map (fun token => !token.isTagEnd) hstray, (Rule.token_commutes hf _).optional]
  generalize tagName tokens = name
  generalize Rule.spacedAttribute.many name.rest = attributes
  generalize (Rule.token TokenKind.isTagEnd).optional _ = tagEnd
  simp [Parsed.mapTokens, map_reportIf, ← Element.tokens_map, Element.map_eq, Report.map]

/-- An opening tag is read alike from mapped tokens. -/
theorem openTag_map (leadingTrivia : List Node) (bracket tokens : List Token) :
    openTag (leadingTrivia.map (Node.map f)) (bracket.map f) (tokens.map f)
      = (openTag leadingTrivia bracket tokens).mapTokens f (Element.map f) := by
  have hopened := fun tagEnd => Element.map_eq (f := f)
    { leadingTrivia, openBracket := some bracket, tagEnd }
  rw [openTag, openTag, skipBlanks_map hf]
  cases skipBlanks tokens with
  | nil => simp [Parsed.mapTokens, hopened, Report.map]
  | cons token rest =>
    simp only [List.map_cons, isTagEnd_map hf]
    split
    · simp [Parsed.mapTokens, hopened, Report.map, ← Element.tokens_map]
    · have hnamed := namedTag_map hf { leadingTrivia, openBracket := some bracket } (token :: rest)
      simpa [Element.map_eq] using hnamed

/-- The kind of what ends a tag is the same for a mapped element. -/
theorem tagEndKind_map (element : Element) :
    (element.map f).tagEndKind = element.tagEndKind := by
  rw [Element.map_eq, Element.tagEndKind, Element.tagEndKind]
  cases element.tagEnd with
  | none => rfl
  | some tokens => exact head_kind_map hf tokens

/-- A body follows a mapped element exactly if one follows the element. -/
theorem hasBody_map (element : Element) : hasBody (element.map f) = hasBody element := by
  rw [hasBody, hasBody, tagEndKind_map hf, Element.map_eq, Option.isSome_map]

section Bodies

variable {body : Element → List Token → Parsed Element}
  (hbody : ∀ element tokens,
    body (element.map f) (tokens.map f) = (body element tokens).mapTokens f (Element.map f))

include hbody

/-- An element whose bracket has been read is read alike from mapped tokens, if its body is. -/
theorem taggedElement_map (leadingTrivia : List Node) (bracket tokens : List Token) :
    taggedElement body (leadingTrivia.map (Node.map f)) (bracket.map f) (tokens.map f)
      = (taggedElement body leadingTrivia bracket tokens).mapTokens f (Element.map f) := by
  simp only [taggedElement, openTag_map hf, Parsed.value_mapTokens, hasBody_map hf,
    Parsed.rest_mapTokens, hbody, Parsed.reports_mapTokens]
  split
  · simp [Parsed.mapTokens]
  · rfl

/-- The rule for elements commutes with the map if bodies are read alike. -/
theorem Rule.elementWith_commutes : (Rule.elementWith body).Commutes f (Element.map f) := by
  intro tokens
  simp only [Rule.elementWith, skipBlanks_map hf, trivia_map hf, Parsed.rest_mapTokens,
    Parsed.value_mapTokens, Parsed.reports_mapTokens, Rule.token_commutes hf _ _, List.isEmpty_map]
  generalize trivia (skipBlanks tokens) = leading
  cases Rule.token (· == .openAngle) leading.rest with
  | some bracket => simp [taggedElement_map hf hbody, Parsed.mapTokens]
  | none =>
    simp only [Option.map_none]
    split
    · rfl
    · simp [Parsed.mapTokens, Element.map_eq]

end Bodies

/-- The number of open tags behind a token is told by kinds. -/
theorem nestingBehind_map (nesting : Nat) (token : Token) (rest : List Token) :
    nestingBehind nesting (f token) (rest.map f) = nestingBehind nesting token rest := by
  rw [nestingBehind, nestingBehind, hf, head_kind_map hf]

/-- Raw contents end at the same place among mapped tokens. -/
theorem rawContents_map (nesting : Nat) (tokens : List Token) :
    rawContents nesting (tokens.map f)
      = ((rawContents nesting tokens).1.map f, (rawContents nesting tokens).2.map f) := by
  induction tokens generalizing nesting with
  | nil => rfl
  | cons token rest ih =>
    rw [List.map_cons, rawContents, rawContents, hf, nestingBehind_map hf]
    split
    · rfl
    · simp [ih]

omit hf in
/-- The node for mapped content is the mapped node, and there is none for no content. -/
theorem contentNode_map (nodes : List Node) :
    contentNode (nodes.map (Node.map f)) = (contentNode nodes).map (Node.map f) := by
  rw [contentNode, contentNode, List.isEmpty_map]
  split
  · rfl
  · simp [Node.map]

/-- An element is closed alike by mapped tokens. -/
theorem closeElement_map (element : Element) (tokens : List Token) :
    closeElement (element.map f) (tokens.map f)
      = (closeElement element tokens).mapTokens f (Element.map f) := by
  simp only [closeElement, (Rule.closingTag_commutes hf).optional, Parsed.value_mapTokens,
    Parsed.rest_mapTokens, Parsed.reports_mapTokens]
  generalize Rule.closingTag.optional tokens = closing
  simp [Parsed.mapTokens, map_reportIf, ← Element.tokens_map, Element.map_eq]

/-- The end of an element whose children have just been read is read alike from mapped tokens. -/
theorem closeElement_children_map (element : Element) (children : List Node)
    (tokens : List Token) :
    closeElement { element.map f with children := children.map (Node.map f) } (tokens.map f)
      = (closeElement { element with children } tokens).mapTokens f (Element.map f) := by
  have hclosed := closeElement_map hf { element with children } tokens
  simpa [Element.map_eq] using hclosed

/-- A raw body is read alike from mapped tokens. -/
theorem rawBody_map (element : Element) (tokens : List Token) :
    rawBody (element.map f) (tokens.map f)
      = (rawBody element tokens).mapTokens f (Element.map f) := by
  have hsingles : ∀ contents : List Token,
      contentNode ((contents.map f).map fun token => .single [token])
        = (contentNode (contents.map fun token => .single [token])).map (Node.map f) := by
    intro contents
    rw [← contentNode_map, List.map_map, List.map_map]
    simp [Function.comp_def, Node.map]
  simp only [rawBody, rawContents_map hf, hsingles, closeElement_children_map hf]
  simp [Parsed.mapTokens, Report.map, Element.tokens_map]

/-- A body with text is read alike from mapped tokens. -/
theorem textBody_map (element : Element) (tokens : List Token) :
    textBody (element.map f) (tokens.map f)
      = (textBody element tokens).mapTokens f (Element.map f) := by
  simp only [textBody, (Rule.content_commutes hf elementValueEnds).optional,
    Parsed.value_mapTokens, Parsed.rest_mapTokens, Parsed.reports_mapTokens, getD_map_nodes,
    contentNode_map, closeElement_children_map hf]
  simp [Parsed.mapTokens]

/-- Text behind children is passed over alike among mapped tokens. -/
theorem strayText_map (element : Element) (tokens : List Token) :
    strayText (element.map f) (tokens.map f)
      = (strayText element tokens).mapTokens f (Element.map f) := by
  have htext : ∀ token, ((f token).kind != .openSlash) = (token.kind != .openSlash) :=
    fun token => by rw [hf]
  simp only [strayText, dropWhile_map (fun token => token.kind != .openSlash) htext,
    takeWhile_map (fun token => token.kind != .openSlash) htext,
    (Rule.closingTag_commutes hf).optional, Parsed.value_mapTokens, Parsed.rest_mapTokens,
    Parsed.reports_mapTokens]
  simp [Parsed.mapTokens, Report.map, Element.map_eq]

/-- What comes behind the children of an element is read alike from mapped tokens. -/
theorem elementEnd_map (element : Element) (tokens : List Token) :
    elementEnd (element.map f) (tokens.map f)
      = (elementEnd element tokens).mapTokens f (Element.map f) := by
  have hchildren : (element.map f).children.isEmpty = element.children.isEmpty := by
    rw [Element.map_eq, List.isEmpty_map]
  have hclosing : (tokens.map f).head?.all (fun token => token.kind == .openSlash)
      = tokens.head?.all (fun token => token.kind == .openSlash) := by
    cases tokens with
    | nil => rfl
    | cons token rest => simp [hf _]
  rw [elementEnd, elementEnd, hchildren, hclosing, textBody_map hf, closeElement_map hf,
    strayText_map hf]
  split
  · rfl
  · split <;> rfl

/-- A body with elements is read alike from mapped tokens, if each child is. -/
theorem nestedBody_map {child : Rule Element} (hchild : child.Commutes f (Element.map f))
    (element : Element) (tokens : List Token) :
    nestedBody child (element.map f) (tokens.map f)
      = (nestedBody child element tokens).mapTokens f (Element.map f) := by
  -- the element that the end is read for already has its children, which are mapped with it
  have hend : ∀ (children : List Element) (rest : List Token),
      elementEnd { element.map f with children := (children.map (Element.map f)).map .element }
          (rest.map f)
        = (elementEnd { element with children := children.map .element } rest).mapTokens f
          (Element.map f) := by
    intro children rest
    have hended := elementEnd_map hf { element with children := children.map .element } rest
    simpa [Element.map_eq, Node.map, Function.comp_def] using hended
  simp only [nestedBody, hchild.many, Parsed.value_mapTokens, Parsed.rest_mapTokens,
    Parsed.reports_mapTokens, skipBlanks_map hf, hend]
  simp [Parsed.mapTokens]

/-- The rule for elements commutes with a map that keeps kinds, by induction on the levels. -/
theorem Rule.element_commutes (levels : Nat) :
    (Rule.element levels).Commutes f (Element.map f) := by
  induction levels with
  | zero => exact Rule.elementWith_commutes hf (rawBody_map hf)
  | succ levels ih => exact Rule.elementWith_commutes hf (nestedBody_map hf ih)

/-- A document is read by the kinds of its tokens. -/
theorem Rule.document_commutes : Rule.document.Commutes f (Document.map f) := by
  intro tokens
  rw [Rule.document, Rule.document, Rule.element_commutes hf]
  cases Rule.element maxDepth tokens with
  | none => rfl
  | some root => simp [trivia_map hf, Parsed.mapTokens, Document.map]

end Grammar

end JobMarkup
