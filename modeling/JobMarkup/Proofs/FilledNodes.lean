import JobMarkup.Proofs.TreeShape

/-!
# Nodes with tokens

Every node of a tree that is read has tokens, but for lists of trivia and for the tokens of a
comment in a row. So each of the other nodes has a place of its own in the text.
-/

namespace JobMarkup.Tree

open JobMarkup.Grammar

namespace Node

/-- The node is a list that may be empty in a tree that is read. -/
def mayBeEmpty : Node → Bool
  | .trivia _ | .sequence _ => true
  | _ => false

/-- Every node of the tree has tokens, unless it may be empty. -/
def IsFilled (whole : Node) : Prop :=
  ∀ node : Node, node.Within whole → node.mayBeEmpty = false → node.tokens ≠ []

variable {node whole : Node}

/-- A node of a tree is the whole tree or belongs to one of its parts. -/
theorem Within.eq_or_exists_part (h : node.Within whole) :
    node = whole ∨ ∃ part ∈ whole.parts, node.Within part := by
  induction h with
  | refl whole => exact Or.inl rfl
  | @part inner node whole hinner _ ih =>
    right
    rcases ih with rfl | ⟨part, hpart, hwithin⟩
    · exact ⟨inner, hinner, .refl inner⟩
    · exact ⟨part, hpart, .part hinner hwithin⟩

/-- What lies within a part of a node lies within the node. -/
theorem Within.of_mem_parts {part : Node} (h : node.Within part) (hmem : part ∈ whole.parts) :
    node.Within whole := by
  induction h with
  | refl part => exact .part hmem (.refl whole)
  | part hinner _ ih => exact .part hinner (ih hmem)

/-- A node is filled if its parts are and if it has tokens itself. -/
theorem IsFilled.of_parts (hparts : ∀ part ∈ whole.parts, part.IsFilled)
    (htokens : whole.mayBeEmpty = false → whole.tokens ≠ []) : whole.IsFilled := by
  intro node hwithin
  rcases hwithin.eq_or_exists_part with rfl | ⟨part, hpart, hwithin⟩
  · exact htokens
  · exact hparts part hpart node hwithin

/-- A node is filled if its parts are and if there is one that may not be empty. -/
theorem IsFilled.of_part (part : Node) (hmem : part ∈ whole.parts)
    (hpart : part.mayBeEmpty = false) (hparts : ∀ part ∈ whole.parts, part.IsFilled) :
    whole.IsFilled := by
  have hne : part.tokens ≠ [] := hparts part hmem part (.refl part) hpart
  refine .of_parts hparts fun _ hnil => hne ?_
  exact List.sublist_nil.mp (hnil ▸ tokens_sublist_of_mem_parts hmem)

/-- A node of single tokens is filled if there is one, since it has no parts. -/
theorem isFilled_single {tokens : List Token} (h : tokens ≠ []) : (single tokens).IsFilled :=
  .of_parts (by simp [parts]) fun _ => h

/-- A partial symbol is filled if it has a token, since it has no parts. -/
theorem isFilled_partialSymbol {tokens : List Token} (h : tokens ≠ []) :
    (partialSymbol tokens).IsFilled :=
  .of_parts (by simp [parts]) fun _ => h

/-- A part of a node that may be missing is filled if it has tokens wherever it is there. -/
theorem isFilled_slotParts {slot : Option (List Token)} (h : ∀ tokens ∈ slot, tokens ≠ []) :
    ∀ part ∈ slotParts slot, part.IsFilled := by
  simp only [slotParts, List.mem_map, Option.mem_toList]
  rintro part ⟨tokens, hmem, rfl⟩
  exact isFilled_single (h tokens hmem)

end Node

end JobMarkup.Tree

namespace JobMarkup.Grammar

open JobMarkup.Tree

variable {accepts : TokenKind → Bool} {tokens : List Token} {slot : Option (List Token)}

/-- A mark has its token. -/
theorem IsMark.ne_nil (h : IsMark accepts tokens) : tokens ≠ [] := by
  obtain ⟨token, rfl, -⟩ := h
  exact List.cons_ne_nil _ _

/-- Marks that may be missing are filled wherever they are there. -/
theorem isFilled_marks (h : ∀ mark ∈ slot, IsMark accepts mark) :
    ∀ part ∈ slotParts slot, part.IsFilled :=
  Node.isFilled_slotParts fun mark hmem => (h mark hmem).ne_nil

/-- A partial symbol has at least one token. -/
theorem IsPartialSymbol.ne_nil (h : IsPartialSymbol tokens) : tokens ≠ [] := by
  rintro rfl
  exact h

/-! ## Symbols and content -/

section Parts

variable {delimiter : TokenKind} {isPart : Node → Prop} {nodes : List Node}

/-- Delimiters and the parts behind them are filled if each part is. -/
theorem FollowParts.isFilled (hpart : ∀ node, isPart node → node.IsFilled)
    (h : FollowParts delimiter isPart nodes) : ∀ node ∈ nodes, node.IsFilled := by
  induction h with
  | nil => simp
  | missing _ _ ih =>
    exact List.forall_mem_cons.mpr ⟨Node.isFilled_single (List.cons_ne_nil _ _), ih⟩
  | part _ hnode _ ih =>
    exact List.forall_mem_cons.mpr ⟨Node.isFilled_single (List.cons_ne_nil _ _),
      List.forall_mem_cons.mpr ⟨hpart _ hnode, ih⟩⟩

/-- Parts with delimiters are filled if each part is, also where parts are missing. -/
theorem HasParts.isFilled (hpart : ∀ node, isPart node → node.IsFilled)
    (h : HasParts delimiter isPart nodes) : ∀ node ∈ nodes, node.IsFilled := by
  obtain ⟨first, rest, rfl, hfirst, hrest⟩ := h
  exact List.forall_mem_cons.mpr ⟨hpart first hfirst, hrest.isFilled hpart⟩

end Parts

/-- The node of a partial symbol is filled. -/
theorem IsPartialNode.isFilled {node : Node} (h : IsPartialNode node) : node.IsFilled := by
  obtain ⟨tokens, rfl, hsymbol⟩ := h
  exact Node.isFilled_partialSymbol hsymbol.ne_nil

/-- The node of a compound symbol is filled, since its first part is there. -/
theorem HasCompoundShape.isFilled {node : Node} (h : HasCompoundShape node) : node.IsFilled := by
  obtain ⟨nodes, rfl, hnodes⟩ := h
  have hparts := hnodes.isFilled fun _ => IsPartialNode.isFilled
  obtain ⟨first, rest, rfl, ⟨tokens, rfl, -⟩, -⟩ := hnodes
  exact .of_part _ List.mem_cons_self rfl hparts

/-- The node of a namespaced symbol is filled, since its first part is there. -/
theorem HasSymbolShape.isFilled {nodes : List Node} (h : HasSymbolShape nodes) :
    (Node.namespacedSymbol nodes).IsFilled := by
  have hparts := HasParts.isFilled (fun _ => HasCompoundShape.isFilled) h
  obtain ⟨first, rest, rfl, ⟨inner, rfl, -⟩, -⟩ := h
  exact .of_part _ List.mem_cons_self rfl hparts

/-- An interpolation is filled, since its opening mark is there. -/
theorem HasInterpolationShape.isFilled {whole : Interpolation} (h : HasInterpolationShape whole) :
    (Node.interpolation whole).IsFilled := by
  obtain ⟨opening, symbol, closing⟩ := whole
  refine .of_part (.single opening) (by simp [Node.parts]) rfl ?_
  simp only [Node.parts, List.cons_append, List.forall_mem_cons, List.forall_mem_append]
  refine ⟨Node.isFilled_single h.opening.ne_nil, ?_, isFilled_marks h.closing⟩
  simpa using fun nodes hmem => (h.symbol nodes hmem).isFilled

/-- A piece of content is filled and cannot be empty. -/
theorem HasPieceShape.isFilled {node : Node} (h : HasPieceShape node) :
    node.IsFilled ∧ node.mayBeEmpty = false := by
  rcases h with ⟨token, rfl⟩ | ⟨whole, rfl, hwhole⟩
  · exact ⟨Node.isFilled_single (List.cons_ne_nil _ _), rfl⟩
  · exact ⟨hwhole.isFilled, rfl⟩

/-- Content is filled, since it has a piece. -/
theorem HasContentShape.isFilled {nodes : List Node} (h : HasContentShape nodes) :
    (Node.content nodes).IsFilled := by
  obtain ⟨hne, hnodes⟩ := h
  have hfirst := List.head_mem hne
  exact .of_part _ hfirst (hnodes _ hfirst).isFilled.2 fun node hmem =>
    (hnodes node hmem).isFilled.1

/-! ## Parts of tags -/

/-- An attribute is filled, since its name is there. -/
theorem HasAttributeShape.isFilled {attr : Attribute} (h : HasAttributeShape attr) :
    (Node.attribute attr).IsFilled := by
  obtain ⟨name, equal, openQuote, contents, closeQuote⟩ := attr
  refine .of_part (.partialSymbol name) (by simp [Node.parts]) rfl ?_
  simp only [Node.parts, List.cons_append, List.forall_mem_cons, List.forall_mem_append]
  refine ⟨Node.isFilled_partialSymbol h.name.ne_nil, ⟨⟨isFilled_marks h.equal,
    isFilled_marks h.openQuote⟩, ?_⟩, isFilled_marks h.closeQuote⟩
  simpa using fun nodes hmem => (h.contents nodes hmem).isFilled

/-- A comment is filled, since its opening mark is there; only what it holds may be empty. -/
theorem HasCommentShape.isFilled {comment : Comment} (h : HasCommentShape comment) :
    (Node.comment comment).IsFilled := by
  obtain ⟨opening, contents, closing⟩ := comment
  obtain ⟨bang, hyphens, hopening, -⟩ := h.opening
  obtain rfl : opening = [bang, hyphens] := hopening
  refine .of_part (.single [bang, hyphens]) (by simp [Node.parts]) rfl ?_
  simp only [Node.parts, List.forall_mem_cons]
  refine ⟨Node.isFilled_single (List.cons_ne_nil _ _), .of_parts ?_ (by simp [Node.mayBeEmpty]),
    Node.isFilled_slotParts ?_⟩
  · simpa [Node.parts] using fun token _ => Node.isFilled_single (List.cons_ne_nil token [])
  · intro marks hmem
    obtain ⟨hyphens, angle, rfl, -⟩ := h.closing marks hmem
    exact List.cons_ne_nil _ _

/-- A comment or a run of blanks is filled and cannot be empty. -/
theorem HasTriviumShape.isFilled {node : Node} (h : HasTriviumShape node) :
    node.IsFilled ∧ node.mayBeEmpty = false := by
  rcases h with ⟨comment, rfl, hcomment⟩ | ⟨run, rfl, hne, -⟩
  · exact ⟨hcomment.isFilled, rfl⟩
  · exact ⟨Node.isFilled_single hne, rfl⟩

/-- Trivia are filled; only the list as a whole may be empty. -/
theorem isFilled_trivia {nodes : List Node} (h : ∀ node ∈ nodes, HasTriviumShape node) :
    (Node.trivia nodes).IsFilled :=
  .of_parts (fun node hmem => (h node hmem).isFilled.1) (by simp [Node.mayBeEmpty])

/-- A closing tag is filled, since its opening mark is there. -/
theorem HasClosingTagShape.isFilled {tag : ClosingTag} (h : HasClosingTagShape tag) :
    (Node.closingTag tag).IsFilled := by
  refine .of_part (.single tag.opening) (by simp [Node.parts]) rfl ?_
  simp only [Node.parts, List.cons_append, List.forall_mem_cons, List.forall_mem_append]
  exact ⟨Node.isFilled_single h.opening.ne_nil, isFilled_marks h.name, isFilled_marks h.closing⟩

/-! ## Elements and documents -/

/-- The body of an element is filled if the children that it may hold are. -/
theorem HasBodyShape.isFilled {child : Element → Prop}
    (hchild : ∀ element, child element → (Node.element element).IsFilled) {nodes : List Node}
    (h : HasBodyShape child nodes) : ∀ node ∈ nodes, node.IsFilled := by
  cases h with
  | children helements => simpa using fun element hmem => hchild element (helements element hmem)
  | content hcontent => simpa using hcontent.isFilled

/-- An element with a tag is filled if the elements in it are. -/
theorem HasTaggedShape.isFilled {child : Element → Prop}
    (hchild : ∀ element, child element → (Node.element element).IsFilled) {element : Element}
    (h : HasTaggedShape child element) : (Node.element element).IsFilled := by
  obtain ⟨leading, openBracket, name, attributes, tagEnd, children, closingTag⟩ := element
  obtain ⟨htag, hchildren, hclosing⟩ := h
  obtain ⟨mark, hmark, hbracket⟩ := htag.openBracket
  obtain rfl : openBracket = some mark := hmark
  refine .of_part (.single mark) (by simp [Node.parts, slotParts]) rfl ?_
  simp only [Node.parts, List.cons_append, List.forall_mem_cons, List.forall_mem_append]
  refine ⟨isFilled_trivia htag.leadingTrivia, ⟨⟨⟨⟨⟨?_, Node.isFilled_slotParts htag.name⟩, ?_⟩,
    isFilled_marks htag.tagEnd⟩, hchildren.isFilled hchild⟩, ?_⟩⟩
  · simpa [slotParts] using Node.isFilled_single hbracket.ne_nil
  · simpa using fun attr hmem => (htag.attributes attr hmem).isFilled
  · simpa using fun tag hmem => (hclosing tag hmem).isFilled

/-- Trivia that are there fill an element without a tag. -/
theorem isFilled_triviaElement {leading : List Node} (hne : leading ≠ [])
    (h : ∀ node ∈ leading, HasTriviumShape node) :
    (Node.element { leadingTrivia := leading }).IsFilled := by
  refine .of_parts (by simpa [Node.parts, slotParts] using isFilled_trivia h) fun _ => ?_
  have hfirst := List.head_mem hne
  obtain ⟨hfilled, hnonempty⟩ := (h _ hfirst).isFilled
  have htokens := hfilled _ (.refl _) hnonempty
  have hsub := List.sublist_flatten_of_mem (List.mem_map_of_mem (f := Node.tokens) hfirst)
  rw [← List.flatMap_def, ← nodeTokens_eq_flatMap] at hsub
  intro hnil
  simp only [Node.tokens_element, Element.tokens_eq, List.append_eq_nil_iff] at hnil
  rw [hnil.1.1.1.1.1.1] at hsub
  exact htokens (List.sublist_nil.mp hsub)

/-- Elements are filled if the elements in them are. -/
theorem HasElementShape.isFilled {child : Element → Prop}
    (hchild : ∀ element, child element → (Node.element element).IsFilled) {element : Element}
    (h : HasElementShape child element) : (Node.element element).IsFilled := by
  rcases h.trivia_or_tagged with ⟨leading, hne, hleading, rfl⟩ | htagged
  · exact isFilled_triviaElement hne hleading
  · exact htagged.isFilled hchild

/-- An element is filled, since it has a bracket or trivia, and so are all nodes below it. -/
theorem HasShape.isFilled {levels : Nat} {element : Element} (h : HasShape levels element) :
    (Node.element element).IsFilled := by
  induction levels generalizing element with
  | zero => exact HasElementShape.isFilled (fun _ hfalse => hfalse.elim) h
  | succ levels ih => exact HasElementShape.isFilled (fun _ => ih) h

/-- Every node of a document that is read has tokens, unless it may be empty. -/
theorem HasDocumentShape.isFilled {document : Document} (h : HasDocumentShape document) :
    (Node.document document).IsFilled := by
  obtain ⟨root, trailingTrivia⟩ := document
  refine .of_part (.element root) (by simp [Node.parts]) rfl ?_
  simpa [Node.parts] using ⟨h.root.isFilled, isFilled_trivia h.trailingTrivia⟩

end JobMarkup.Grammar
