import JobMarkup.Tree.Tokens

/-!
# Tokens of parts of a tree

How the tokens of a node are put together from those of its parts, in the form in which proofs use
it.
-/

namespace JobMarkup.Tree

/-- A slot that is empty has no tokens. -/
@[simp] theorem slotTokens_none : slotTokens none = [] := rfl

/-- A slot that is filled has its tokens. -/
@[simp] theorem slotTokens_some (tokens : List Token) : slotTokens (some tokens) = tokens := rfl

/-- A closing tag that is missing has no tokens. -/
@[simp] theorem closingTagTokens_none : closingTagTokens none = [] := rfl

/-- A closing tag that is there has its tokens. -/
@[simp] theorem closingTagTokens_some (tag : ClosingTag) :
    closingTagTokens (some tag) = tag.tokens := rfl

/-- Without nodes there are no tokens. -/
@[simp] theorem nodeTokens_nil : nodeTokens [] = [] := rfl

/-- The tokens of the first node come in front of those of the others. -/
@[simp] theorem nodeTokens_cons (node : Node) (rest : List Node) :
    nodeTokens (node :: rest) = node.tokens ++ nodeTokens rest := rfl

/-- Two rows of nodes have the tokens of the first and then those of the second. -/
@[simp] theorem nodeTokens_append (a b : List Node) :
    nodeTokens (a ++ b) = nodeTokens a ++ nodeTokens b := by
  simp [nodeTokens_eq_flatMap]

/-- Groups of nodes have the tokens of each group in turn. -/
theorem nodeTokens_flatten (groups : List (List Node)) :
    nodeTokens groups.flatten = groups.flatMap nodeTokens := by
  induction groups with
  | nil => simp
  | cons group rest ih => simp [ih]

/-- Without attributes there are no tokens. -/
@[simp] theorem attributeTokens_nil : attributeTokens [] = [] := rfl

/-- The tokens of the first attribute come in front of those of the others. -/
@[simp] theorem attributeTokens_cons (attr : Attribute) (rest : List Attribute) :
    attributeTokens (attr :: rest) = attr.tokens ++ attributeTokens rest := rfl

namespace Node

/-- A node of single tokens has these tokens. -/
@[simp] theorem tokens_single (tokens : List Token) : (single tokens).tokens = tokens := rfl

/-- The node of a partial symbol has its tokens. -/
@[simp] theorem tokens_partialSymbol (tokens : List Token) :
    (partialSymbol tokens).tokens = tokens := rfl

/-- The node of a compound symbol has the tokens of its nodes. -/
@[simp] theorem tokens_compoundSymbol (nodes : List Node) :
    (compoundSymbol nodes).tokens = nodeTokens nodes := rfl

/-- The node of a namespaced symbol has the tokens of its nodes. -/
@[simp] theorem tokens_namespacedSymbol (nodes : List Node) :
    (namespacedSymbol nodes).tokens = nodeTokens nodes := rfl

/-- The node of an interpolation has its tokens. -/
@[simp] theorem tokens_interpolation (part : Interpolation) :
    (interpolation part).tokens = part.tokens := rfl

/-- The node of an attribute has its tokens. -/
@[simp] theorem tokens_attribute (attr : Attribute) : (Node.attribute attr).tokens = attr.tokens := rfl

/-- The node of an element has its tokens. -/
@[simp] theorem tokens_element (part : Element) : (element part).tokens = part.tokens := rfl

/-- The node of a closing tag has its tokens. -/
@[simp] theorem tokens_closingTag (tag : ClosingTag) : (closingTag tag).tokens = tag.tokens := rfl

/-- The node of a comment has its tokens. -/
@[simp] theorem tokens_comment (part : Comment) : (comment part).tokens = part.tokens := rfl

/-- The node of content has the tokens of its pieces. -/
@[simp] theorem tokens_content (nodes : List Node) :
    (content nodes).tokens = nodeTokens nodes := rfl

/-- The node of trivia has the tokens of its comments and blanks. -/
@[simp] theorem tokens_trivia (nodes : List Node) :
    (trivia nodes).tokens = nodeTokens nodes := rfl

/-- The node of a document has its tokens. -/
@[simp] theorem tokens_document (part : Document) : (document part).tokens = part.tokens := rfl

end Node

/-- Nodes of one token each have these tokens, as raw contents do. -/
theorem nodeTokens_map_single (tokens : List Token) :
    nodeTokens (tokens.map fun token => .single [token]) = tokens := by
  induction tokens with
  | nil => simp
  | cons token rest ih => simp [ih]

/-- The nodes of elements have the tokens of each element in turn. -/
theorem nodeTokens_map_element (elements : List Element) :
    nodeTokens (elements.map .element) = elements.flatMap Element.tokens := by
  rw [nodeTokens_eq_flatMap, List.flatMap_map]
  simp

/-- The nodes of attributes have the tokens of the attributes. -/
theorem nodeTokens_map_attribute (attributes : List Attribute) :
    nodeTokens (attributes.map .attribute) = attributeTokens attributes := by
  rw [nodeTokens_eq_flatMap, attributeTokens_eq_flatMap, List.flatMap_map]
  simp

/-- The tokens of a document: those of its root and of the trivia behind it. -/
theorem Document.tokens_eq (document : Document) :
    document.tokens = document.root.tokens ++ nodeTokens document.trailingTrivia := by
  cases document
  rfl

end JobMarkup.Tree
