import JobMarkup.Tree.Basic

/-!
# Tokens of a markup tree

The tokens of a tree, read slot by slot from left to right, are the view in which everything that
was read can be compared with the text. The span of a node is the smallest one that holds its
tokens; a node without tokens has none.
-/

namespace JobMarkup.Tree

/-- The tokens of a slot. -/
def slotTokens (slot : Option (List Token)) : List Token := slot.getD []

/-- The tokens of a closing tag. -/
def ClosingTag.tokens (tag : ClosingTag) : List Token :=
  tag.opening ++ slotTokens tag.name ++ slotTokens tag.closing

/-- The tokens of a comment. -/
def Comment.tokens (comment : Comment) : List Token :=
  comment.opening ++ comment.contents ++ slotTokens comment.closing

/-- The tokens of a closing tag, if there is one. -/
def closingTagTokens (tag : Option ClosingTag) : List Token := (tag.map ClosingTag.tokens).getD []

mutual

/-- The tokens of a node. -/
def Node.tokens : Node → List Token
  | .single tokens => tokens
  | .sequence nodes => nodeTokens nodes
  | .partialSymbol tokens => tokens
  | .compoundSymbol nodes => nodeTokens nodes
  | .namespacedSymbol nodes => nodeTokens nodes
  | .interpolation interpolation => interpolation.tokens
  | .attribute attr => attr.tokens
  | .element element => element.tokens
  | .closingTag tag => tag.tokens
  | .comment comment => comment.tokens
  | .content nodes => nodeTokens nodes
  | .trivia nodes => nodeTokens nodes
  | .document document => document.tokens

/-- The tokens of nodes in a row. -/
def nodeTokens : List Node → List Token
  | [] => []
  | node :: rest => node.tokens ++ nodeTokens rest

/-- The tokens of an interpolation. -/
def Interpolation.tokens : Interpolation → List Token
  | ⟨opening, none, closing⟩ => opening ++ slotTokens closing
  | ⟨opening, some symbol, closing⟩ => opening ++ nodeTokens symbol ++ slotTokens closing

/-- The tokens of an attribute. -/
def Attribute.tokens : Attribute → List Token
  | ⟨name, equal, openQuote, none, closeQuote⟩ =>
    name ++ slotTokens equal ++ slotTokens openQuote ++ slotTokens closeQuote
  | ⟨name, equal, openQuote, some contents, closeQuote⟩ =>
    name ++ slotTokens equal ++ slotTokens openQuote ++ nodeTokens contents
      ++ slotTokens closeQuote

/-- The tokens of attributes in a row. -/
def attributeTokens : List Attribute → List Token
  | [] => []
  | attr :: rest => attr.tokens ++ attributeTokens rest

/-- The tokens of an element. -/
def Element.tokens : Element → List Token
  | ⟨leadingTrivia, openBracket, name, attributes, tagEnd, children, closingTag⟩ =>
    nodeTokens leadingTrivia ++ slotTokens openBracket ++ slotTokens name
      ++ attributeTokens attributes ++ slotTokens tagEnd ++ nodeTokens children
      ++ closingTagTokens closingTag

/-- The tokens of a document. -/
def Document.tokens : Document → List Token
  | ⟨root, trailingTrivia⟩ => root.tokens ++ nodeTokens trailingTrivia

end

/-- The tokens of nodes in a row are those of each node in turn. -/
theorem nodeTokens_eq_flatMap (nodes : List Node) : nodeTokens nodes = nodes.flatMap Node.tokens := by
  induction nodes with
  | nil => rfl
  | cons node rest ih => simp [nodeTokens, ih]

/-- The tokens of attributes in a row are those of each attribute in turn. -/
theorem attributeTokens_eq_flatMap (attributes : List Attribute) :
    attributeTokens attributes = attributes.flatMap Attribute.tokens := by
  induction attributes with
  | nil => rfl
  | cons attr rest ih => simp [attributeTokens, ih]

/-- The tokens of an interpolation: its opening mark, its symbol if there is one, and its
closing mark. -/
theorem Interpolation.tokens_eq (interpolation : Interpolation) :
    interpolation.tokens = interpolation.opening ++ nodeTokens (interpolation.symbol.getD [])
      ++ slotTokens interpolation.closing := by
  obtain ⟨opening, _ | symbol, closing⟩ := interpolation <;> simp [tokens, nodeTokens]

/-- The tokens of an attribute: its name, the equals sign, and what is between its quotes with the
quotes. -/
theorem Attribute.tokens_eq (attr : Attribute) :
    attr.tokens = attr.name ++ slotTokens attr.equal ++ slotTokens attr.openQuote
      ++ nodeTokens (attr.contents.getD []) ++ slotTokens attr.closeQuote := by
  obtain ⟨name, equal, openQuote, _ | contents, closeQuote⟩ := attr <;>
    simp [tokens, nodeTokens]

/-- The tokens of an element: its trivia, its opening tag with the attributes, its children, and its
closing tag. -/
theorem Element.tokens_eq (element : Element) :
    element.tokens = nodeTokens element.leadingTrivia ++ slotTokens element.openBracket
      ++ slotTokens element.name ++ attributeTokens element.attributes
      ++ slotTokens element.tagEnd ++ nodeTokens element.children
      ++ closingTagTokens element.closingTag := by
  cases element
  rfl

/-- The smallest span that holds the tokens of a node, if it has any. -/
def Node.span (node : Node) : Option Span := Token.cover node.tokens

end JobMarkup.Tree
