import JobMarkup.Tree.Tokens

/-!
# Extents of a markup tree

The extent of a node is joined from those of its parts, level by level, and parts that have none do
not count. Where all tokens are of one document it is the smallest span that holds them. Trees can
also be put together from tokens of several documents; what such tokens are joined to has no extent.
-/

namespace JobMarkup.Tree

/-- The extent of a slot, if it is filled. -/
def slotExtents (slot : Option (List Token)) : List Span := (slot.bind Token.cover).toList

/-- The extent of a closing tag. -/
def ClosingTag.extent (tag : ClosingTag) : Option Span :=
  Span.cover ((Token.cover tag.opening).toList ++ slotExtents tag.name ++ slotExtents tag.closing)

/-- The extent of a comment. -/
def Comment.extent (comment : Comment) : Option Span :=
  Span.cover ((Token.cover comment.opening).toList ++ (Token.cover comment.contents).toList
    ++ slotExtents comment.closing)

mutual

/-- The extent of a node. -/
def Node.extent : Node → Option Span
  | .single tokens => Token.cover tokens
  | .sequence nodes => Span.cover (nodeExtents nodes)
  | .partialSymbol tokens => Token.cover tokens
  | .compoundSymbol nodes => Span.cover (nodeExtents nodes)
  | .namespacedSymbol nodes => Span.cover (nodeExtents nodes)
  | .interpolation interpolation => interpolation.extent
  | .attribute attr => attr.extent
  | .element element => element.extent
  | .closingTag tag => tag.extent
  | .comment comment => comment.extent
  | .content nodes => Span.cover (nodeExtents nodes)
  | .trivia nodes => Span.cover (nodeExtents nodes)
  | .document document => document.extent

/-- The extents of nodes in a row. -/
def nodeExtents : List Node → List Span
  | [] => []
  | node :: rest => node.extent.toList ++ nodeExtents rest

/-- The extent of an interpolation. -/
def Interpolation.extent : Interpolation → Option Span
  | ⟨opening, none, closing⟩ => Span.cover ((Token.cover opening).toList ++ slotExtents closing)
  | ⟨opening, some symbol, closing⟩ =>
    Span.cover ((Token.cover opening).toList ++ (Span.cover (nodeExtents symbol)).toList
      ++ slotExtents closing)

/-- The extent of an attribute. -/
def Attribute.extent : Attribute → Option Span
  | ⟨name, equal, openQuote, none, closeQuote⟩ =>
    Span.cover ((Token.cover name).toList ++ slotExtents equal ++ slotExtents openQuote
      ++ slotExtents closeQuote)
  | ⟨name, equal, openQuote, some contents, closeQuote⟩ =>
    Span.cover ((Token.cover name).toList ++ slotExtents equal ++ slotExtents openQuote
      ++ (Span.cover (nodeExtents contents)).toList ++ slotExtents closeQuote)

/-- The extents of attributes in a row. -/
def attributeExtents : List Attribute → List Span
  | [] => []
  | attr :: rest => attr.extent.toList ++ attributeExtents rest

/-- The extent of an element. -/
def Element.extent : Element → Option Span
  | ⟨leadingTrivia, openBracket, name, attributes, tagEnd, children, closingTag⟩ =>
    Span.cover ((Span.cover (nodeExtents leadingTrivia)).toList ++ slotExtents openBracket
      ++ slotExtents name ++ (Span.cover (attributeExtents attributes)).toList
      ++ slotExtents tagEnd ++ (Span.cover (nodeExtents children)).toList
      ++ (closingTag.bind ClosingTag.extent).toList)

/-- The extent of a document. -/
def Document.extent : Document → Option Span
  | ⟨root, trailingTrivia⟩ =>
    Span.cover (root.extent.toList ++ (Span.cover (nodeExtents trailingTrivia)).toList)

end

end JobMarkup.Tree
