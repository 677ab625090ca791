import JobMarkup.Highlight.Basic
import JobMarkup.Tree.Tokens

/-!
# Highlights of a markup tree

Every part of a tree that has a category is highlighted, whether the markup around it is complete
or not. A part that goes over several lines is cut into one highlight for each line. The value of
an attribute is highlighted with its quotes and cut around the interpolations in it.
-/

namespace JobMarkup.Highlight

open JobMarkup.Tree

/-- The highlight of one line of a span: from the start of the span or of the line, to the end of
the span or of the line. -/
def ofLine (text : SourceText) (category : Category) (span : Span) (line : Nat) : Highlight :=
  let first := if line = span.start.line then span.start.column else 0
  let last :=
    if line = span.stop.line then span.stop.column
    else ((text.lineLength line).toOption.getD 0) - 1
  ⟨category, line, first, (last - first) + 1⟩

/-- The highlights of a span, line by line. -/
def ofSpan (text : SourceText) (category : Category) (span : Span) : List Highlight :=
  (List.range' span.start.line (span.stop.line + 1 - span.start.line)).map
    (ofLine text category span)

/-- The highlights of tokens in a row; none without tokens. -/
def ofTokens (text : SourceText) (category : Category) (tokens : List Token) : List Highlight :=
  (Token.cover tokens).toList.flatMap (ofSpan text category)

/-- The highlights of an interpolation: its marks, and its symbol between them. -/
def ofInterpolation (text : SourceText) (interpolation : Interpolation) : List Highlight :=
  ofTokens text .interpolationMark interpolation.opening
    ++ ofTokens text .variableName (nodeTokens (interpolation.symbol.getD []))
    ++ ofTokens text .interpolationMark (slotTokens interpolation.closing)

/-- The highlights of a value, given the tokens of a string that has begun and those of the closing
quote. -/
def ofValue (text : SourceText) (closing : List Token) : (run : List Token) → List Node →
    List Highlight
  | run, [] => ofTokens text .string (run ++ closing)
  | run, .interpolation interpolation :: rest =>
    ofTokens text .string run ++ ofInterpolation text interpolation
      ++ ofValue text closing [] rest
  | run, node :: rest => ofValue text closing (run ++ node.tokens) rest

/-- The highlights of an attribute: its name, and its value if a quote opens it. -/
def ofAttribute (text : SourceText) (attr : Attribute) : List Highlight :=
  ofTokens text .attributeName attr.name ++
    match attr.openQuote with
    | none => []
    | some quote => ofValue text (slotTokens attr.closeQuote) quote (attr.contents.getD [])

mutual

/-- The highlights of a node. -/
def ofNode (text : SourceText) : Node → List Highlight
  | .comment comment => ofTokens text .comment comment.tokens
  | .closingTag tag => ofTokens text .element tag.tokens
  | .namespacedSymbol nodes => ofTokens text .variableName (nodeTokens nodes)
  | .interpolation interpolation => ofInterpolation text interpolation
  | .attribute attr => ofAttribute text attr
  | .element element => ofElement text element
  | .document document => ofDocument text document
  | .sequence nodes => ofNodes text nodes
  | .compoundSymbol nodes => ofNodes text nodes
  | .content nodes => ofNodes text nodes
  | .trivia nodes => ofNodes text nodes
  | .single _ => []
  | .partialSymbol _ => []

/-- The highlights of nodes in a row. -/
def ofNodes (text : SourceText) : List Node → List Highlight
  | [] => []
  | node :: rest => ofNode text node ++ ofNodes text rest

/-- The highlights of an element. -/
def ofElement (text : SourceText) : Element → List Highlight
  | ⟨leadingTrivia, openBracket, name, attributes, tagEnd, children, closingTag⟩ =>
    ofNodes text leadingTrivia
      ++ ofTokens text .element (slotTokens openBracket)
      ++ ofTokens text .element (slotTokens name)
      ++ attributes.flatMap (ofAttribute text)
      ++ ofTokens text .element (slotTokens tagEnd)
      ++ ofNodes text children
      ++ ofTokens text .element (closingTagTokens closingTag)

/-- The highlights of a document. -/
def ofDocument (text : SourceText) : Document → List Highlight
  | ⟨root, trailingTrivia⟩ => ofElement text root ++ ofNodes text trailingTrivia

end

end JobMarkup.Highlight
