import JobMarkup.Tree.Basic

/-!
# Problems and diagnostics

What can be wrong with a document falls into two groups: markup that does not follow the grammar,
and markup trees that cannot be bound. Each problem has one wording. A diagnostic is a problem at
its place.
-/

namespace JobMarkup

/-- What can be wrong with the markup of a document. -/
inductive GrammarFault where
  /-- A period without a partial symbol behind it. -/
  | incompleteCompoundSymbol
  /-- A slash without a compound symbol behind it. -/
  | incompleteNamespacedSymbol
  /-- A symbol without a slash. -/
  | missingNamespace
  /-- An interpolation without a symbol or without its closing mark. -/
  | nonTerminatedInterpolation
  /-- An attribute name without an equals sign and a quote behind it. -/
  | missingAttributeAssignment
  /-- An attribute value without its closing quote. -/
  | nonTerminatedString
  /-- A closing tag without a name or without its end. -/
  | incompleteClosingTag
  /-- A comment that the text ends in. -/
  | nonTerminatedComment
  /-- A tag that ends right after its bracket. -/
  | missingElementName
  /-- A tag that the text ends in. -/
  | nonTerminatedTag
  /-- A tag name other than one run of letters. -/
  | invalidElementName
  /-- An attribute right behind another one. -/
  | missingAttributeSpacing
  /-- An element without its closing tag. -/
  | nonTerminatedElement
  /-- Text behind child elements. -/
  | invalidElementValue
  /-- A token that no part of a tag begins with. -/
  | invalidToken
  /-- An element nested deeper than trees go. -/
  | nestingTooDeep
deriving DecidableEq

/-- The wording of a fault in the markup. -/
def GrammarFault.message : GrammarFault → String
  | incompleteCompoundSymbol =>
    "Incomplete CompoundSymbol. Symbol fragments must be conjoined by '.' characters without "
      ++ "ending in one."
  | incompleteNamespacedSymbol =>
    "Incomplete NamespacedSymbol. Symbol clauses must be conjoined by '/' characters without "
      ++ "ending in one."
  | missingNamespace => "Declared symbol does not have any namespaces declared."
  | nonTerminatedInterpolation => "Non-terminated interpolation."
  | missingAttributeAssignment => "Missing attribute assignment."
  | nonTerminatedString => "Non-terminated string."
  | incompleteClosingTag =>
    "Incomplete XmlCloseTag. Expected the whitespace agnostic pattern </AAA>."
  | nonTerminatedComment => "Non-terminated comment."
  | missingElementName => "Element is missing name."
  | nonTerminatedTag => "Non-terminated element tag."
  | invalidElementName => "Invalid element name."
  | missingAttributeSpacing => "Missing spacing between attributes."
  | nonTerminatedElement => "Non-terminated xml document."
  | invalidElementValue => "Invalid element value"
  | invalidToken => "Invalid token"
  | nestingTooDeep => "Element nesting exceeds the maximum depth."

/-- The parts of a document that binding may fail for. -/
inductive BoundPart where
  | symbol
  | attribute
  | element
deriving DecidableEq

/-- The name of a part in messages. -/
def BoundPart.name : BoundPart → String
  | symbol => "Symbol"
  | .attribute => "Attribute"
  | element => "Element"

/-- What can be wrong with a markup tree. -/
inductive BindingFault where
  /-- A closing tag with another name than its opening tag, which has the given one. -/
  | tagMismatch (expected : String)
  /-- A node that has no meaning where it stands. -/
  | unexpectedNode (kind : Tree.NodeKind)
  /-- A part too incomplete to be bound. -/
  | unbound (part : BoundPart)
  /-- A symbol without a namespace or without a key. -/
  | malformedSymbol
  /-- An attribute with the key of an earlier one. -/
  | duplicateAttribute
  /-- A reference to a variable outside a job document. -/
  | unexpectedSymbol
deriving DecidableEq

/-- The wording of a fault in the tree. -/
def BindingFault.message : BindingFault → String
  | tagMismatch expected => s!"Closing tag does not align. Expected: {expected}"
  | unexpectedNode kind => s!"Encountered unexpected syntax of kind: {kind.name}"
  | unbound part => s!"Failed to bind instance of {part.name}"
  | malformedSymbol => "Unbindable symbol."
  | duplicateAttribute => "Duplicate attribute"
  | unexpectedSymbol => "Unexpected symbol. Only job documents may contain embedded symbols."

/-- What can be wrong with a document. -/
inductive Problem where
  | grammar (fault : GrammarFault)
  | binding (fault : BindingFault)
deriving DecidableEq

/-- The wording of a problem. -/
def Problem.message : Problem → String
  | grammar fault => fault.message
  | binding fault => fault.message

/-- A problem at its place. -/
structure Diagnostic where
  problem : Problem
  span : Span
deriving DecidableEq

namespace Diagnostic

/-- The wording of the problem. -/
def message (diagnostic : Diagnostic) : String := diagnostic.problem.message

/-- A diagnostic in one line: the wording and the place, counted from one. -/
def toText (diagnostic : Diagnostic) : String :=
  s!"{diagnostic.message} at line {diagnostic.span.start.line + 1}, "
    ++ s!"column {diagnostic.span.start.column + 1}"

end Diagnostic

end JobMarkup
