import JobMarkup.Template.Binding

/-!
# Binding in a context

A context collects what is found while parts of one text are bound. It only ever grows. Once a
document is bound, its root tells whether it may refer to variables; if it may not, every use of a
variable that the context knows of is reported.
-/

namespace JobMarkup.Template

open Variable

/-- The diagnostics and the uses of variables found so far in a text. -/
structure Context where
  text : SourceText
  diagnostics : List Diagnostic := []
  references : References := {}

namespace Context

/-- A context in which nothing has been found. -/
def ofText (text : SourceText) : Context := { text }

/-- Add what has been found on the way to a value. -/
def record {α : Type} (context : Context) (bound : Bound α) : Context :=
  { context with
    diagnostics := context.diagnostics ++ bound.diagnostics
    references := context.references.addAll bound.references }

/-- The root element of a document, which is reported if it cannot be bound. -/
def bindRoot (text : SourceText) (root : Tree.Element) : Bound (Option Element) :=
  (bindElement text root).required text .element root.tokens

/-- The diagnostics for uses of variables in a document of the given kind. -/
def unexpectedSymbols (kind : DocumentKind) (references : References) : List Diagnostic :=
  match kind with
  | .job => []
  | .generic => references.spans.map fun span => ⟨.binding .unexpectedSymbol, span⟩

/-- Bind a document. -/
def bindDocument (context : Context) (document : Tree.Document) : Document × Context :=
  let root := bindRoot context.text document.root
  let recorded := context.record root
  let kind := DocumentKind.ofRoot root.value
  (⟨kind, root.value, recorded.references⟩,
    { recorded with
      diagnostics := recorded.diagnostics ++ unexpectedSymbols kind recorded.references })

/-- The part of a template that a node other than a document stands for, if any. -/
def bindPart (text : SourceText) : Tree.Node → Bound (Option Node)
  | .element element => return (← bindElement text element).map .element
  | .attribute attr => return (← bindAttribute text attr).map .attribute
  | .namespacedSymbol nodes => return (← bindSymbol text nodes).map .symbol
  | .interpolation interpolation =>
    return (← bindInterpolation text interpolation).map .symbol
  | .content nodes => return some (.values (← bindValues text [] nodes))
  | _ => pure none

/-- Bind any node. -/
def bind (context : Context) : Tree.Node → Option Node × Context
  | .document document =>
    let (bound, after) := context.bindDocument document
    (some (.document bound), after)
  | node =>
    let bound := bindPart context.text node
    (bound.value, context.record bound)

end Context

end JobMarkup.Template
