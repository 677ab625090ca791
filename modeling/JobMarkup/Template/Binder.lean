import JobMarkup.Template.Context
import JobMarkup.Tree.Extent

/-!
# Binding step by step

A result of binding lists what has been found on the way to it. Here the parts of a tree are bound one
after the other while a context is at hand, which is read and changed on the way: reports and uses of
variables are added to it where they are found, also those of parts that are given up later on.
-/

namespace JobMarkup.Template

open JobMarkup.Tree JobMarkup.Variable

/-- What is done to a context, and the value that is found. -/
abbrev Binder (α : Type) := StateM Context α

namespace Binder

/-! ## Steps -/

/-- Report a fault at an extent. Without one the report stands at the start of the text. -/
def report (fault : BindingFault) (extent : Option Span) : Binder Unit :=
  modify fun context => { context with
    diagnostics := context.diagnostics
      ++ [⟨.binding fault, extent.getD (Span.origin context.text.document)⟩] }

/-- The text of a span; empty if the span does not address the text. -/
def excerpt (span : Span) : Binder Excerpt := do
  return .ofSpan (← get).text span

/-- Add the use that a symbol makes of its variable. -/
def use (symbol : Symbol) : Binder Unit :=
  modify fun context => { context with
    references := context.references.add symbol.reference }

/-- A value that counts as bound only if it is there; else it is reported as unbound. -/
def required {α : Type} (part : BoundPart) (extent : Option Span) (binder : Binder (Option α)) :
    Binder (Option α) := do
  match ← binder with
  | some value => return some value
  | none =>
    report (.unbound part) extent
    return none

/-! ## Symbols and values -/

/-- The symbol that the nodes of a namespaced symbol stand for. -/
def ofSymbol (nodes : List Tree.Node) : Binder (Option Symbol) := do
  if nodes.length % 2 ≠ 1 ∨ nodes.length < 3 then
    report .malformedSymbol (Span.cover (nodeExtents nodes))
    return none
  else
    match Span.cover (nodeExtents (nodes.take (nodes.length - 2))),
      nodes.getLast? >>= Tree.Node.extent with
    | some scopeSpan, some keySpan =>
      let scope ← excerpt scopeSpan
      let key ← excerpt keySpan
      use ⟨scope, key⟩
      return some ⟨scope, key⟩
    | _, _ => return none

/-- The symbol of an interpolation, if it has one. -/
def ofInterpolation (whole : Interpolation) : Binder (Option Symbol) :=
  match whole.symbol with
  | some nodes => ofSymbol nodes
  | none => return none

/-- The literal that has begun, if there is one. -/
def ofLiteral : Option Span → Binder (List Value)
  | none => return []
  | some span => do
    let excerpt ← excerpt span
    return [.literal excerpt]

/-- The value that nodes stand for, given the extent of a literal that has begun. -/
def ofValues : (begun : Option Span) → List Tree.Node → Binder (List Value)
  | begun, [] => ofLiteral begun
  | begun, .single tokens :: rest =>
    ofValues (Span.cover (begun.toList ++ (Token.cover tokens).toList)) rest
  | begun, .interpolation whole :: rest => do
    let literal ← ofLiteral begun
    let symbol ← required .symbol whole.extent (ofInterpolation whole)
    let others ← ofValues none rest
    return literal ++ symbol.toList.map .symbol ++ others
  | begun, node :: rest => do
    report (.unexpectedNode node.kind) node.extent
    ofValues begun rest

/-! ## Attributes -/

/-- The attribute that an attribute of the tree stands for. What its value gives has been added even
if it turns out to have no extent. -/
def ofAttribute (attr : Tree.Attribute) : Binder (Option Attribute) := do
  if attr.isTerminated then
    match Token.cover attr.name with
    | none => return none
    | some name =>
      let key ← excerpt name
      let value ← ofValues none (attr.contents.getD [])
      return attr.extent.map fun span => ⟨span, key, value⟩
  else return none

/-- Report an attribute whose key is among those before it. -/
def checkKey (keys : List String) (bound : Attribute) : Binder Unit :=
  if bound.key.text ∈ keys then report .duplicateAttribute (some bound.span) else return

/-- The attributes of an element, given the keys of those before them. -/
def ofAttributes : (keys : List String) → List Tree.Attribute → Binder (List Attribute)
  | _, [] => return []
  | keys, attr :: rest => do
    match ← required .attribute attr.extent (ofAttribute attr) with
    | none => ofAttributes keys rest
    | some bound =>
      checkKey keys bound
      let others ← ofAttributes (bound.key.text :: keys) rest
      return bound :: others

/-! ## Elements -/

/-- Report a closing tag with another name than its opening tag. -/
def checkClosingName (name : Excerpt) (closingName : List Token) : Binder Unit := do
  match Token.cover closingName with
  | none => return
  | some span =>
    let other ← excerpt span
    if name.text ≠ other.text then report (.tagMismatch name.text) (some other.span)

mutual

/-- The element that an element of the tree stands for, if its tags are complete. -/
def ofElement : Tree.Element → Binder (Option Element)
  | ⟨leadingTrivia, openBracket, name, attributes, tagEnd, children, closingTag⟩ =>
    match boundNames ⟨leadingTrivia, openBracket, name, attributes, tagEnd, children, closingTag⟩
      with
    | none => return none
    | some (nameTokens, closingName) =>
      match Token.cover nameTokens with
      | none => return none
      | some span => do
        let name ← excerpt span
        checkClosingName name closingName
        let attributes ← ofAttributes [] attributes
        match children with
        | [.content nodes] =>
          let content ← ofValues none nodes
          return some ⟨name, attributes, some content, []⟩
        | _ =>
          let children ← ofChildren children
          return some ⟨name, attributes, none, children⟩

/-- The elements that the child nodes of an element stand for. -/
def ofChildren : List Tree.Node → Binder (List Element)
  | [] => return []
  | .comment _ :: rest => ofChildren rest
  | .trivia _ :: rest => ofChildren rest
  | .element child :: rest => do
    if child.isTriviaOnly then ofChildren rest
    else
      let bound ← required .element child.extent (ofElement child)
      let others ← ofChildren rest
      return bound.toList ++ others
  | node :: rest => do
    report (.unexpectedNode node.kind) node.extent
    ofChildren rest

end

/-! ## Documents -/

/-- Report all uses of variables, unless they are in a job document. -/
def reportUses (kind : DocumentKind) (references : References) : Binder Unit :=
  match kind with
  | .job => return
  | .generic => references.spans.forM fun span => report .unexpectedSymbol (some span)

/-- A document: its root, which is reported if it cannot be bound, and all uses of variables that the
context knows of, whether or not they are in it. -/
def ofDocument (document : Tree.Document) : Binder Document := do
  let root ← required .element document.root.extent (ofElement document.root)
  let references := (← get).references
  let kind := DocumentKind.ofRoot root
  reportUses kind references
  return ⟨kind, root, references⟩

/-- The part of a template that any node stands for, if there is one. -/
def ofNode : Tree.Node → Binder (Option Node)
  | .document document => return some (.document (← ofDocument document))
  | .element element => return (← ofElement element).map .element
  | .attribute attr => return (← ofAttribute attr).map .attribute
  | .namespacedSymbol nodes => return (← ofSymbol nodes).map .symbol
  | .interpolation whole => return (← ofInterpolation whole).map .symbol
  | .content nodes => return some (.values (← ofValues none nodes))
  | _ => return none

end Binder

end JobMarkup.Template
