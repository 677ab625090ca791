import JobMarkup.Template.Bound

/-!
# Templates of markup trees

Binding turns a markup tree into a template and reports what has no meaning: closing tags with
another name, attributes given twice, symbols without a namespace, and parts too incomplete to be
bound. Every symbol that is bound is a use of its variable, whatever becomes of the parts around
it. Only comments, trivia and elements without a tag are left out without a report.
-/

namespace JobMarkup.Template

open JobMarkup.Tree

/-- The symbol that the nodes of a namespaced symbol stand for: the last node is the key, and all
nodes before the last slash are the namespace. -/
def bindSymbol (text : SourceText) (nodes : List Tree.Node) : Bound (Option Symbol) :=
  if nodes.length % 2 = 1 ∧ 3 ≤ nodes.length then
    let scope := Token.cover (nodeTokens (nodes.take (nodes.length - 2)))
    let key := nodes.getLast? >>= Tree.Node.span
    match scope, key with
    | some scope, some key =>
      let symbol : Symbol := ⟨.ofSpan text scope, .ofSpan text key⟩
      ⟨some symbol, [], [symbol.reference]⟩
    | _, _ => pure none
  else do
    Bound.faultAbout text (nodeTokens nodes) .malformedSymbol
    return none

/-- The symbol of an interpolation, if it has one. -/
def bindInterpolation (text : SourceText) (interpolation : Interpolation) :
    Bound (Option Symbol) :=
  match interpolation.symbol with
  | some nodes => bindSymbol text nodes
  | none => pure none

/-- The literal that tokens in a row stand for; none without tokens. -/
def literalOf (text : SourceText) (tokens : List Token) : List Value :=
  (Token.cover tokens).toList.map fun span => .literal (.ofSpan text span)

/-- The value that nodes stand for, given the tokens of a literal that has begun. Tokens up to the
next interpolation are one literal. -/
def bindValues (text : SourceText) : (literal : List Token) → List Tree.Node → Bound (List Value)
  | literal, [] => pure (literalOf text literal)
  | literal, .single tokens :: rest => bindValues text (literal ++ tokens) rest
  | literal, .interpolation interpolation :: rest => do
    let symbol ← (bindInterpolation text interpolation).required text .symbol interpolation.tokens
    let others ← bindValues text [] rest
    return literalOf text literal ++ symbol.toList.map .symbol ++ others
  | literal, node :: rest => do
    Bound.faultAbout text node.tokens (.unexpectedNode node.kind)
    bindValues text literal rest

/-- The attribute that an attribute of the tree stands for. Both its quotes have to be there. -/
def bindAttribute (text : SourceText) (attr : Tree.Attribute) : Bound (Option Attribute) :=
  if attr.isTerminated then
    match Token.cover attr.name with
    | some name => do
      let value ← bindValues text [] (attr.contents.getD [])
      return (Token.cover attr.tokens).map fun span => ⟨span, .ofSpan text name, value⟩
    | none => pure none
  else pure none

/-- The attributes of an element, given the keys of those before them. -/
def bindAttributes (text : SourceText) :
    (keys : List String) → List Tree.Attribute → Bound (List Attribute)
  | _, [] => pure []
  | keys, attr :: rest => do
    match ← (bindAttribute text attr).required text .attribute attr.tokens with
    | some bound =>
      if bound.key.text ∈ keys then Bound.faultAt bound.span .duplicateAttribute
      let others ← bindAttributes text (bound.key.text :: keys) rest
      return bound :: others
    | none => bindAttributes text keys rest

/-- Report a closing tag with another name than its opening tag. -/
def checkClosingName (text : SourceText) (name : Excerpt) (closingName : List Token) :
    Bound Unit :=
  match Token.cover closingName with
  | some span =>
    if (Excerpt.ofSpan text span).text = name.text then pure ()
    else Bound.faultAt span (.tagMismatch name.text)
  | none => pure ()

/-- The names of an element whose tags are complete enough to be bound: the name of its opening
tag, and that of its closing tag if it has one. -/
def boundNames (element : Tree.Element) : Option (List Token × List Token) :=
  match element.form with
  | .selfClosing name => some (name, [])
  | .paired name closingName => some (name, closingName)
  | .triviaOnly | .incomplete => none

mutual

/-- The element that an element of the tree stands for, if its tags are complete. -/
def bindElement (text : SourceText) : Tree.Element → Bound (Option Element)
  | ⟨leadingTrivia, openBracket, name, attributes, tagEnd, children, closingTag⟩ =>
    match boundNames ⟨leadingTrivia, openBracket, name, attributes, tagEnd, children, closingTag⟩
      with
    | some (nameTokens, closingName) =>
      match Token.cover nameTokens with
      | some span => do
        let name := Excerpt.ofSpan text span
        checkClosingName text name closingName
        let attributes ← bindAttributes text [] attributes
        match children with
        | [.content nodes] =>
          let content ← bindValues text [] nodes
          return some ⟨name, attributes, some content, []⟩
        | _ =>
          let children ← bindChildren text children
          return some ⟨name, attributes, none, children⟩
      | none => pure none
    | none => pure none

/-- The elements that the child nodes of an element stand for. -/
def bindChildren (text : SourceText) : List Tree.Node → Bound (List Element)
  | [] => pure []
  | .comment _ :: rest => bindChildren text rest
  | .trivia _ :: rest => bindChildren text rest
  | .element child :: rest =>
    if child.isTriviaOnly then bindChildren text rest
    else do
      let bound ← (bindElement text child).required text .element child.tokens
      let others ← bindChildren text rest
      return bound.toList ++ others
  | node :: rest => do
    Bound.faultAbout text node.tokens (.unexpectedNode node.kind)
    bindChildren text rest

end

end JobMarkup.Template
