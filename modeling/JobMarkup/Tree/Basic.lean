import JobMarkup.Token.Stream

/-!
# Markup trees

A markup tree keeps every token that was read into it. Slots that faulty markup may leave open are
optional, so a tree can be partial. A slot holds the tokens that fill it: one for a punctuation
mark, several for a run of blanks or for a two-part mark such as the end of a comment.
-/

namespace JobMarkup.Tree

/-- The kinds of nodes. -/
inductive NodeKind where
  | single
  | sequence
  | partialSymbol
  | compoundSymbol
  | namespacedSymbol
  | interpolation
  | attribute
  | element
  | closingTag
  | comment
  | content
  | trivia
  | document
deriving DecidableEq

/-- The name of a kind of nodes in messages. -/
def NodeKind.name : NodeKind → String
  | single => "Single"
  | sequence => "Sequence"
  | partialSymbol => "PartialSymbol"
  | compoundSymbol => "CompoundSymbol"
  | namespacedSymbol => "NamespacedSymbol"
  | interpolation => "InterpolatedSymbol"
  | .attribute => "Attribute"
  | element => "Element"
  | closingTag => "ClosingTag"
  | comment => "Comment"
  | content => "Content"
  | trivia => "Trivia"
  | document => "Document"

/-- A closing tag `</name>`. -/
structure ClosingTag where
  opening : List Token
  name : Option (List Token) := none
  closing : Option (List Token) := none
deriving DecidableEq

/-- A comment `<!-- ... -->`. -/
structure Comment where
  opening : List Token
  contents : List Token := []
  closing : Option (List Token) := none
deriving DecidableEq

mutual

/-- A node of a markup tree. -/
inductive Node where
  /-- Tokens that were read together. -/
  | single (tokens : List Token)
  /-- Any nodes in a row. -/
  | sequence (nodes : List Node)
  /-- A letter run with further letters, digits and inner hyphens. -/
  | partialSymbol (tokens : List Token)
  /-- Partial symbols and the periods between them. -/
  | compoundSymbol (nodes : List Node)
  /-- Compound symbols and the slashes between them. -/
  | namespacedSymbol (nodes : List Node)
  | interpolation (interpolation : Interpolation)
  | attribute (attr : Attribute)
  | element (element : Element)
  | closingTag (tag : ClosingTag)
  | comment (comment : Comment)
  /-- Single tokens and interpolations. -/
  | content (nodes : List Node)
  /-- Runs of blanks and comments. -/
  | trivia (nodes : List Node)
  | document (document : Document)

/-- A reference `@{namespace/key}@` to a variable. -/
structure Interpolation where
  opening : List Token
  /-- The nodes of the namespaced symbol. -/
  symbol : Option (List Node) := none
  closing : Option (List Token) := none

/-- An attribute `name="value"`. -/
structure Attribute where
  name : List Token
  equal : Option (List Token) := none
  openQuote : Option (List Token) := none
  /-- The nodes of the value, if it is not empty. -/
  contents : Option (List Node) := none
  closeQuote : Option (List Token) := none

/-- An element: `<name attributes/>`, or `<name attributes>`, its children and a closing tag. -/
structure Element where
  /-- Blanks and comments in front of the element. -/
  leadingTrivia : List Node := []
  openBracket : Option (List Token) := none
  name : Option (List Token) := none
  attributes : List Attribute := []
  /-- The end of the opening tag. -/
  tagEnd : Option (List Token) := none
  /-- Either elements or one node of content. -/
  children : List Node := []
  closingTag : Option ClosingTag := none

/-- A root element and the trivia behind it. -/
structure Document where
  root : Element
  trailingTrivia : List Node := []

end

/-- The kind of a node. -/
def Node.kind : Node → NodeKind
  | .single _ => .single
  | .sequence _ => .sequence
  | .partialSymbol _ => .partialSymbol
  | .compoundSymbol _ => .compoundSymbol
  | .namespacedSymbol _ => .namespacedSymbol
  | .interpolation _ => .interpolation
  | .attribute _ => .attribute
  | .element _ => .element
  | .closingTag _ => .closingTag
  | .comment _ => .comment
  | .content _ => .content
  | .trivia _ => .trivia
  | .document _ => .document

/-- The symbol and the closing mark are there. -/
def Interpolation.isTerminated (interpolation : Interpolation) : Bool :=
  interpolation.symbol.isSome && interpolation.closing.isSome

/-- Both quotes are there. -/
def Attribute.isTerminated (attr : Attribute) : Bool :=
  attr.openQuote.isSome && attr.closeQuote.isSome

namespace Element

/-- How much of the tags of an element is there. -/
inductive Form where
  /-- A tag with a name that closes itself. -/
  | selfClosing (name : List Token)
  /-- An opening tag with a name and its end, and a closing tag with a name. -/
  | paired (name closingName : List Token)
  /-- No tag at all. -/
  | triviaOnly
  /-- A tag that lacks its name or its end, or whose closing tag lacks its name. -/
  | incomplete
deriving DecidableEq

/-- The element has no tag. -/
def isTriviaOnly (element : Element) : Bool := element.openBracket.isNone

/-- The kind of the token that ends the opening tag. -/
def tagEndKind (element : Element) : Option TokenKind :=
  element.tagEnd >>= fun tokens => tokens.head?.map Token.kind

/-- How much of the tags of an element is there. -/
def form (element : Element) : Form :=
  if element.isTriviaOnly then .triviaOnly
  else
    match element.name, element.tagEnd with
    | some name, some _ =>
      if element.tagEndKind = some .slashClose then .selfClosing name
      else
        match element.closingTag >>= ClosingTag.name with
        | some closingName => .paired name closingName
        | none => .incomplete
    | _, _ => .incomplete

end Element

end JobMarkup.Tree
