import JobMarkup.SourceText.Basic
import JobMarkup.Variable.References

/-!
# Templates

A template is what a document means: elements with attributes, and content or child elements, where
attribute values and content are literal texts and references to variables. Every text comes with
the span that it was taken from.
-/

namespace JobMarkup.Template

open Variable

/-- A text and the span that it was taken from. -/
structure Excerpt where
  span : Span
  text : String
deriving DecidableEq

/-- The text of a span; empty if the span does not address the text. -/
def Excerpt.ofSpan (text : SourceText) (span : Span) : Excerpt :=
  ⟨span, String.ofList ((text.extract span).toOption.getD [])⟩

/-- A reference to a variable. -/
structure Symbol where
  /-- The namespace. -/
  scope : Excerpt
  key : Excerpt
deriving DecidableEq

namespace Symbol

/-- The variable that is referred to. -/
def identifier (symbol : Symbol) : Identifier := ⟨symbol.scope.text, symbol.key.text⟩

/-- The span from the namespace to the key. -/
def span (symbol : Symbol) : Span :=
  (symbol.scope.span.union symbol.key.span).toOption.getD symbol.scope.span

/-- The use that a symbol makes of its variable. -/
def reference (symbol : Symbol) : Reference := ⟨symbol.identifier, symbol.span⟩

end Symbol

/-- A piece of a value. -/
inductive Value where
  | literal (excerpt : Excerpt)
  | symbol (symbol : Symbol)
deriving DecidableEq

/-- The reference that a piece of a value makes, if it is one. -/
def Value.symbol? : Value → Option Symbol
  | literal _ => none
  | symbol reference => some reference

/-- The references of a value, in order. -/
def symbols (values : List Value) : List Symbol := values.filterMap Value.symbol?

/-- The symbols of values in a row are those of the first values and then those of the second. -/
theorem symbols_append (first second : List Value) :
    symbols (first ++ second) = symbols first ++ symbols second :=
  List.filterMap_append

/-- An attribute. -/
structure Attribute where
  span : Span
  key : Excerpt
  value : List Value
deriving DecidableEq

/-- An element. Documents that are read have content or children, and not both. -/
structure Element where
  /-- The name, taken from the opening tag. -/
  name : Excerpt
  attributes : List Attribute
  content : Option (List Value)
  children : List Element

/-- The first attribute with the given key. -/
def Element.attribute? (element : Element) (key : String) : Option Attribute :=
  element.attributes.find? (fun attr => attr.key.text == key)

/-- Whether a document may refer to variables. -/
inductive DocumentKind where
  | generic
  | job
deriving DecidableEq

/-- The name of the root of a job document, in capital or small letters. -/
def jobName : String := "job"

/-- Equality of texts up to the case of ASCII letters. -/
def equalIgnoringCase (a b : String) : Bool :=
  a.toList.map Char.toLower == b.toList.map Char.toLower

/-- A document is a job document if its root has the name of one. -/
def DocumentKind.ofRoot : Option Element → DocumentKind
  | some root => if equalIgnoringCase root.name.text jobName then .job else .generic
  | none => .generic

/-- A document: its kind, its root if it could be bound, and all uses of variables. -/
structure Document where
  kind : DocumentKind
  root : Option Element
  references : References

/-- A part of a template. -/
inductive Node where
  | excerpt (excerpt : Excerpt)
  | symbol (symbol : Symbol)
  | attribute (attr : Attribute)
  | element (element : Element)
  | values (values : List Value)
  | document (document : Document)

end JobMarkup.Template
