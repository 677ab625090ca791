import JobMarkup.Template.Basic
import JobMarkup.Variable.Values

/-!
# Pieces of a template

A template taken apart into texts and variables in a row. The pieces do not depend on any values.
An instance of pieces is their texts and the values of their variables one after the other.
-/

namespace JobMarkup.Template

open Variable

/-- A text, or the value of a variable. -/
inductive Piece where
  | text (text : String)
  | value (identifier : Identifier)
deriving DecidableEq

namespace Piece

/-- The text of a piece under given values. -/
def instantiate (values : Values) : Piece → String
  | text literal => literal
  | value identifier => values.get identifier

end Piece

/-- The text of pieces in a row under given values. -/
def instantiate (values : Values) (pieces : List Piece) : String :=
  String.join (pieces.map (Piece.instantiate values))

/-- The piece of a symbol. -/
def Symbol.piece (symbol : Symbol) : Piece := .value symbol.identifier

/-- The piece of a part of a value. -/
def Value.piece : Value → Piece
  | literal excerpt => .text excerpt.text
  | symbol reference => reference.piece

/-- The pieces of an attribute: the key and the value in quotes. -/
def Attribute.pieces (attr : Attribute) : List Piece :=
  .text attr.key.text :: .text "=\"" :: attr.value.map Value.piece ++ [.text "\""]

/-- The pieces of attributes, a space before each. -/
def attributePieces (attributes : List Attribute) : List Piece :=
  attributes.flatMap fun attr => .text " " :: attr.pieces

/-- The pieces of a closing tag. -/
def closingTagPieces (name : String) : List Piece := [.text "</", .text name, .text ">"]

mutual

/-- The pieces of an element. A tag without content and children closes itself. -/
def Element.pieces : Element → List Piece
  | ⟨name, attributes, some content, _⟩ =>
    .text "<" :: .text name.text :: attributePieces attributes ++ .text ">"
      :: content.map Value.piece ++ closingTagPieces name.text
  | ⟨name, attributes, none, []⟩ =>
    .text "<" :: .text name.text :: attributePieces attributes ++ [.text "/>"]
  | ⟨name, attributes, none, child :: children⟩ =>
    .text "<" :: .text name.text :: attributePieces attributes ++ .text ">"
      :: (child.pieces ++ elementPieces children) ++ closingTagPieces name.text

/-- The pieces of elements in a row. -/
def elementPieces : List Element → List Piece
  | [] => []
  | element :: rest => element.pieces ++ elementPieces rest

end

/-- The pieces of a document; none without a root. -/
def Document.pieces (document : Document) : List Piece :=
  (document.root.map Element.pieces).getD []

/-- The pieces of a part of a template. -/
def Node.pieces : Node → List Piece
  | .excerpt taken => [.text taken.text]
  | .symbol reference => [reference.piece]
  | .attribute attr => attr.pieces
  | .element root => root.pieces
  | .values pieces => pieces.map Value.piece
  | .document whole => whole.pieces

end JobMarkup.Template
