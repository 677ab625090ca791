import JobMarkup.Template.Pieces
import JobMarkup.Template.Writing

/-!
# What is written of a template

Writing a part of a template appends to a text, and what it appends is the instance of the pieces of
the part. There is one lemma for each function that writes; none of them looks at what has been
written before, so values are put in as they are.
-/

namespace JobMarkup.Template

open Variable

/-! ## Instances of pieces in a row -/

section Pieces

variable (values : Values)

/-- Without pieces the instance is empty. -/
@[simp] theorem instantiate_nil : instantiate values [] = "" := rfl

/-- Pieces are instantiated one behind the other. -/
@[simp] theorem instantiate_cons (piece : Piece) (rest : List Piece) :
    instantiate values (piece :: rest) = piece.instantiate values ++ instantiate values rest := by
  rw [instantiate, List.map_cons, String.join_cons, instantiate]

/-- Two rows of pieces are instantiated one row behind the other. -/
@[simp] theorem instantiate_append (first second : List Piece) :
    instantiate values (first ++ second)
      = instantiate values first ++ instantiate values second := by
  induction first with
  | nil => simp
  | cons piece rest ih => rw [List.cons_append, instantiate_cons, ih, instantiate_cons, String.append_assoc]

/-- A text is its own instance. -/
@[simp] theorem Piece.instantiate_text (literal : String) :
    (Piece.text literal).instantiate values = literal := rfl

/-- The instance of a variable is its value. -/
@[simp] theorem Piece.instantiate_value (identifier : Identifier) :
    (Piece.value identifier).instantiate values = values.get identifier := rfl

end Pieces

/-! ## What each function appends -/

section Write

variable (values : Values) (out : String)

/-- Writing a symbol appends the value of its variable. -/
theorem Symbol.write_eq (symbol : Symbol) :
    symbol.write values out = out ++ instantiate values [symbol.piece] := by
  simp [Symbol.write, Symbol.piece]

/-- Writing a piece of a value appends its instance. -/
theorem Value.write_eq (value : Value) :
    value.write values out = out ++ instantiate values [value.piece] := by
  cases value with
  | literal excerpt => simp [Value.write, Value.piece]
  | symbol reference => exact reference.write_eq values out

/-- Writing a value appends the instances of its pieces. -/
theorem writeValue_eq (pieces : List Value) :
    writeValue values out pieces = out ++ instantiate values (pieces.map Value.piece) := by
  induction pieces generalizing out with
  | nil => simp [writeValue]
  | cons value rest ih =>
    have hrest : writeValue values out (value :: rest)
        = writeValue values (value.write values out) rest := rfl
    rw [hrest, ih, value.write_eq, String.append_assoc, ← instantiate_append]
    rfl

/-- Writing an attribute appends its key and its value in quotes, with a space in front. -/
theorem Attribute.write_eq (attr : Attribute) :
    attr.write values out = out ++ instantiate values attr.pieces := by
  rw [Attribute.write, writeValue_eq, String.push_eq_append]
  simp [Attribute.pieces, String.append_assoc]

/-- Writing a tag appends its mark, its name and its attributes. -/
theorem writeTag_eq (name : String) (attributes : List Attribute) :
    writeTag values out name attributes
      = out ++ instantiate values (.text "<" :: .text name :: attributePieces attributes) := by
  have hattributes (out : String) :
      attributes.foldl (fun out attr => attr.write values (out.push ' ')) out
        = out ++ instantiate values (attributePieces attributes) := by
    induction attributes generalizing out with
    | nil => simp [attributePieces]
    | cons attr rest ih =>
      rw [List.foldl_cons, ih, attr.write_eq]
      simp [attributePieces, String.append_assoc, String.push_eq_append]
  rw [writeTag, hattributes]
  simp [String.append_assoc, String.push_eq_append]

/-- Writing a closing tag appends its mark and its name. -/
theorem writeClosingTag_eq (name : String) :
    writeClosingTag out name = out ++ instantiate values (closingTagPieces name) := by
  simp [writeClosingTag, closingTagPieces, String.append_assoc, String.push_eq_append]

end Write

mutual

/-- Writing an element appends the instance of its pieces. -/
theorem Element.write_eq (values : Values) (out : String) :
    ∀ element : Element, element.write values out = out ++ instantiate values element.pieces
  | ⟨name, attributes, some content, children⟩ => by
    rw [Element.write, writeClosingTag_eq values, writeValue_eq, writeTag_eq, Element.pieces]
    simp [String.append_assoc, String.push_eq_append]
  | ⟨name, attributes, none, child :: children⟩ => by
    rw [Element.write, writeClosingTag_eq values, writeElements_eq values _ children,
      Element.write_eq values _ child, writeTag_eq, Element.pieces]
    simp [String.append_assoc, String.push_eq_append]
  | ⟨name, attributes, none, []⟩ => by
    rw [Element.write, writeTag_eq, Element.pieces]
    simp [String.append_assoc]

/-- Writing elements appends the instances of their pieces, by recursion on the elements. -/
theorem writeElements_eq (values : Values) (out : String) :
    ∀ elements : List Element,
      writeElements values out elements = out ++ instantiate values (elementPieces elements)
  | [] => by simp [writeElements, elementPieces]
  | element :: rest => by
    rw [writeElements, writeElements_eq values _ rest, Element.write_eq values out element,
      elementPieces, instantiate_append, String.append_assoc]

end

/-- Writing a document appends the instance of its pieces. -/
theorem Document.write_eq (values : Values) (out : String) (document : Document) :
    document.write values out = out ++ Template.instantiate values document.pieces := by
  rw [Document.write, Document.pieces]
  cases document.root with
  | none => simp
  | some root => exact root.write_eq values out

/-- Writing a part of a template appends the instance of its pieces. -/
theorem Node.write_eq (values : Values) (out : String) (node : Node) :
    node.write values out = out ++ Template.instantiate values node.pieces := by
  cases node with
  | excerpt taken => simp [Node.write, Node.pieces]
  | symbol reference => exact reference.write_eq values out
  | «attribute» attr => exact attr.write_eq values out
  | element root => exact root.write_eq values out
  | values pieces => exact writeValue_eq values out pieces
  | document whole => exact whole.write_eq values out

/-- The instance of a document is that of its pieces. -/
theorem Document.instantiate_eq (document : Document) (values : Values) :
    document.instantiate values = Template.instantiate values document.pieces := by
  rw [Document.instantiate, document.write_eq, String.empty_append]

/-- The instance of a part of a template is that of its pieces. -/
theorem Node.instantiate_eq (node : Node) (values : Values) :
    node.instantiate values = Template.instantiate values node.pieces := by
  rw [Node.instantiate, node.write_eq, String.empty_append]

end JobMarkup.Template
